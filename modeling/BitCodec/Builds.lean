import BitCodec.Extractor

/-!
# The portable build against the x86 build

The two builds differ only in `shrd`: with `JML_INTEL_ISA` the `SHRD`
template, elsewhere `shrd_emulated`, which is undefined where it shifts a
word by its own width. Wherever the emulation is defined with `bit` below the
word width it is the window `SHRD` computes, and a cursor's `bit_ofs` never
leaves that range. So a `Bit_Extractor` run that completes in the portable
build completes on x86 with the same result; the converse fails, since the
emulation is undefined at `bit_ofs = 0` on 32- and 64-bit words.
-/

set_option autoImplicit false

namespace BitCodec.Builds
open BitCodec.MachineWord BitCodec.BitRange BitCodec.SignExtend BitCodec.Buffers
open BitCodec.Extractor MemBuffer

variable {D : Word}

theorem shrd_portable_x86 {low high r : Data D} {bit : ℕ} (hbit : bit < D.bits)
    (h : shrd .portable D low high bit = some r) : shrd .x86 D low high bit = some r := by
  change shrdEmulated D low high bit = some r at h
  rw [shrdEmulated_spec low high bit hbit] at h
  split_ifs at h
  rw [shrd_x86 low high bit hbit, h]

theorem extractBitRangePure_portable_x86 {p0 p1 r : Data D} {bit bits : ℕ}
    (hbit : bit < D.bits) (h : extractBitRangePure .portable D p0 p1 bit bits = some r) :
    extractBitRangePure .x86 D p0 p1 bit bits = some r := by
  unfold extractBitRangePure at h ⊢
  split_ifs at h ⊢
  · exact h
  · cases hs : shrd .portable D p0 p1 bit with
    | none => simp [hs] at h
    | some w => simpa only [shrd_portable_x86 hbit hs, hs] using h

variable {M : Type} [MemBuffer D M]

namespace BitBuffer

theorem advance_bitOfs_lt {mem : Mem D} {s s' : BitBuffer M} {bits : ℕ} {l : List ℕ}
    (h : s.advance mem bits = some (s', l)) : s'.bitOfs < D.bits := by
  simp only [BitBuffer.advance] at h
  split_ifs at h
  generalize addAssign mem s.data ((s.bitOfs + bits) / D.bits) = p at h
  obtain ⟨m, ls⟩ := p
  cases h
  exact Nat.mod_lt _ D.bits_pos

theorem extract_portable_x86 {mem : Mem D} {s : BitBuffer M} (hs : s.bitOfs < D.bits)
    {bits : ℕ} {r : Data D × BitBuffer M × List ℕ}
    (h : s.extract .portable mem bits = some r) :
    s.extract .x86 mem bits = some r ∧ r.2.1.bitOfs < D.bits := by
  rw [BitBuffer.extract_eq] at h ⊢
  obtain ⟨v, hv, hr⟩ := Option.bind_eq_some.1 h
  obtain ⟨⟨s', l⟩, ha, rfl⟩ := Option.map_eq_some'.1 hr
  exact ⟨by rw [extractBitRangePure_portable_x86 hs hv, Option.some_bind, ha]; rfl,
    advance_bitOfs_lt ha⟩

end BitBuffer

namespace BitExtractor

theorem extract_portable_x86 {mem : Mem D} {x : BitExtractor M} (hx : x.buf.bitOfs < D.bits)
    {T : CType} {bits : ℕ} {r : Extracted D × BitExtractor M × List ℕ}
    (h : x.extract .portable mem T bits = some r) :
    x.extract .x86 mem T bits = some r ∧ r.2.1.buf.bitOfs < D.bits := by
  simp only [BitExtractor.extract, Option.bind_eq_bind] at h ⊢
  obtain ⟨⟨raw, s, l⟩, he, hr⟩ := Option.bind_eq_some.1 h
  obtain ⟨he', hs⟩ := BitBuffer.extract_portable_x86 hx he
  cases hr
  exact ⟨by rw [he']; rfl, hs⟩

theorem extractAll_portable_x86 {mem : Mem D} (fs : List (CType × ℕ)) {x : BitExtractor M}
    (hx : x.buf.bitOfs < D.bits) {r : List (Extracted D) × BitExtractor M × List ℕ}
    (h : x.extractAll .portable mem fs = some r) :
    x.extractAll .x86 mem fs = some r ∧ r.2.1.buf.bitOfs < D.bits := by
  induction fs generalizing x r with
  | nil =>
    cases h
    exact ⟨rfl, hx⟩
  | cons f fs ih =>
    simp only [BitExtractor.extractAll, Option.bind_eq_bind] at h ⊢
    obtain ⟨⟨e, x1, l1⟩, h1, h⟩ := Option.bind_eq_some.1 h
    obtain ⟨⟨es, x2, l2⟩, h2, h⟩ := Option.bind_eq_some.1 h
    cases h
    obtain ⟨h1', hx1⟩ := extract_portable_x86 hx h1
    obtain ⟨h2', hx2⟩ := ih hx1 h2
    exact ⟨by simp only [h1', h2', Option.some_bind]; rfl, hx2⟩

theorem call_portable_x86 {mem : Mem D} {x : BitExtractor M} (hx : x.buf.bitOfs < D.bits)
    (c : Call) {r : List (Extracted D) × BitExtractor M × List ℕ}
    (h : x.call .portable mem c = some r) :
    x.call .x86 mem c = some r ∧ r.2.1.buf.bitOfs < D.bits := by
  by_cases hc : ∀ k, c ≠ .advance k
  · rw [BitExtractor.call_eq_extractAll _ _ _ _ hc] at h ⊢
    exact extractAll_portable_x86 _ hx h
  · obtain ⟨k, rfl⟩ := not_forall_not.1 hc
    refine ⟨h, ?_⟩
    simp only [BitExtractor.call, BitExtractor.advance, Option.bind_eq_bind] at h
    obtain ⟨⟨x1, l1⟩, h1, h⟩ := Option.bind_eq_some.1 h
    obtain ⟨⟨s1, l1'⟩, ha, h1⟩ := Option.bind_eq_some.1 h1
    cases h1
    cases h
    exact BitBuffer.advance_bitOfs_lt ha

theorem run_portable_x86 {mem : Mem D} (cs : List Call) {x : BitExtractor M}
    (hx : x.buf.bitOfs < D.bits) {r : List (Extracted D) × BitExtractor M × List ℕ}
    (h : x.run .portable mem cs = some r) : x.run .x86 mem cs = some r := by
  induction cs generalizing x r with
  | nil => exact h
  | cons c cs ih =>
    simp only [BitExtractor.run, Option.bind_eq_bind] at h ⊢
    obtain ⟨⟨es1, x1, l1⟩, h1, h⟩ := Option.bind_eq_some.1 h
    obtain ⟨⟨es2, x2, l2⟩, h2, h⟩ := Option.bind_eq_some.1 h
    cases h
    obtain ⟨h1', hx1⟩ := call_portable_x86 hx c h1
    simp only [h1', ih hx1 h2, Option.some_bind]
    rfl

end BitExtractor

/-- For every word type, memory buffer and array, a run of `Bit_Extractor`
calls from construction that completes in the portable build completes with
`JML_INTEL_ISA` with the same fields, final extractor and loads: `SHRD`
agrees with `shrd_emulated` wherever the emulation is defined. -/
theorem portable_run_agrees_x86 (mem : Mem D) (cs : List Call)
    {r : List (Extracted D) × BitExtractor M × List ℕ}
    (h : (BitExtractor.create M mem).1.run .portable mem cs = some r) :
    (BitExtractor.create M mem).1.run .x86 mem cs = some r :=
  BitExtractor.run_portable_x86 cs D.bits_pos h

theorem portable_run_agrees_x86_u16 :
    ∃ r, (BitExtractor.create (D := .u16) (BufferedMemBuffer .u16) (fun i => 0x9E37 * i)).1.run
        .portable (fun i => 0x9E37 * i)
        [.extract2 .ushort 5 .short 9, .advance 3, .extract .ushort 12] = some r ∧
      (BitExtractor.create (D := .u16) (BufferedMemBuffer .u16) (fun i => 0x9E37 * i)).1.run
        .x86 (fun i => 0x9E37 * i)
        [.extract2 .ushort 5 .short 9, .advance 3, .extract .ushort 12] = some r :=
  ⟨_, rfl, portable_run_agrees_x86 _ _ rfl⟩

end BitCodec.Builds
