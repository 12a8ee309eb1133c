import BitCodec.Extractor
import BitCodec.Writer

/-!
# Writing fields and reading them back

A fresh `Bit_Writer` writes a sequence of fields; a fresh `Bit_Extractor`
over the same array, with either memory buffer, reads the same widths back.
The writer leaves the stream `packedBit`, the extractor reads the cursor
fields at the same spans, and a cursor field of the packed stream is the
low bits of the value written there.
-/

set_option autoImplicit false

namespace BitCodec.RoundTrip
open BitCodec.MachineWord BitCodec.BitRange BitCodec.Stream BitCodec.Buffers
open BitCodec.SignExtend BitCodec.Extractor BitCodec.Writer

variable {D : Word}

theorem fieldsFrom_extracts (T : CType) (P : ℕ) (vs : List (Data D × ℕ)) :
    fieldsFrom P (vs.map fun f => .extract T f.2) = (spans P vs).map fun f => ⟨T, f.1, f.2⟩ := by
  induction vs generalizing P with
  | nil => rfl
  | cons f vs ih =>
    simp [fieldsFrom, fieldsAt, Call.fields, Call.width, fieldsWidth, Call.skip, spans, ih]

theorem extracts_valid (T : CType) {vs : List (Data D × ℕ)} (hv : ∀ f ∈ vs, f.2 < D.bits) :
    ∀ c ∈ vs.map (fun f => Call.extract T f.2), c.Valid D := by
  intro c hc
  obtain ⟨f, hf, rfl⟩ := List.mem_map.1 hc
  have := D.bits_le_64
  exact ⟨by simpa [Call.fields] using hv f hf, by simp only [Call.skip, intMax]; omega⟩

theorem cursorField_packed {mem : Mem D} {s : ℕ → Bool} {P : ℕ} {vs : List (Data D × ℕ)}
    (hv : ∀ f ∈ vs, f.2 < D.bits) (h : ∀ q, P ≤ q → streamBit mem q = packedBit s P vs q) :
    (spans P vs).map (fun f => (cursorField mem f.1 f.2).toNat) =
      vs.map fun f => f.1.toNat % 2 ^ f.2 := by
  induction vs generalizing P with
  | nil => rfl
  | cons f vs ih =>
    obtain ⟨v, w⟩ := f
    simp only [spans, List.map_cons, List.cons.injEq]
    refine ⟨Nat.eq_of_testBit_eq fun i => ?_,
      ih (fun f hf => hv f (List.mem_cons_of_mem _ hf)) fun q hq => ?_⟩
    · rw [testBit_cursorField _ _ _ _ (hv _ (List.mem_cons_self _ _)), Nat.testBit_mod_two_pow]
      by_cases hi : i < w
      · rw [h _ (Nat.le_add_right _ _), packedBit, if_pos (by omega), Nat.add_sub_cancel_left,
          BitVec.testBit_toNat]
      · simp [hi]
    · rw [h q (by omega), packedBit, if_neg (by omega)]

/-- On x86, fields narrower than a word written with a fresh `Bit_Writer`
read back, with a fresh `Bit_Extractor` over either memory buffer, as their
values modulo `2^w`; every bit past the last field is as it was. -/
theorem write_then_extract (k : MemKind) (D : Word) (mem : Mem D) (vs : List (Data D × ℕ))
    (T : CType) (hv : ∀ f ∈ vs, f.2 < D.bits) :
    ∃ mem' w logs, BitWriter.create.run mem vs = some (mem', w, logs) ∧
      (∃ es x l, (BitExtractor.create (k.Buffer D) mem').1.run .x86 mem'
          (vs.map fun f => .extract T f.2) = some (es, x, l) ∧
        es.map (fun e => e.raw.toNat) = vs.map fun f => f.1.toNat % 2 ^ f.2) ∧
      ∀ q, totalBits vs ≤ q → streamBit mem' q = streamBit mem q := by
  obtain ⟨mem', w, logs, he, -, hs, -⟩ := BitWriter.run_at mem BitWriter.create_at vs hv
  obtain ⟨x, l, hr⟩ := run_create_x86 k mem' _ (extracts_valid T hv)
  refine ⟨mem', w, logs, he, ⟨_, x, l, hr, ?_⟩, fun q hq => ?_⟩
  · rw [fieldsFrom_extracts, List.map_map, List.map_map]
    exact cursorField_packed hv fun q _ => hs q
  · rw [hs, packedBit_ge _ _ (by simpa using hq)]

theorem write_then_extract_u16 :
    (∀ f ∈ ([(0x1ABC, 13), (0x3F, 6), (7, 0), (0xFFFF, 15)] : List (Data .u16 × ℕ)),
        f.2 < (Word.u16).bits) ∧
      ∃ mem' w logs, BitWriter.create.run (fun _ => 0x5A5A : Mem .u16)
          [(0x1ABC, 13), (0x3F, 6), (7, 0), (0xFFFF, 15)] = some (mem', w, logs) ∧
        (∃ es x l, (BitExtractor.create (MemKind.buffered.Buffer .u16) mem').1.run .x86 mem'
            (([(0x1ABC, 13), (0x3F, 6), (7, 0), (0xFFFF, 15)] : List (Data .u16 × ℕ)).map
              fun f => .extract .ushort f.2) = some (es, x, l) ∧
          es.map (fun e => e.raw.toNat) =
            ([(0x1ABC, 13), (0x3F, 6), (7, 0), (0xFFFF, 15)] : List (Data .u16 × ℕ)).map
              fun f => f.1.toNat % 2 ^ f.2) ∧
        ∀ q, totalBits ([(0x1ABC, 13), (0x3F, 6), (7, 0), (0xFFFF, 15)] :
            List (Data .u16 × ℕ)) ≤ q →
          streamBit mem' q = streamBit (fun _ => 0x5A5A : Mem .u16) q :=
  ⟨by decide, write_then_extract .buffered .u16 _ _ .ushort (by decide)⟩

/-- On x86, after a fresh `Bit_Writer` writes fields narrower than a word, a
fresh `Bit_Extractor` over either memory buffer completes any run of valid
calls, whose fields need not line up with the ones written, and reads each
field off the packed stream: the bits written where a write covered them,
the array's old bits past the last write. -/
theorem write_then_read_any (k : MemKind) (D : Word) (mem : Mem D) (vs : List (Data D × ℕ))
    (cs : List Call) (hv : ∀ f ∈ vs, f.2 < D.bits) (hc : ∀ c ∈ cs, c.Valid D) :
    ∃ mem' w logs, BitWriter.create.run mem vs = some (mem', w, logs) ∧
      ∃ es x l, (BitExtractor.create (k.Buffer D) mem').1.run .x86 mem' cs = some (es, x, l) ∧
        List.Forall₂ (fun e f => e.dest = f.dest ∧ ∀ i, e.raw.getLsbD i =
            (decide (i < f.width) && packedBit (streamBit mem) 0 vs (f.pos + i)))
          es (fieldsFrom 0 cs) := by
  obtain ⟨mem', w, logs, he, -, hs, -⟩ := BitWriter.run_at mem BitWriter.create_at vs hv
  obtain ⟨x, l, hr⟩ := run_create_x86 k mem' cs hc
  refine ⟨mem', w, logs, he, _, x, l, hr,
    List.forall₂_map_left_iff.2 (List.forall₂_same.2 fun f hf => ⟨rfl, fun i => ?_⟩)⟩
  show (cursorField mem' f.pos f.width).getLsbD i = _
  rw [← BitVec.testBit_toNat, testBit_cursorField _ _ _ _ (width_lt_of_mem_fieldsFrom hc hf), hs]

theorem write_then_read_any_u8 :
    (∀ f ∈ ([(5, 3), (0x2A, 6)] : List (Data .u8 × ℕ)), f.2 < (Word.u8).bits) ∧
      (∀ c ∈ ([.extract2 .uchar 4 .schar 4, .advance 1, .extract .uchar 7] : List Call),
        c.Valid .u8) ∧
      ∃ mem' w logs, BitWriter.create.run (fun _ => 0xFF : Mem .u8)
          [(5, 3), (0x2A, 6)] = some (mem', w, logs) ∧
        ∃ es x l, (BitExtractor.create (MemKind.simple.Buffer .u8) mem').1.run .x86 mem'
            [.extract2 .uchar 4 .schar 4, .advance 1, .extract .uchar 7] = some (es, x, l) ∧
          List.Forall₂ (fun e f => e.dest = f.dest ∧ ∀ i, e.raw.getLsbD i =
              (decide (i < f.width) && packedBit (streamBit (fun _ => 0xFF : Mem .u8)) 0
                ([(5, 3), (0x2A, 6)] : List (Data .u8 × ℕ)) (f.pos + i)))
            es (fieldsFrom 0 [.extract2 .uchar 4 .schar 4, .advance 1, .extract .uchar 7]) :=
  ⟨by decide, by decide, write_then_read_any .simple .u8 _ _ _ (by decide) (by decide)⟩

end BitCodec.RoundTrip
