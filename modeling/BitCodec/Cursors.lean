import BitCodec.Extractor
import BitCodec.Writer

/-!
# The cursor invariant

`Bit_Buffer`, over either memory buffer, and `Bit_Writer` keep a word
pointer and an `int` `bit_ofs`, and every call folds whole words of
`bit_ofs` into the pointer. After each call that completes, `bit_ofs` is
below `W` and `W` times the words the pointer has moved, plus `bit_ofs`, is
the number of bits consumed: the cursor stands at its stream position. On
x86 every call with extract and write widths below `W`, and advances that
cannot overflow `bit_ofs`, completes; an extract as wide as the promoted word
never does.
-/

set_option autoImplicit false

namespace BitCodec.Cursors
open BitCodec.MachineWord BitCodec.BitRange BitCodec.Stream BitCodec.Buffers
open BitCodec.Extractor BitCodec.Writer MemBuffer

def consumed : List BufferCall → ℕ
  | [] => 0
  | c :: cs => c.bits + consumed cs

theorem consumed_append (cs cs' : List BufferCall) :
    consumed (cs ++ cs') = consumed cs + consumed cs' := by
  induction cs with
  | nil => simp [consumed]
  | cons c cs ih => simp [consumed, ih, Nat.add_assoc]

variable {D : Word} {M : Type} [MemBuffer D M] [LawfulMemBuffer D M]

theorem advance_some_at {mem : Mem D} {s s' : BitBuffer M} {P k : ℕ} {l : List ℕ}
    (hs : BitBuffer.At mem s P) (h : s.advance mem k = some (s', l)) :
    BitBuffer.At mem s' (P + k) := by
  by_cases hk : s.bitOfs + k ≤ intMax
  · obtain ⟨s'', l'', ha, hs'', -⟩ := BitBuffer.advance_at hs k hk
    rw [ha] at h
    cases h
    exact hs''
  · simp only [BitBuffer.advance, if_pos (not_le.1 hk)] at h
    cases h

theorem extract_some_at (b : Build) {mem : Mem D} {s s' : BitBuffer M} {P bits : ℕ}
    {r : Data D} {l : List ℕ} (hs : BitBuffer.At mem s P)
    (h : s.extract b mem bits = some (r, s', l)) : BitBuffer.At mem s' (P + bits) := by
  rw [BitBuffer.extract_eq] at h
  obtain ⟨_, -, h⟩ := Option.bind_eq_some.1 h
  obtain ⟨p, hp, hfp⟩ := Option.map_eq_some'.1 h
  cases hfp
  exact advance_some_at hs hp

theorem call_some_at (b : Build) {mem : Mem D} {s s' : BitBuffer M} {P : ℕ} {c : BufferCall}
    {es : List (Data D)} {l : List ℕ} (hs : BitBuffer.At mem s P)
    (h : s.call b mem c = some (es, s', l)) : BitBuffer.At mem s' (P + c.bits) := by
  cases c with
  | extract bits =>
    obtain ⟨⟨r, s1, l1⟩, hr, hfr⟩ := Option.map_eq_some'.1 h
    cases hfr
    exact extract_some_at b hs hr
  | advance bits =>
    obtain ⟨⟨s1, l1⟩, hr, hfr⟩ := Option.map_eq_some'.1 h
    cases hfr
    exact advance_some_at hs hr

theorem run_some_at (b : Build) {mem : Mem D} (cs : List BufferCall) {s s' : BitBuffer M}
    {P : ℕ} {es : List (Data D)} {l : List ℕ} (hs : BitBuffer.At mem s P)
    (h : s.run b mem cs = some (es, s', l)) : BitBuffer.At mem s' (P + consumed cs) := by
  induction cs generalizing s P es l with
  | nil =>
    cases h
    exact hs
  | cons c cs ih =>
    simp only [BitBuffer.run, Option.bind_eq_bind] at h
    obtain ⟨⟨es1, s1, l1⟩, h1, h⟩ := Option.bind_eq_some.1 h
    obtain ⟨⟨es2, s2, l2⟩, h2, h⟩ := Option.bind_eq_some.1 h
    cases h
    rw [consumed, ← Nat.add_assoc]
    exact ih (call_some_at b hs h1) h2

theorem call_x86_some {mem : Mem D} {c : BufferCall} (hc : c.Valid D) {s : BitBuffer M} {P : ℕ}
    (hs : BitBuffer.At mem s P) : ∃ r, s.call .x86 mem c = some r := by
  have hW := Nat.mod_lt P D.bits_pos
  cases c with
  | extract bits =>
    obtain ⟨_, _, -, -, he⟩ := BitBuffer.extract_at .x86 hs hc
    rw [extractBitRangePure_x86 _ _ _ _ hW hc] at he
    exact ⟨_, by rw [BitBuffer.call, he]; rfl⟩
  | advance bits =>
    obtain ⟨_, _, ha, -⟩ :=
      BitBuffer.advance_at hs bits (by rw [hs.2.2]; simp only [BufferCall.Valid] at hc; omega)
    exact ⟨_, by rw [BitBuffer.call, ha]; rfl⟩

theorem run_x86_some {mem : Mem D} (cs : List BufferCall) (hv : ∀ c ∈ cs, c.Valid D)
    {s : BitBuffer M} {P : ℕ} (hs : BitBuffer.At mem s P) :
    ∃ es s' l, s.run .x86 mem cs = some (es, s', l) := by
  induction cs generalizing s P with
  | nil => exact ⟨[], s, [], rfl⟩
  | cons c cs ih =>
    obtain ⟨⟨r, s1, l1⟩, hcall⟩ := call_x86_some (hv c (List.mem_cons_self _ _)) hs
    obtain ⟨es, s', l, hr⟩ :=
      ih (fun c hc => hv c (List.mem_cons_of_mem _ hc)) (call_some_at .x86 hs hcall)
    exact ⟨_, s', _, by
      simp only [BitBuffer.run, hcall, hr, Option.bind_eq_bind, Option.some_bind]; rfl⟩

theorem write_some_at {w w' : BitWriter} {P bits : ℕ} {mem mem' : Mem D} {val : Data D}
    {log : List Access} (hw : BitWriter.At D w P)
    (h : w.write mem val bits = some (mem', w', log)) : BitWriter.At D w' (P + bits) := by
  simp only [BitWriter.write, Option.bind_eq_bind] at h
  obtain ⟨_, -, h⟩ := Option.bind_eq_some.1 h
  split_ifs at h
  cases h
  rw [hw.1, hw.2]
  exact ⟨div_add_mod_add D.bits P bits D.bits_pos, Nat.mod_add_mod _ _ _⟩

theorem writerRun_some_at {vs : List (Data D × ℕ)} {w w' : BitWriter} {P : ℕ}
    {mem mem' : Mem D} {logs : List (List Access)} (hw : BitWriter.At D w P)
    (h : w.run mem vs = some (mem', w', logs)) : BitWriter.At D w' (P + totalBits vs) := by
  induction vs generalizing w P mem logs with
  | nil =>
    cases h
    exact hw
  | cons f vs ih =>
    obtain ⟨v, bits⟩ := f
    simp only [BitWriter.run, Option.bind_eq_bind] at h
    obtain ⟨⟨mem1, w1, l1⟩, h1, h⟩ := Option.bind_eq_some.1 h
    obtain ⟨⟨mem2, w2, l2⟩, h2, h⟩ := Option.bind_eq_some.1 h
    cases h
    rw [totalBits_cons, ← Nat.add_assoc]
    exact ih (write_some_at hw h1) h2

theorem normal_of_at {d o P : ℕ} (hd : d = P / D.bits) (ho : o = P % D.bits) :
    o < D.bits ∧ d * D.bits + o = P :=
  ⟨ho ▸ Nat.mod_lt P D.bits_pos, by rw [hd, ho, Nat.div_add_mod']⟩

theorem run_create_at (b : Build) (mem : Mem D) {cs : List BufferCall} {s : BitBuffer M}
    {es : List (Data D)} {l : List ℕ} (h : (BitBuffer.create M mem).1.run b mem cs = some (es, s, l)) :
    BitBuffer.At mem s (consumed cs) := by
  simpa using run_some_at b cs (BitBuffer.create_at mem) h

theorem writerRun_create_at {mem mem' : Mem D} {vs : List (Data D × ℕ)} {w : BitWriter}
    {logs : List (List Access)} (h : BitWriter.create.run mem vs = some (mem', w, logs)) :
    BitWriter.At D w (totalBits vs) := by
  simpa using writerRun_some_at BitWriter.create_at h

/-- Over either memory buffer and either build, after every run of
`Bit_Buffer` calls from construction that completes, `bit_ofs` is below `W`
and `W` times the words the buffer has moved plus `bit_ofs` is the number of
bits the run consumed, so extending a run never moves the buffer back; on x86
a run of extracts narrower than a word and advances that cannot overflow
`bit_ofs` completes, and no run completes that reaches an extract as wide as
the promoted word. `Bit_Writer` keeps the same invariant, and a run of writes
narrower than a word completes. -/
theorem cursor_invariant (b : Build) (k : MemKind) (D : Word) (mem : Mem D) :
    (∀ cs es s l, (BitBuffer.create (k.Buffer D) mem).1.run b mem cs = some (es, s, l) →
      s.bitOfs < D.bits ∧ MemBuffer.data s.data * D.bits + s.bitOfs = consumed cs) ∧
    (∀ cs cs' es s l es' s' l',
      (BitBuffer.create (k.Buffer D) mem).1.run b mem cs = some (es, s, l) →
      (BitBuffer.create (k.Buffer D) mem).1.run b mem (cs ++ cs') = some (es', s', l') →
      MemBuffer.data s.data ≤ MemBuffer.data s'.data) ∧
    (∀ cs, (∀ c ∈ cs, c.Valid D) →
      ∃ es s l, (BitBuffer.create (k.Buffer D) mem).1.run .x86 mem cs = some (es, s, l)) ∧
    (∀ cs bits cs', D.promoted ≤ bits →
      (BitBuffer.create (k.Buffer D) mem).1.run b mem (cs ++ .extract bits :: cs') = none) ∧
    (∀ vs mem' w logs, BitWriter.create.run mem vs = some (mem', w, logs) →
      w.bitOfs < D.bits ∧ w.data * D.bits + w.bitOfs = totalBits vs) ∧
    (∀ vs vs' mem' w logs mem'' w' logs', BitWriter.create.run mem vs = some (mem', w, logs) →
      BitWriter.create.run mem (vs ++ vs') = some (mem'', w', logs') → w.data ≤ w'.data) ∧
    (∀ vs, (∀ f ∈ vs, f.2 < D.bits) →
      ∃ mem' w logs, BitWriter.create.run mem vs = some (mem', w, logs)) := by
  refine ⟨fun cs es s l h => ?_, fun cs cs' es s l es' s' l' h h' => ?_,
    fun cs hv => run_x86_some cs hv (BitBuffer.create_at mem),
    fun cs bits cs' h => BitBuffer.run_none_of_promoted_le b mem h cs cs' _, fun vs mem' w logs h => ?_,
    fun vs vs' mem' w logs mem'' w' logs' h h' => ?_, fun vs hv => ?_⟩
  · exact normal_of_at (run_create_at b mem h).2.1 (run_create_at b mem h).2.2
  · rw [(run_create_at b mem h).2.1, (run_create_at b mem h').2.1, consumed_append]
    exact Nat.div_le_div_right (Nat.le_add_right _ _)
  · exact normal_of_at (writerRun_create_at h).1 (writerRun_create_at h).2
  · rw [(writerRun_create_at h).1, (writerRun_create_at h').1, totalBits_append]
    exact Nat.div_le_div_right (Nat.le_add_right _ _)
  · obtain ⟨mem', w, logs, he, -⟩ := BitWriter.run_at mem BitWriter.create_at vs hv
    exact ⟨mem', w, logs, he⟩

/-- A width of one word or more is within `INT_MAX - W + 1`, yet the first
`extract(40)` of a 32-bit `Bit_Buffer` shifts `Data(1) << 40`: the call is
undefined and leaves no cursor state. -/
theorem extract_wide_undefined :
    40 ≤ intMax - (Word.u32).bits + 1 ∧
      (BitBuffer.create (SimpleMemBuffer .u32) fun _ => 0).1.run .x86 (fun _ => 0)
        [.extract 40] = none :=
  ⟨by decide, BitBuffer.run_none_of_promoted_le .x86 _ (by decide) [] [] _⟩

end BitCodec.Cursors
