import Mathlib.Data.List.Forall2
import BitCodec.Stream

/-!
# The sequential writer

`Bit_Writer<Data>`: `write(val, bits)` calls `set_bit_range` on the word
under the cursor and then moves the cursor by `bits`, folding whole words of
`bit_ofs` into the `data` pointer. Each write returns the accesses
`set_bit_range` makes.

What a run of writes is for is `packedBit`: the stream with each field's
bits, in order, at consecutive positions, every other bit as it was. The
run lemma says the array after the writes reads as that stream, and that
each write's accesses are those of one `set_bit_range` at its own field.
-/

set_option autoImplicit false

namespace BitCodec.Writer
open BitCodec.MachineWord BitCodec.BitRange BitCodec.Stream

/-- `Bit_Writer<Data>`: the index its `data` pointer has moved to, and
`bit_ofs`. -/
structure BitWriter where
  data : ℕ
  bitOfs : ℕ

variable {D : Word}

namespace BitWriter

/-- `Bit_Writer(Data * data)`. -/
def create : BitWriter := ⟨0, 0⟩

/-- `write(val, bits)`: the array after `set_bit_range`, the moved writer
and the accesses. `bit_ofs += bits` past `INT_MAX` is undefined. -/
def write (mem : Mem D) (w : BitWriter) (val : Data D) (bits : ℕ) :
    Option (Mem D × BitWriter × List Access) := do
  let (mem, log) ← setBitRange D mem w.data val w.bitOfs bits
  let bitOfs := w.bitOfs + bits
  if intMax < bitOfs then none
  else some (mem, ⟨w.data + bitOfs / D.bits, bitOfs % D.bits⟩, log)

/-- A sequence of writes: the final array and writer, and the accesses of
each write. -/
def run : Mem D → BitWriter → List (Data D × ℕ) →
    Option (Mem D × BitWriter × List (List Access))
  | mem, w, [] => some (mem, w, [])
  | mem, w, (v, bits) :: vs => do
    let (mem, w, log) ← w.write mem v bits
    let (mem, w, logs) ← run mem w vs
    pure (mem, w, log :: logs)

/-- The writer stands at stream position `P`. -/
def At (D : Word) (w : BitWriter) (P : ℕ) : Prop :=
  w.data = P / D.bits ∧ w.bitOfs = P % D.bits

theorem create_at : At D create 0 := by simp [At, create]

end BitWriter

/-- Stream bit `q` once the fields `vs` are written one after another from
position `P` over the stream `s`. -/
def packedBit (s : ℕ → Bool) : ℕ → List (Data D × ℕ) → ℕ → Bool
  | _, [], q => s q
  | P, (v, w) :: vs, q =>
    if P ≤ q ∧ q < P + w then v.getLsbD (q - P) else packedBit s (P + w) vs q

def spans : ℕ → List (Data D × ℕ) → List (ℕ × ℕ)
  | _, [] => []
  | P, (_, w) :: vs => (P, w) :: spans (P + w) vs

def totalBits : List (Data D × ℕ) → ℕ
  | [] => 0
  | (_, w) :: vs => w + totalBits vs

@[simp] theorem totalBits_nil : totalBits ([] : List (Data D × ℕ)) = 0 := rfl

@[simp] theorem totalBits_cons (v : Data D) (w : ℕ) (vs : List (Data D × ℕ)) :
    totalBits ((v, w) :: vs) = w + totalBits vs := rfl

theorem totalBits_append (vs vs' : List (Data D × ℕ)) :
    totalBits (vs ++ vs') = totalBits vs + totalBits vs' := by
  induction vs with
  | nil => simp
  | cons f vs ih => rw [List.cons_append, totalBits, totalBits, ih, Nat.add_assoc]

theorem packedBit_congr {s s' : ℕ → Bool} {q : ℕ} (h : s q = s' q) (P : ℕ)
    (vs : List (Data D × ℕ)) : packedBit s P vs q = packedBit s' P vs q := by
  induction vs generalizing P with
  | nil => exact h
  | cons f vs ih => simp only [packedBit, ih]

theorem packedBit_lt (s : ℕ → Bool) {P q : ℕ} (hq : q < P) (vs : List (Data D × ℕ)) :
    packedBit s P vs q = s q := by
  induction vs generalizing P with
  | nil => rfl
  | cons f vs ih => simp only [packedBit, if_neg (show ¬(P ≤ q ∧ q < P + f.2) by omega),
      ih (show q < P + f.2 by omega)]

theorem packedBit_ge (s : ℕ → Bool) {P q : ℕ} (vs : List (Data D × ℕ))
    (hq : P + totalBits vs ≤ q) : packedBit s P vs q = s q := by
  induction vs generalizing P with
  | nil => rfl
  | cons f vs ih =>
    obtain ⟨v, w⟩ := f
    rw [totalBits_cons] at hq
    simp only [packedBit, if_neg (show ¬(P ≤ q ∧ q < P + w) by omega),
      ih (show P + w + totalBits vs ≤ q by omega)]

theorem spans_end_le {P : ℕ} {vs : List (Data D × ℕ)} {f : ℕ × ℕ} (hf : f ∈ spans P vs) :
    f.1 + f.2 ≤ P + totalBits vs := by
  induction vs generalizing P with
  | nil => simp [spans] at hf
  | cons g vs ih =>
    obtain ⟨v, w⟩ := g
    rcases List.mem_cons.1 hf with rfl | hf
    · simp
    · have := ih hf
      simp only [totalBits_cons]
      omega

theorem streamBit_of_replaced {mem mem' : Mem D} {d : ℕ} {val : Data D} {bit bits : ℕ}
    (h : Replaced mem mem' d val bit bits) (hb : bit + bits ≤ 2 * D.bits) (q : ℕ) :
    streamBit mem' q =
      if d * D.bits + bit ≤ q ∧ q < d * D.bits + bit + bits then
        val.getLsbD (q - (d * D.bits + bit))
      else streamBit mem q := by
  have hW := D.bits_pos
  by_cases hq : d * D.bits ≤ q ∧ q < d * D.bits + 2 * D.bits
  · obtain ⟨j, rfl⟩ : ∃ j, q = d * D.bits + j := ⟨q - d * D.bits, by omega⟩
    rw [← testBit_pair_stream _ _ _ (by omega), ← testBit_pair_stream _ _ _ (by omega), h.2 j]
    by_cases hin : bit ≤ j ∧ j < bit + bits
    · rw [if_pos hin, if_pos (by omega), show d * D.bits + j - (d * D.bits + bit) = j - bit by
        omega]
    · rw [if_neg hin, if_neg (by omega)]
  · have hd : q / D.bits ≠ d ∧ q / D.bits ≠ d + 1 := by
      rcases not_and_or.1 hq with hq | hq
      · have := (Nat.div_lt_iff_lt_mul hW).2 (show q < d * D.bits by omega)
        omega
      · have := (Nat.le_div_iff_mul_le hW).2 (show (d + 2) * D.bits ≤ q by rw [Nat.add_mul]; omega)
        omega
    rw [streamBit, streamBit, h.1 _ hd.1 hd.2, if_neg (by omega)]

theorem mem_setBitRangeLog {P bits : ℕ} {a : Access}
    (ha : a ∈ setBitRangeLog D (P / D.bits) (P % D.bits) bits) :
    ∃ q, P ≤ q ∧ q < P + bits ∧ q / D.bits = a.index := by
  have hr := Nat.mod_lt P D.bits_pos
  have hP := Nat.div_add_mod' P D.bits
  unfold setBitRangeLog at ha
  split_ifs at ha with h0 hfit
  · simp at ha
  · simp only [List.mem_cons, List.not_mem_nil, or_false] at ha
    rcases ha with rfl | rfl <;> exact ⟨P, le_rfl, by omega, rfl⟩
  · have hq : (P / D.bits + 1) * D.bits = P / D.bits * D.bits + D.bits := Nat.succ_mul _ _
    simp only [List.mem_cons, List.not_mem_nil, or_false] at ha
    rcases ha with rfl | rfl | rfl | rfl
    · exact ⟨P, le_rfl, by omega, rfl⟩
    · exact ⟨P, le_rfl, by omega, rfl⟩
    · exact ⟨(P / D.bits + 1) * D.bits, by omega, by omega, Nat.mul_div_cancel _ D.bits_pos⟩
    · exact ⟨(P / D.bits + 1) * D.bits, by omega, by omega, Nat.mul_div_cancel _ D.bits_pos⟩

namespace BitWriter

theorem write_at {w : BitWriter} {P : ℕ} (hw : At D w P) (mem : Mem D) (val : Data D)
    {bits : ℕ} (hbits : bits < D.bits) :
    ∃ mem' w', w.write mem val bits =
        some (mem', w', setBitRangeLog D (P / D.bits) (P % D.bits) bits) ∧
      At D w' (P + bits) ∧
      ∀ q, streamBit mem' q =
        if P ≤ q ∧ q < P + bits then val.getLsbD (q - P) else streamBit mem q := by
  have hP := Nat.mod_lt P D.bits_pos
  obtain ⟨mem', hs, hr⟩ := setBitRange_spec mem (P / D.bits) val (P % D.bits) bits hP hbits
  have hk : ¬intMax < w.bitOfs + bits := by
    have := D.bits_le_64
    simp only [intMax, hw.2]
    omega
  refine ⟨mem', ⟨P / D.bits + (P % D.bits + bits) / D.bits, (P % D.bits + bits) % D.bits⟩,
    by simp only [write, hw.1, hw.2, hs, Option.bind_eq_bind, Option.some_bind, if_neg (hw.2 ▸ hk)],
    ⟨?_, Nat.mod_add_mod _ _ _⟩, fun q => ?_⟩
  · exact div_add_mod_add D.bits P bits D.bits_pos
  · rw [streamBit_of_replaced hr (by omega), Nat.mul_comm, Nat.div_add_mod]

theorem run_at (mem : Mem D) {w : BitWriter} {P : ℕ} (hw : At D w P) (vs : List (Data D × ℕ))
    (hv : ∀ f ∈ vs, f.2 < D.bits) :
    ∃ mem' w' logs, w.run mem vs = some (mem', w', logs) ∧ At D w' (P + totalBits vs) ∧
      (∀ q, streamBit mem' q = packedBit (streamBit mem) P vs q) ∧
      logs = (spans P vs).map fun f => setBitRangeLog D (f.1 / D.bits) (f.1 % D.bits) f.2 := by
  induction vs generalizing mem w P with
  | nil => exact ⟨mem, w, [], rfl, hw, fun q => rfl, rfl⟩
  | cons f vs ih =>
    obtain ⟨v, bits⟩ := f
    obtain ⟨mem1, w1, he1, hw1, hs1⟩ := write_at hw mem v (hv _ (List.mem_cons_self _ _))
    obtain ⟨mem2, w2, logs, he2, hw2, hs2, hl2⟩ :=
      ih mem1 hw1 (fun f hf => hv f (List.mem_cons_of_mem _ hf))
    refine ⟨mem2, w2, _ :: logs, ?_, by rwa [totalBits_cons, ← Nat.add_assoc], fun q => ?_,
      by rw [hl2]; rfl⟩
    · simp only [run, he1, he2, Option.bind_eq_bind, Option.some_bind]
      rfl
    · rw [hs2, packedBit]
      split_ifs with hq
      · rw [packedBit_lt _ hq.2, hs1, if_pos hq]
      · exact packedBit_congr (by rw [hs1, if_neg hq]) _ _

end BitWriter

/-- Every word a run of writes reads or writes holds a bit of the field
being written, and lies below `⌈S/W⌉` for `S` bits written: a zero-width
write touches nothing, and an array of `⌈S/W⌉` words is never overrun. -/
theorem writer_accesses_within (D : Word) (mem : Mem D) (vs : List (Data D × ℕ))
    (hv : ∀ f ∈ vs, f.2 < D.bits) :
    ∃ mem' w logs, BitWriter.create.run mem vs = some (mem', w, logs) ∧
      List.Forall₂ (fun log (f : ℕ × ℕ) => ∀ a ∈ log,
          (∃ q, f.1 ≤ q ∧ q < f.1 + f.2 ∧ q / D.bits = a.index) ∧
          a.index < (totalBits vs + D.bits - 1) / D.bits)
        logs (spans 0 vs) := by
  obtain ⟨mem', w, logs, he, -, -, rfl⟩ := BitWriter.run_at mem BitWriter.create_at vs hv
  refine ⟨mem', w, _, he, List.forall₂_map_left_iff.2 (List.forall₂_same.2 fun f hf a ha => ?_)⟩
  have hend := spans_end_le hf
  obtain ⟨q, hq1, hq2, hqa⟩ := mem_setBitRangeLog ha
  have h1 := Nat.div_mul_le_self q D.bits
  have h2 : q / D.bits + 1 ≤ (totalBits vs + D.bits - 1) / D.bits :=
    (Nat.le_div_iff_mul_le D.bits_pos).2 (by rw [Nat.succ_mul]; omega)
  exact ⟨⟨q, hq1, hq2, hqa⟩, by omega⟩

theorem writer_accesses_within_u8 :
    (∀ f ∈ ([(0x2D, 5), (0, 0), (0xFF, 7)] : List (Data .u8 × ℕ)), f.2 < (Word.u8).bits) ∧
      ∃ mem' w logs, BitWriter.create.run (fun _ => 0 : Mem .u8)
          [(0x2D, 5), (0, 0), (0xFF, 7)] = some (mem', w, logs) ∧
        List.Forall₂ (fun log (f : ℕ × ℕ) => ∀ a ∈ log,
            (∃ q, f.1 ≤ q ∧ q < f.1 + f.2 ∧ q / (Word.u8).bits = a.index) ∧
            a.index < (totalBits ([(0x2D, 5), (0, 0), (0xFF, 7)] : List (Data .u8 × ℕ)) +
              (Word.u8).bits - 1) / (Word.u8).bits)
          logs (spans 0 ([(0x2D, 5), (0, 0), (0xFF, 7)] : List (Data .u8 × ℕ))) :=
  ⟨by decide, writer_accesses_within .u8 _ _ (by decide)⟩

end BitCodec.Writer
