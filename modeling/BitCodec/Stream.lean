import BitCodec.BitRange

/-!
# The word array as a bit stream

Bit `j·W + b` of the stream is bit `b` of word `j`. `wordsValue mem n` is
the number `A = Σ_{j<n} a[j]·2^{jW}` the first `n` words hold, and
`cursorField mem P w` is what extracting `w` bits at stream position `P`
yields: the field of the double word at `⌊P/W⌋`, from bit `P mod W`. Both
read the same stream bits, which is how the cursors are related to the
direct calls below.
-/

set_option autoImplicit false

namespace BitCodec.Stream
open BitCodec.MachineWord BitCodec.BitRange

variable {D : Word}

/-- Bit `q` of the stream. -/
def streamBit (mem : Mem D) (q : ℕ) : Bool := (mem (q / D.bits)).getLsbD (q % D.bits)

/-- `Σ_{j<n} a[j]·2^{jW}`. -/
def wordsValue (mem : Mem D) : ℕ → ℕ
  | 0 => 0
  | n + 1 => wordsValue mem n + (mem n).toNat * 2 ^ (n * D.bits)

/-- The field of `w` bits at stream position `P`, read from the double word
the cursor stands on. -/
def cursorField (mem : Mem D) (P w : ℕ) : Data D :=
  BitVec.ofNat D.bits (pair mem (P / D.bits) / 2 ^ (P % D.bits) % 2 ^ w)

theorem div_add_mod_add (W P k : ℕ) (hW : 0 < W) : P / W + (P % W + k) / W = (P + k) / W := by
  conv_rhs => rw [← Nat.div_add_mod P W]
  rw [Nat.add_assoc, Nat.add_comm (W * (P / W)), Nat.add_mul_div_left _ _ hW, Nat.add_comm]

theorem wordsValue_lt (mem : Mem D) (n : ℕ) : wordsValue mem n < 2 ^ (n * D.bits) := by
  induction n with
  | zero => simp [wordsValue]
  | succ n ih =>
    have h := Nat.mul_le_mul_right (2 ^ (n * D.bits)) (mem n).isLt
    rw [Nat.succ_mul] at h
    rw [wordsValue, Nat.succ_mul, Nat.pow_add, Nat.mul_comm (2 ^ (n * D.bits))]
    omega

theorem testBit_wordsValue (mem : Mem D) (n q : ℕ) :
    (wordsValue mem n).testBit q = (decide (q < n * D.bits) && streamBit mem q) := by
  induction n with
  | zero => simp [wordsValue]
  | succ n ih =>
    rw [wordsValue, Nat.mul_comm (mem n).toNat, Nat.add_comm,
      Nat.testBit_mul_pow_two_add _ (wordsValue_lt mem n), ih]
    by_cases hq : q < n * D.bits
    · simp [hq, show q < (n + 1) * D.bits by rw [Nat.succ_mul]; omega]
    · rw [if_neg hq]
      by_cases hq' : q < (n + 1) * D.bits
      · have hd : q / D.bits = n := Nat.div_eq_of_lt_le (by omega) hq'
        have hm : q % D.bits = q - n * D.bits := by
          have := Nat.div_add_mod q D.bits
          rw [hd, Nat.mul_comm] at this
          omega
        simp [streamBit, hd, hm, hq', BitVec.testBit_toNat]
      · rw [Nat.testBit_lt_two_pow ((mem n).isLt.trans_le
          (Nat.pow_le_pow_right (by decide) (by rw [Nat.succ_mul] at hq'; omega)))]
        simp [hq']

theorem testBit_pair_stream (mem : Mem D) (d j : ℕ) (hj : j < 2 * D.bits) :
    (pair mem d).testBit j = streamBit mem (d * D.bits + j) := by
  have hW := D.bits_pos
  rw [testBit_pair_mem, streamBit, Nat.add_comm (d * D.bits), Nat.add_mul_div_right _ _ hW,
    Nat.add_mul_mod_self_right]
  by_cases h : j < D.bits
  · rw [if_pos h, Nat.div_eq_of_lt h, Nat.zero_add, Nat.mod_eq_of_lt h]
  · rw [if_neg h, Nat.div_eq_of_lt_le (k := 1) (by omega) (by omega), Nat.add_comm,
      Nat.mod_eq_sub_mod (by omega), Nat.mod_eq_of_lt (by omega)]

theorem testBit_cursorField (mem : Mem D) (P w i : ℕ) (hw : w < D.bits) :
    (cursorField mem P w).toNat.testBit i = (decide (i < w) && streamBit mem (P + i)) := by
  have hW := D.bits_pos
  have hlt : pair mem (P / D.bits) / 2 ^ (P % D.bits) % 2 ^ w < 2 ^ D.bits :=
    (Nat.mod_lt _ (Nat.two_pow_pos _)).trans (Nat.pow_lt_pow_right (by decide) hw)
  rw [cursorField, BitVec.toNat_ofNat, Nat.mod_eq_of_lt hlt, Nat.testBit_mod_two_pow,
    testBit_div_two_pow]
  by_cases hi : i < w
  · rw [testBit_pair_stream _ _ _ (by have := Nat.mod_lt P hW; omega), ← Nat.add_assoc,
      Nat.div_add_mod']
  · simp [hi]

theorem cursorField_toNat (mem : Mem D) (P w n : ℕ) (hw : w < D.bits)
    (hn : P + w ≤ n * D.bits) :
    (cursorField mem P w).toNat = wordsValue mem n / 2 ^ P % 2 ^ w := by
  apply Nat.eq_of_testBit_eq
  intro i
  rw [testBit_cursorField mem P w i hw, Nat.testBit_mod_two_pow, testBit_div_two_pow,
    testBit_wordsValue]
  by_cases hi : i < w
  · simp [hi, show P + i < n * D.bits by omega]
  · simp [hi]

end BitCodec.Stream
