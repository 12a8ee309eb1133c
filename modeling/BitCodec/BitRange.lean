import BitCodec.MachineWord

/-!
# Extracting and setting one bit range

`extract_bit_range` in its two forms and `set_bits`/`set_bit_range`, on a
field of `bits` bits that starts `bit` positions into the double word at a
pointer `p`. `set_bit_range` also returns the loads and stores it makes.
Every statement is about the double word `pair mem p`, the number
`p[1]·2^W + p[0]` of the source's comments.
-/

set_option autoImplicit false

namespace BitCodec.BitRange
open BitCodec.MachineWord

variable {D : Word}

/-- One access to the word array. -/
inductive Access where
  | load (i : ℕ)
  | store (i : ℕ)
  deriving DecidableEq, Repr

def Access.index : Access → ℕ
  | load i => i
  | store i => i

/-- `extract_bit_range(const Data * p, size_t bit, shift_t bits)`. -/
def extractBitRange (b : Build) (D : Word) (mem : Mem D) (p bit bits : ℕ) : Option (Data D) := do
  let result ← (if D.bits < bit + bits then shrd b D (mem p) (mem (p + 1)) bit
    else shr D (mem p) bit)
  let result := result * BitVec.ofNat D.bits (bits != 0).toNat
  let mask ← lowMask D bits
  pure (result &&& mask)

/-- `extract_bit_range(Data p0, Data p1, size_t bit, shift_t bits)`, the form
`Bit_Buffer` uses. -/
def extractBitRangePure (b : Build) (D : Word) (p0 p1 : Data D) (bit bits : ℕ) :
    Option (Data D) :=
  if bits = 0 then some 0 else do
  let r ← shrd b D p0 p1 bit
  let mask ← lowMask D bits
  pure (r * BitVec.ofNat D.bits (bits != 0).toNat &&& mask)

/-- `set_bits`. -/
def setBits (D : Word) (input val : Data D) (bit bits : ℕ) : Option (Data D) := do
  let mask ← lowMask D bits
  let mask ← shl D mask bit
  let val ← shl D val bit
  pure ((input &&& ~~~mask) ||| (val &&& mask))

/-- `set_bit_range(p, val, bit, bits)`: the new array and its accesses.
`DBITS - bit` is unsigned: past `DBITS` it wraps, and `set_bits` is then
handed a shift count beyond every width. -/
def setBitRange (D : Word) (mem : Mem D) (p : ℕ) (val : Data D) (bit bits : ℕ) :
    Option (Mem D × List Access) :=
  if bits = 0 then some (mem, []) else
  if D.bits < bit then none else
  let bits0 := min bits (D.bits - bit)
  let bits1 := bits - bits0
  do
  let w0 ← setBits D (mem p) val bit bits0
  let mem := Function.update mem p w0
  if bits1 = 0 then pure (mem, [.load p, .store p]) else
  let high ← shr D val bits0
  let w1 ← setBits D (mem (p + 1)) high 0 bits1
  pure (Function.update mem (p + 1) w1, [.load p, .store p, .load (p + 1), .store (p + 1)])

/-- The double word at `p`, `p[1]·2^W + p[0]`. -/
def pair (mem : Mem D) (p : ℕ) : ℕ := (mem (p + 1)).toNat * 2 ^ D.bits + (mem p).toNat

theorem testBit_pair_mem (mem : Mem D) (p j : ℕ) :
    (pair mem p).testBit j =
      if j < D.bits then (mem p).getLsbD j else (mem (p + 1)).getLsbD (j - D.bits) :=
  testBit_pair _ _ j

theorem lowMask_toNat {n : ℕ} (h : n ≤ D.bits) : ((1 : Data D) <<< n - 1).toNat = 2 ^ n - 1 := by
  have hpos : 0 < 2 ^ n := Nat.two_pow_pos n
  have hone : (1 : Data D).toNat = 1 := Nat.mod_eq_of_lt (Nat.one_lt_two_pow_iff.2 D.bits_pos.ne')
  rw [BitVec.toNat_sub, BitVec.toNat_shiftLeft, hone, Nat.one_shiftLeft]
  rcases Nat.lt_or_eq_of_le h with h | rfl
  · have hlt : 2 ^ n < 2 ^ D.bits := Nat.pow_lt_pow_right (by decide) h
    rw [Nat.mod_eq_of_lt hlt, show 2 ^ D.bits - 1 + 2 ^ n = 2 ^ D.bits + (2 ^ n - 1) by omega,
      Nat.add_mod_left, Nat.mod_eq_of_lt (by omega)]
  · rw [Nat.mod_self, Nat.add_zero, Nat.mod_eq_of_lt (by omega)]

theorem lowMask_getLsbD {n : ℕ} (h : n ≤ D.bits) (i : ℕ) :
    ((1 : Data D) <<< n - 1).getLsbD i = decide (i < n) := by
  rw [← BitVec.testBit_toNat, lowMask_toNat h, Nat.testBit_two_pow_sub_one]

theorem mask_field (r : Data D) (x bit bits : ℕ) (hbits : bits < D.bits)
    (hr : r.toNat % 2 ^ bits = x / 2 ^ bit % 2 ^ bits) :
    r * BitVec.ofNat D.bits (bits != 0).toNat &&& ((1 : Data D) <<< bits - 1) =
      BitVec.ofNat D.bits (x / 2 ^ bit % 2 ^ bits) := by
  rcases Nat.eq_zero_or_pos bits with rfl | h0
  · simp [Nat.mod_one]
  have hlt : x / 2 ^ bit % 2 ^ bits < 2 ^ D.bits :=
    (Nat.mod_lt _ (Nat.two_pow_pos _)).trans (Nat.pow_lt_pow_right (by decide) hbits)
  have h1 : BitVec.ofNat D.bits (bits != 0).toNat = 1#D.bits := by
    rw [bne_iff_ne.2 (show bits ≠ 0 by omega)]
    rfl
  apply BitVec.eq_of_toNat_eq
  rw [h1, BitVec.mul_one, BitVec.toNat_and, lowMask_toNat hbits.le,
    Nat.and_pow_two_sub_one_eq_mod, BitVec.toNat_ofNat, Nat.mod_eq_of_lt hlt, hr]

theorem window_mod (p0 p1 : Data D) (bit bits : ℕ) (hbits : bits < D.bits) :
    (window p0 p1 bit).toNat % 2 ^ bits =
      (p1.toNat * 2 ^ D.bits + p0.toNat) / 2 ^ bit % 2 ^ bits := by
  rw [window_toNat, Nat.mod_mod_of_dvd _ (Nat.pow_dvd_pow 2 hbits.le)]

theorem extractBitRangePure_of_shrd {b : Build} {p0 p1 : Data D} {bit : ℕ} (bits : ℕ)
    (hs : shrd b D p0 p1 bit = some (window p0 p1 bit)) (hbits : bits < D.bits) :
    extractBitRangePure b D p0 p1 bit bits =
      some (BitVec.ofNat D.bits ((p1.toNat * 2 ^ D.bits + p0.toNat) / 2 ^ bit % 2 ^ bits)) := by
  rcases Nat.eq_zero_or_pos bits with rfl | h0
  · simp [extractBitRangePure, Nat.mod_one]
  · simp only [extractBitRangePure, if_neg (show bits ≠ 0 by omega), hs, Option.bind_eq_bind,
      Option.some_bind, lowMask_of_lt hbits]
    exact congrArg some (mask_field _ _ _ _ hbits (window_mod p0 p1 bit bits hbits))

theorem extractBitRange_spec (b : Build) (mem : Mem D) (p bit bits : ℕ) (hbit : bit < D.bits)
    (hbits : bits < D.bits) :
    extractBitRange b D mem p bit bits =
      some (BitVec.ofNat D.bits (pair mem p / 2 ^ bit % 2 ^ bits)) := by
  have hp := D.bits_le_promoted
  unfold extractBitRange
  split_ifs with hst
  · simp only [shrd_of_pos b _ _ bit (by omega) hbit, Option.bind_eq_bind, Option.some_bind,
      lowMask_of_lt hbits]
    exact congrArg some (mask_field _ _ _ _ hbits (window_mod _ _ bit bits hbits))
  · simp only [shr_of_lt (show bit < D.promoted by omega), Option.bind_eq_bind, Option.some_bind,
      lowMask_of_lt hbits]
    refine congrArg some (mask_field _ _ _ _ hbits ?_)
    apply Nat.eq_of_testBit_eq
    intro i
    simp only [Nat.testBit_mod_two_pow, testBit_div_two_pow, BitVec.toNat_ushiftRight,
      Nat.testBit_shiftRight, pair, testBit_pair, BitVec.testBit_toNat]
    by_cases hi : i < bits
    · simp [hi, show bit + i < D.bits by omega]
    · simp [hi]

theorem setBits_spec (input val : Data D) (bit bits : ℕ) (hbits : bits < D.bits)
    (hfit : bit + bits ≤ D.bits) (hbit : bit < D.bits) :
    ∃ r, setBits D input val bit bits = some r ∧ ∀ i, r.getLsbD i =
      if bit ≤ i ∧ i < bit + bits then val.getLsbD (i - bit) else input.getLsbD i := by
  have hp := D.bits_le_promoted
  refine ⟨_, by simp only [setBits, lowMask_of_lt hbits,
    shl_of_lt (show bit < D.promoted by omega), Option.bind_eq_bind, Option.some_bind]; rfl,
    fun i => ?_⟩
  simp only [BitVec.getLsbD_or, BitVec.getLsbD_and, BitVec.getLsbD_not,
    BitVec.getLsbD_shiftLeft, lowMask_getLsbD hbits.le]
  by_cases hi : i < D.bits
  · by_cases hin : bit ≤ i ∧ i < bit + bits
    · simp [hin, hi, show ¬i < bit by omega, show i - bit < bits by omega]
    · by_cases hb : i < bit
      · simp [hin, hi, hb]
      · simp [hin, hi, hb, show ¬i - bit < bits by omega]
  · simp [hi, BitVec.getLsbD_ge input i (by omega), show ¬(bit ≤ i ∧ i < bit + bits) by omega]

/-- The accesses of `set_bit_range`: none for an empty field, the word at `p`,
and the next one too when the field straddles. -/
def setBitRangeLog (D : Word) (p bit bits : ℕ) : List Access :=
  if bits = 0 then [] else if bit + bits ≤ D.bits then [.load p, .store p]
  else [.load p, .store p, .load (p + 1), .store (p + 1)]

/-- What `set_bit_range` leaves in the double word at `p`: the field
replaced by the low `bits` bits of `val`, every other bit as it was. -/
def Replaced (mem mem' : Mem D) (p : ℕ) (val : Data D) (bit bits : ℕ) : Prop :=
  (∀ i, i ≠ p → i ≠ p + 1 → mem' i = mem i) ∧
    ∀ j, (pair mem' p).testBit j =
      if bit ≤ j ∧ j < bit + bits then val.getLsbD (j - bit) else (pair mem p).testBit j

theorem setBitRange_fits (mem : Mem D) (p : ℕ) (val : Data D) (bit bits : ℕ)
    (hbit : bit < D.bits) (hbits : bits < D.bits) (h0 : 0 < bits) (hfit : bit + bits ≤ D.bits) :
    ∃ mem', setBitRange D mem p val bit bits = some (mem', setBitRangeLog D p bit bits) ∧
      Replaced mem mem' p val bit bits := by
  obtain ⟨w0, hs, hw0⟩ := setBits_spec (mem p) val bit bits hbits hfit hbit
  refine ⟨Function.update mem p w0, ?_, fun i hi _ => Function.update_noteq hi _ _, fun j => ?_⟩
  · simp [setBitRange, setBitRangeLog, show bits ≠ 0 by omega, show ¬D.bits < bit by omega,
      min_eq_left (show bits ≤ D.bits - bit by omega), hs, hfit]
  · rw [testBit_pair_mem, testBit_pair_mem, Function.update_same,
      Function.update_noteq (show p + 1 ≠ p by omega)]
    by_cases hj : j < D.bits
    · simp only [hj, if_true, hw0]
    · simp [hj, show ¬(bit ≤ j ∧ j < bit + bits) by omega]

theorem setBitRange_straddles (mem : Mem D) (p : ℕ) (val : Data D) (bit bits : ℕ)
    (hbit : bit < D.bits) (hbits : bits < D.bits) (hst : D.bits < bit + bits) :
    ∃ mem', setBitRange D mem p val bit bits = some (mem', setBitRangeLog D p bit bits) ∧
      Replaced mem mem' p val bit bits := by
  have hp := D.bits_le_promoted
  obtain ⟨w0, hs0, hw0⟩ := setBits_spec (mem p) val bit (D.bits - bit) (by omega) (by omega)
    (by omega)
  obtain ⟨w1, hs1, hw1⟩ := setBits_spec (mem (p + 1)) (val >>> (D.bits - bit)) 0
    (bits - (D.bits - bit)) (by omega) (by omega) D.bits_pos
  refine ⟨Function.update (Function.update mem p w0) (p + 1) w1, ?_, fun i hi hi1 => ?_,
    fun j => ?_⟩
  · simp [setBitRange, setBitRangeLog, show bits ≠ 0 by omega, show ¬D.bits < bit by omega,
      min_eq_right (show D.bits - bit ≤ bits by omega), hs0,
      show ¬bits - (D.bits - bit) = 0 by omega,
      shr_of_lt (show D.bits - bit < D.promoted by omega), hs1, show ¬bit + bits ≤ D.bits by omega]
  · rw [Function.update_noteq hi1, Function.update_noteq hi]
  · rw [testBit_pair_mem, testBit_pair_mem, Function.update_same,
      Function.update_noteq (show p ≠ p + 1 by omega), Function.update_same]
    by_cases hj : j < D.bits
    · simp only [hj, if_true, hw0]
      simp [show j < bit + (D.bits - bit) by omega, show j < bit + bits by omega]
    · simp only [hj, if_false, hw1, BitVec.getLsbD_ushiftRight]
      by_cases hin : j < bit + bits
      · simp [hin, show j - D.bits < bits - (D.bits - bit) by omega, show bit ≤ j by omega,
          show D.bits - bit + (j - D.bits) = j - bit by omega]
      · simp [hin, show ¬j - D.bits < bits - (D.bits - bit) by omega]

theorem setBitRange_spec (mem : Mem D) (p : ℕ) (val : Data D) (bit bits : ℕ)
    (hbit : bit < D.bits) (hbits : bits < D.bits) :
    ∃ mem', setBitRange D mem p val bit bits = some (mem', setBitRangeLog D p bit bits) ∧
      Replaced mem mem' p val bit bits := by
  rcases Nat.eq_zero_or_pos bits with rfl | h0
  · exact ⟨mem, by simp [setBitRange, setBitRangeLog], fun _ _ _ => rfl,
      fun j => by simp [show ¬(bit ≤ j ∧ j < bit) by omega]⟩
  by_cases hfit : bit + bits ≤ D.bits
  · exact setBitRange_fits mem p val bit bits hbit hbits h0 hfit
  · exact setBitRange_straddles mem p val bit bits hbit hbits (by omega)

theorem replaced_field {mem mem' : Mem D} {p : ℕ} {val : Data D} {bit bits : ℕ}
    (h : Replaced mem mem' p val bit bits) :
    pair mem' p / 2 ^ bit % 2 ^ bits = val.toNat % 2 ^ bits := by
  apply Nat.eq_of_testBit_eq
  intro i
  simp only [Nat.testBit_mod_two_pow, testBit_div_two_pow, h.2, BitVec.testBit_toNat]
  by_cases hi : i < bits
  · simp [hi]
  · simp [hi]

/-- Writing a field narrower than a word and reading it back, in either
build: the double word keeps every bit outside the field, and the pointer
form of `extract_bit_range` reads `⌊X / 2^bit⌋ mod 2^bits`. -/
theorem setBitRange_extractBitRange (b : Build) (mem : Mem D) (p : ℕ) (val : Data D)
    (bit bits : ℕ) (hbit : bit < D.bits) (hbits : bits < D.bits) :
    (∃ mem' log, setBitRange D mem p val bit bits = some (mem', log) ∧
      Replaced mem mem' p val bit bits ∧
      extractBitRange b D mem' p bit bits = some (BitVec.ofNat D.bits (val.toNat % 2 ^ bits))) ∧
    extractBitRange b D mem p bit bits =
      some (BitVec.ofNat D.bits (pair mem p / 2 ^ bit % 2 ^ bits)) := by
  obtain ⟨mem', hs, hr⟩ := setBitRange_spec mem p val bit bits hbit hbits
  refine ⟨⟨mem', _, hs, hr, ?_⟩, extractBitRange_spec b mem p bit bits hbit hbits⟩
  rw [extractBitRange_spec b mem' p bit bits hbit hbits, replaced_field hr]

theorem setBitRange_extractBitRange_u16 :
    13 < (Word.u16).bits ∧ 6 < (Word.u16).bits ∧
      extractBitRange .x86 .u16 (fun i => if i = 0 then 0xABCD else 0x1234) 0 13 6 =
        some 0x25 := by
  refine ⟨by decide, by decide, ?_⟩
  have h := (setBitRange_extractBitRange .x86 (fun i => if i = 0 then 0xABCD else 0x1234) 0
    (0 : Data .u16) 13 6 (by decide) (by decide)).2
  rw [h]
  decide

theorem extractBitRangePure_x86 (p0 p1 : Data D) (bit bits : ℕ) (hbit : bit < D.bits)
    (hbits : bits < D.bits) :
    extractBitRangePure .x86 D p0 p1 bit bits =
      some (BitVec.ofNat D.bits ((p1.toNat * 2 ^ D.bits + p0.toNat) / 2 ^ bit % 2 ^ bits)) :=
  extractBitRangePure_of_shrd bits (shrd_x86 p0 p1 bit hbit) hbits

/-- In the portable build the pure form calls `shrd` with `bit = 0`, which on
32-bit words shifts by 32; the pointer form takes its plain right shift. -/
theorem extractBitRangePure_portable_u32_undefined :
    extractBitRangePure .portable .u32 0 1 0 1 = none ∧
      extractBitRange .portable .u32 (fun i => BitVec.ofNat 32 i) 0 0 1 = some 0 := by
  decide

end BitCodec.BitRange
