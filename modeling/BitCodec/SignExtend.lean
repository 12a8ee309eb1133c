import Mathlib.Data.Nat.Bitwise

/-!
# Sign extension of extracted fields

The integer types a field is extracted into, the conversion that assigning
an extracted word to one of them performs, and `sign_extend` with the
`fixup_extract` overloads. A value of type `T` is its bit pattern, a
`BitVec T.width`, and `T.value` reads the number it stands for. As for the
words, a shift by an amount at or above the width of the promoted type is
undefined and gives `none`; a left shift of a negative value keeps its bit
pattern, as GCC and C++20 do. On a field of `s + 1` bits `sign_extend` from
bit `s` sets every bit from `s` up when bit `s` is set; `fixup_extract`,
which passes the field's width itself, leaves every field as it is.
-/

set_option autoImplicit false

namespace BitCodec.SignExtend

/-- `signed char`, `short`, `int`, `long`, `long long` and their unsigned
counterparts, with the LP64 widths. -/
inductive CType where
  | schar
  | short
  | int
  | long
  | llong
  | uchar
  | ushort
  | uint
  | ulong
  | ullong
  deriving DecidableEq, Repr

namespace CType

def width : CType → ℕ
  | schar | uchar => 8
  | short | ushort => 16
  | int | uint => 32
  | long | ulong | llong | ullong => 64

def signed : CType → Bool
  | schar | short | int | long | llong => true
  | uchar | ushort | uint | ulong | ullong => false

/-- Width after the integral promotions: `int` for the narrower types. -/
def promoted (T : CType) : ℕ := max 32 T.width

/-- The number a bit pattern of type `T` stands for. -/
def value (T : CType) (x : BitVec T.width) : ℤ := if T.signed then x.toInt else x.toNat

/-- `where = r` for an unsigned `r`: the value modulo `2^width`, as GCC
defines the narrowing to a signed type and C++20 requires. -/
def assign (T : CType) (r : ℕ) : BitVec T.width := BitVec.ofNat T.width r

/-- A `T` operand after the integral promotions. -/
def promote (T : CType) (x : BitVec T.width) : BitVec T.promoted :=
  if T.signed then x.signExtend T.promoted else x.setWidth T.promoted

end CType

open CType

/-- `sign_extend(T raw, int sign_bit)`. The test mask `1 << sign_bit` is an
`int`; it meets `raw` in the wider of the two promoted types. -/
def signExtend (T : CType) (raw : BitVec T.width) (signBit : ℕ) : Option (BitVec T.width) := do
  let mask ← if signBit < 32 then some ((1 : BitVec 32) <<< signBit) else none
  let sign := (promote T raw &&& mask.signExtend T.promoted) != 0
  let newBits ← if signBit < T.promoted then
    some (promote T (if sign then -1 else 0) <<< signBit) else none
  pure (raw ||| newBits.setWidth T.width)

/-- `fixup_extract`: the template returns its argument; the overloads for the
five signed types call `sign_extend(e, bits)`. -/
def fixupExtract (T : CType) (e : BitVec T.width) (bits : ℕ) : Option (BitVec T.width) :=
  if T.signed then signExtend T e bits else some e

/-- `fixup_extract` hands `sign_extend` the width `bits` where the sign bit is
`bits - 1`: on the 5-bit field `0b10101` in a `signed char` it returns 21,
and `sign_extend` at bit 4 gives the two's-complement −11. The `int` mask
makes `sign_extend` undefined on a `long` from sign bit 32 on. -/
theorem fixupExtract_schar_five :
    (fixupExtract .schar (assign .schar 21) 5).map (value .schar) = some 21 ∧
      (signExtend .schar (assign .schar 21) 4).map (value .schar) = some (-11) ∧
      signExtend .long (assign .long (2 ^ 39)) 39 = none := by
  decide

theorem getLsbD_eq_false_of_lt {n k i : ℕ} {x : BitVec n} (hx : x.toNat < 2 ^ k)
    (hi : k ≤ i) : x.getLsbD i = false := by
  rw [← BitVec.testBit_toNat]
  exact Nat.testBit_eq_false_of_lt (lt_of_lt_of_le hx (Nat.pow_le_pow_right (by decide) hi))

theorem promote_and_mask {T : CType} (hT : T.signed = true) {raw : BitVec T.width} {s : ℕ}
    (hs : s < 32) (hsw : s < T.width) (hraw : raw.toNat < 2 ^ (s + 1)) :
    promote T raw &&& ((1 : BitVec 32) <<< s).signExtend T.promoted =
      if raw.getLsbD s then (1 : BitVec T.promoted) <<< s else 0 := by
  have hP : T.width ≤ T.promoted := le_max_right _ _
  refine BitVec.eq_of_getLsbD_eq fun i => ?_
  have hi := i.isLt
  simp only [promote, hT, if_true, BitVec.getLsbD_and, BitVec.getLsbD_signExtend,
    BitVec.getLsbD_shiftLeft, BitVec.ofNat_eq_ofNat, BitVec.getLsbD_one,
    BitVec.msb_eq_getLsbD_last, decide_eq_true hi, Bool.true_and,
    apply_ite (fun x : BitVec T.promoted => x.getLsbD i),
    BitVec.getLsbD_zero]
  rcases Nat.lt_trichotomy (i : ℕ) s with h | h | h
  · simp [h, show (i : ℕ) < 32 by omega]
  · simp [h, hs, hsw, show 0 < T.promoted by omega]
  · have hw : (i : ℕ) < T.width ∨ (i : ℕ) < 32 := by
      have : T.promoted = max 32 T.width := rfl
      omega
    rcases hw with hw | hw <;>
      simp [hw, getLsbD_eq_false_of_lt hraw h, show (i : ℕ) - s ≠ 0 by omega]

theorem setWidth_promote_shiftLeft (T : CType) (x : BitVec T.width) (s : ℕ) :
    (promote T x <<< s).setWidth T.width = x <<< s := by
  refine BitVec.eq_of_getLsbD_eq fun i => ?_
  have hP : T.width ≤ T.promoted := le_max_right _ _
  have hi := i.isLt
  by_cases hs : (i : ℕ) < s
  · simp [hs]
  · have hj : (i : ℕ) - s < T.width := by omega
    simp only [BitVec.getLsbD_setWidth, BitVec.getLsbD_shiftLeft, promote, hi, hs,
      show (i : ℕ) < T.promoted by omega, decide_True, decide_False, Bool.not_false,
      Bool.true_and]
    split_ifs
    · rw [BitVec.getLsbD_signExtend, if_pos hj, decide_eq_true (by omega), Bool.true_and]
    · rw [BitVec.getLsbD_setWidth, decide_eq_true (by omega), Bool.true_and]

theorem signExtend_field {T : CType} (hT : T.signed = true) {raw : BitVec T.width} {s : ℕ}
    (hs : s < 32) (hsw : s < T.width) (hraw : raw.toNat < 2 ^ (s + 1)) :
    signExtend T raw s =
      some (if raw.getLsbD s then raw ||| BitVec.allOnes T.width <<< s else raw) := by
  have hP : s < T.promoted := lt_of_lt_of_le hsw (le_max_right _ _)
  simp only [signExtend, if_pos hs, if_pos hP, Option.bind_eq_bind, Option.some_bind,
    promote_and_mask hT hs hsw hraw, Option.pure_def]
  have hne : (1 : BitVec T.promoted) <<< s ≠ 0 := fun h => by
    simpa [hP, show 0 < T.promoted by omega] using congrArg (BitVec.getLsbD · s) h
  rw [setWidth_promote_shiftLeft]
  cases hb : raw.getLsbD s
  · simp
  · rw [if_pos rfl, bne_iff_ne.2 hne, if_pos rfl, if_pos rfl,
      show (-1 : BitVec T.width) = BitVec.allOnes T.width from BitVec.negOne_eq_allOnes]

/-- The signed overloads of `fixup_extract` pass the field width `w` as the
sign bit, which is clear in a field of `w` bits: for every signed type they
store every field narrower than the type as its unsigned value, never
negative, and are undefined from `w = 32` on, where the mask `1 << w` shifts
an `int` past its width. -/
theorem fixupExtract_field {T : CType} (hT : T.signed = true) {raw : BitVec T.width} {w : ℕ}
    (hww : w < T.width) (hraw : raw.toNat < 2 ^ w) :
    (fixupExtract T raw w).map (value T) = if w < 32 then some (raw.toNat : ℤ) else none := by
  by_cases hw : w < 32
  · have hmsb : raw.msb = false := by
      rw [BitVec.msb_eq_decide, decide_eq_false_iff_not, not_le]
      exact lt_of_lt_of_le hraw (Nat.pow_le_pow_right (by decide) (by omega))
    rw [fixupExtract, if_pos hT, signExtend_field hT hw hww
      (lt_of_lt_of_le hraw (Nat.pow_le_pow_right (by decide) (by omega))),
      getLsbD_eq_false_of_lt hraw le_rfl, if_neg (by simp), Option.map_some', if_pos hw, value,
      if_pos hT, BitVec.toInt_eq_msb_cond, hmsb, if_neg (by simp)]
  · simp [fixupExtract, hT, signExtend, hw]

theorem fixupExtract_field_int :
    (fixupExtract .int 0x1ABCD 17).map (value .int) = if 17 < 32 then some 0x1ABCD else none :=
  fixupExtract_field (T := .int) rfl (by decide) (by decide)

end BitCodec.SignExtend
