import Mathlib.Data.Nat.Bitwise

/-!
# Compact sizes

`encode_compact` and `decode_compact`: an `unsigned long` as one to nine
bytes, the number of leading one bits of the first byte giving how many
follow. `Store_Writer::save_binary` appends bytes to the stream and the
reader's `*store`, `store[i]` and `skip(n)` read it from the current
position, so the encoder is modelled by the bytes it appends and the decoder
by the value it returns and the bytes left after it.

Out-of-range buffer indices and shifts by a negative amount or past the
width of `int` are undefined and give `none`, as does a `must_have` that
throws. Below `2^63` the encoder emits the layout of the table above it;
from `2^63` on it writes past its 9-byte buffer. Whether `char` is signed is a parameter of the decoder, since
`result |= store[i]` widens the byte to `unsigned long`.
-/

set_option autoImplicit false

namespace BitCodec.CompactSize

abbrev Byte := BitVec 8

/-- The highest set bit of `x` below position `i`, `-1` if there is none. -/
def highestBitBelow {n : ℕ} (x : BitVec n) : ℕ → ℤ
  | 0 => -1
  | i + 1 => if x.getLsbD i then i else highestBitBelow x i

/-- `highest_bit` of `arch/bitops.h`, whose body is not among the sources,
by what it is documented to return: the index of the highest set bit of the
pattern, and `-1` for zero. -/
def highestBit {n : ℕ} (x : BitVec n) : ℤ := highestBitBelow x n

/-- The packing loop of `encode_compact`: `buf[i] = val & 0xff; val >>= 8`
for `i = len-1` down to `0`, prepending each byte to `buf[i+1..len-1]`. -/
def packBytes : ℕ → BitVec 64 → List Byte → List Byte
  | 0, _, buf => buf
  | n + 1, val, buf => packBytes n (val >>> 8) (val.setWidth 8 :: buf)

/-- `encode_compact(store, val)`: the bytes `save_binary(buf, len)` appends.
The loop writes `buf[len-1]` of the 9-byte buffer, and the marker is
`~((1 << (8-idx)) - 1)`, an `int` shift. -/
def encodeCompact (val : BitVec 64) : Option (List Byte) :=
  let highest := highestBit val
  let idx := highest.tdiv 7
  let len := idx + 1
  if 9 < len then none
  else if 8 - idx < 0 then none
  else
    let indicator : BitVec 32 := ~~~((1 <<< (8 - idx).toNat) - 1)
    match packBytes len.toNat val [] with
    | [] => none
    | b :: buf => some ((b ||| indicator.setWidth 8) :: buf)

theorem neg_one_le_highestBitBelow {n : ℕ} (x : BitVec n) (i : ℕ) : -1 ≤ highestBitBelow x i := by
  induction i with
  | zero => simp [highestBitBelow]
  | succ i ih =>
    rw [highestBitBelow]
    split_ifs <;> omega

theorem highestBitBelow_lt_iff {n : ℕ} (x : BitVec n) (i k : ℕ) :
    highestBitBelow x i < k ↔ ∀ j, k ≤ j → j < i → x.getLsbD j = false := by
  induction i with
  | zero => exact ⟨fun _ j _ hj => absurd hj (Nat.not_lt_zero j), fun _ => by
      simp only [highestBitBelow]; omega⟩
  | succ i ih =>
    rw [highestBitBelow]
    split_ifs with hi
    · refine ⟨fun h j hkj hj => by omega, fun h => ?_⟩
      by_contra hk
      simpa [hi] using h i (by omega) (by omega)
    · rw [ih]
      refine ⟨fun h j hkj hj => ?_, fun h j hkj hj => h j hkj (by omega)⟩
      rcases Nat.lt_succ_iff_lt_or_eq.1 hj with hj | rfl
      · exact h j hkj hj
      · simpa using hi

theorem highestBit_lt_iff {n : ℕ} (x : BitVec n) (k : ℕ) : highestBit x < k ↔ x.toNat < 2 ^ k := by
  rw [highestBit, highestBitBelow_lt_iff]
  refine ⟨fun h => Nat.lt_pow_two_of_testBit _ fun j hj => ?_, fun h j hkj _ => ?_⟩
  · by_cases hjn : j < n
    · rw [BitVec.testBit_toNat]
      exact h j hj hjn
    · exact Nat.testBit_eq_false_of_lt
        (lt_of_lt_of_le x.isLt (Nat.pow_le_pow_right Nat.zero_lt_two (by omega)))
  · rw [← BitVec.testBit_toNat]
    exact Nat.testBit_eq_false_of_lt (lt_of_lt_of_le h (Nat.pow_le_pow_right Nat.zero_lt_two hkj))

theorem highestBit_tdiv_seven {v : BitVec 64} {L : ℕ} (hL : 1 ≤ L) (hv : v.toNat < 2 ^ (7 * L))
    (hmin : L = 1 ∨ 2 ^ (7 * (L - 1)) ≤ v.toNat) : (highestBit v).tdiv 7 = L - 1 := by
  have hlt : highestBit v < (7 * L : ℕ) := (highestBit_lt_iff v _).2 hv
  have hge : L = 1 ∨ ((7 * (L - 1) : ℕ) : ℤ) ≤ highestBit v :=
    hmin.imp_right fun h => Int.not_lt.1 (mt (highestBit_lt_iff v _).1 (Nat.not_lt.2 h))
  have hneg := neg_one_le_highestBitBelow v 64
  by_cases h0 : 0 ≤ highestBit v
  · rw [Int.tdiv_eq_ediv h0 (by decide)]
    omega
  · have hm : highestBit v = -1 := by simp only [highestBit] at h0 ⊢; omega
    rw [hm, show (-1 : ℤ).tdiv 7 = 0 by decide]
    omega

/-- `v` as `n` bytes, most significant first. -/
def bigEndian : ℕ → ℕ → List Byte
  | 0, _ => []
  | n + 1, v => BitVec.ofNat 8 (v / 2 ^ (8 * n)) :: bigEndian n v

@[simp] theorem length_bigEndian (n v : ℕ) : (bigEndian n v).length = n := by
  induction n with
  | zero => rfl
  | succ n ih => simp [bigEndian, ih]

theorem bigEndian_succ (n v : ℕ) :
    bigEndian (n + 1) v = bigEndian n (v / 2 ^ 8) ++ [BitVec.ofNat 8 v] := by
  induction n with
  | zero => simp [bigEndian]
  | succ n ih =>
    rw [bigEndian, ih, bigEndian, List.cons_append, Nat.div_div_eq_div_mul, ← Nat.pow_add,
      show 8 + 8 * n = 8 * (n + 1) by omega]

theorem packBytes_eq (n : ℕ) (val : BitVec 64) (buf : List Byte) :
    packBytes n val buf = bigEndian n val.toNat ++ buf := by
  induction n generalizing val buf with
  | zero => rfl
  | succ n ih =>
    rw [packBytes, ih, bigEndian_succ, BitVec.toNat_ushiftRight, Nat.shiftRight_eq_div_pow,
      BitVec.ofNat_toNat, List.append_assoc]
    rfl

/-- The table above `encode_compact`: `v` big-endian in `L` bytes, with the
top `L - 1` bits of the first byte set (all eight of them for `L = 9`). -/
def compactLayout (L v : ℕ) : List Byte :=
  match bigEndian L v with
  | [] => []
  | b :: bs => (b ||| BitVec.ofNat 8 (2 ^ 8 - 2 ^ (9 - L))) :: bs

theorem testBit_marker : ∀ L < 10, 1 ≤ L → ∀ j < 8, (2 ^ 8 - 2 ^ (9 - L)).testBit j = decide (9 - L ≤ j) := by
  decide

theorem getLsbD_marker_or {L h j : ℕ} (hL : 1 ≤ L) (hL8 : L ≤ 8) (hj : j < 8) :
    (BitVec.ofNat 8 h ||| BitVec.ofNat 8 (2 ^ 8 - 2 ^ (9 - L))).getLsbD j =
      (h.testBit j || decide (9 - L ≤ j)) := by
  rw [BitVec.getLsbD_or, BitVec.getLsbD_ofNat, BitVec.getLsbD_ofNat,
    testBit_marker L (by omega) hL j hj, decide_eq_true hj, Bool.true_and, Bool.true_and]

theorem compactLayout_head {L v : ℕ} (hL : 1 ≤ L) (hL8 : L ≤ 8) (hv : v < 2 ^ (7 * L)) :
    ∃ b, compactLayout L v = b :: bigEndian (L - 1) v ∧
      (∀ j, 9 - L ≤ j → j < 8 → b.getLsbD j = true) ∧ b.getLsbD (8 - L) = false ∧
      ∀ j < 8 - L, b.getLsbD j = (v / 2 ^ (8 * (L - 1))).testBit j := by
  obtain ⟨n, rfl⟩ : ∃ n, L = n + 1 := ⟨L - 1, by omega⟩
  have hclear : ∀ j, 7 - n ≤ j → (v / 2 ^ (8 * n)).testBit j = false := fun j hj => by
    refine Nat.testBit_eq_false_of_lt ((Nat.div_lt_iff_lt_mul (Nat.two_pow_pos _)).2 ?_)
    rw [← Nat.pow_add]
    exact lt_of_lt_of_le hv (Nat.pow_le_pow_right Nat.zero_lt_two (by omega))
  refine ⟨_, rfl, fun j hj hj8 => ?_, ?_, fun j hj => ?_⟩
  · rw [getLsbD_marker_or hL hL8 hj8, decide_eq_true hj, Bool.or_true]
  · rw [getLsbD_marker_or hL hL8 (by omega), hclear _ (by omega), decide_eq_false (by omega),
      Bool.or_false]
  · rw [getLsbD_marker_or hL hL8 (by omega), decide_eq_false (by omega), Bool.or_false,
      Nat.add_sub_cancel]

theorem indicator_setWidth : ∀ L < 10, 1 ≤ L →
    (~~~((1 <<< (9 - L)) - 1) : BitVec 32).setWidth 8 = BitVec.ofNat 8 (2 ^ 8 - 2 ^ (9 - L)) := by
  decide

theorem encodeCompact_layout {v : BitVec 64} {L : ℕ} (hL : 1 ≤ L) (hL9 : L ≤ 9)
    (hv : v.toNat < 2 ^ (7 * L)) (hmin : L = 1 ∨ 2 ^ (7 * (L - 1)) ≤ v.toNat) :
    encodeCompact v = some (compactLayout L v.toNat) := by
  have hidx := highestBit_tdiv_seven hL hv hmin
  obtain ⟨b, bs, hb⟩ : ∃ b bs, bigEndian L v.toNat = b :: bs :=
    List.exists_cons_of_ne_nil fun h => by
      have := length_bigEndian L v.toNat
      rw [h, List.length_nil] at this
      omega
  have hlen : ((L : ℤ) - 1 + 1).toNat = L := by omega
  have hsh : (8 - ((L : ℤ) - 1)).toNat = 9 - L := by omega
  simp only [encodeCompact, hidx, if_neg (show ¬(9 : ℤ) < L - 1 + 1 by omega),
    if_neg (show ¬8 - ((L : ℤ) - 1) < 0 by omega), hlen, hsh, packBytes_eq, List.append_nil, hb,
    compactLayout, indicator_setWidth L (by omega) hL]

example : encodeCompact 300 = some [0x81, 0x2C] ∧ compactLayout 2 300 = [0x81, 0x2C] := by
  decide

theorem encodeCompact_eq_none {v : BitVec 64} (hv : 2 ^ 63 ≤ v.toNat) : encodeCompact v = none := by
  have h63 : highestBit v = 63 := by
    have hlt := (highestBit_lt_iff v 64).2 v.isLt
    have hge := mt (highestBit_lt_iff v 63).1 (not_lt.2 hv)
    push_cast at hlt hge
    omega
  simp [encodeCompact, h63, show (63 : ℤ).tdiv 7 = 9 by decide]

/-- At `v = 2^63`, `highest / 7 + 1` is 10: the loop writes `buf[9]` past
the 9-byte buffer and the indicator shifts by `8 - 9`. -/
theorem encodeCompact_two_pow_63 :
    (highestBit (BitVec.ofNat 64 (2 ^ 63))).tdiv 7 + 1 = 10 ∧
      encodeCompact (BitVec.ofNat 64 (2 ^ 63)) = none := by
  decide

/-- A `char` converted to `unsigned long`. -/
def widen (signedChar : Bool) (b : Byte) : BitVec 64 :=
  if signedChar then b.signExtend 64 else b.setWidth 64

/-- `decode_compact(store)`: the value and the bytes after it. -/
def decodeCompact (signedChar : Bool) (store : List Byte) : Option (BitVec 64 × List Byte) := do
  let marker ← store.head?
  let len := 8 - highestBit (~~~marker)
  if store.length < len.toNat then none
  else
    let result := (store.take len.toNat).foldl
      (fun (r : BitVec 64) b => r <<< 8 ||| widen signedChar b) 0
    let result ← if len = 9 then some result
      else
        let bits := len * 7
        if bits < 32 then some (result &&& (~~~((1 : BitVec 32) <<< bits.toNat - 1)).signExtend 64)
        else none
    pure (result, store.drop len.toNat)

theorem decodeCompact_append (signedChar : Bool) (b : Byte) (bs rest : List Byte)
    (h : (8 - highestBit (~~~b)).toNat ≤ (b :: bs).length) :
    decodeCompact signedChar (b :: bs ++ rest) =
      (decodeCompact signedChar (b :: bs)).map fun p => (p.1, p.2 ++ rest) := by
  have hl : ¬(b :: bs ++ rest).length < (8 - highestBit (~~~b)).toNat := by
    simp only [List.length_append] at h ⊢
    omega
  have hh : (b :: bs ++ rest).head? = some b := rfl
  simp only [decodeCompact, hh, List.head?_cons, Option.bind_eq_bind, Option.some_bind, if_neg hl,
    if_neg (not_lt.2 h), List.take_append_of_le_length h, List.drop_append_of_le_length h]
  split_ifs <;> rfl

/-- `decode_compact` masks with `~((1 << bits) - 1)`, which clears the value
bits and keeps the marker: 5 is the single byte 5 and decodes as 0, whatever
follows it and whether `char` is signed. -/
theorem decodeCompact_encodeCompact_five (signedChar : Bool) (rest : List Byte) :
    encodeCompact 5 = some [5] ∧ decodeCompact signedChar ([5] ++ rest) = some (0, rest) := by
  refine ⟨by decide, ?_⟩
  rw [decodeCompact_append signedChar 5 [] rest (by decide),
    show decodeCompact signedChar [5] = some (0, []) by cases signedChar <;> decide]
  rfl

end BitCodec.CompactSize
