import BitCodec.CompactSize
import Mathlib.Data.Nat.Find
import Mathlib.Tactic.Ring

/-!
# Reading back a compact size

`decode_compact` finds the length in the marker bits of the first byte, so
on the bytes `encode_compact` wrote it reads exactly those bytes back and
leaves the rest of the store for the next read, whatever follows. What it
returns depends on the row: for a nine-byte value with `char` unsigned it is
the value written; for one to four bytes, where `bits = 7 len` is below 32,
its mask clears the value bits and leaves only the marker; for five to eight
bytes the mask `1 << bits` shifts an `int` past its width. The bytes written
still parse uniquely, so the defect is the decoder's. With `char` signed, a
nine-byte value comes back with ones above every byte whose top bit is set.
-/

set_option autoImplicit false

namespace BitCodec.CompactRoundTrip
open BitCodec.CompactSize

theorem highestBit_eq_of {n : ℕ} {x : BitVec n} {j : ℕ} (hj : x.getLsbD j = true)
    (hz : ∀ i, j < i → i < n → x.getLsbD i = false) : highestBit x = j := by
  have hjn : j < n := BitVec.lt_of_getLsbD hj
  have h1 : highestBit x < (j + 1 : ℕ) :=
    (highestBitBelow_lt_iff x n (j + 1)).2 fun i hi hin => hz i (by omega) hin
  have h2 : ¬highestBit x < (j : ℕ) := fun h => by
    simpa [hj] using (highestBitBelow_lt_iff x n j).1 h j le_rfl hjn
  push_cast at h1 h2
  omega

/-- The bytes read as a big-endian number. -/
def bytesValue (bs : List Byte) : ℕ := bs.foldl (fun a b => a * 2 ^ 8 + b.toNat) 0

theorem foldl_bytes (bs : List Byte) (a : ℕ) :
    bs.foldl (fun a b => a * 2 ^ 8 + b.toNat) a = a * 2 ^ (8 * bs.length) + bytesValue bs := by
  induction bs generalizing a with
  | nil => simp [bytesValue]
  | cons b bs ih =>
    simp only [List.foldl_cons, bytesValue, List.length_cons]
    rw [ih, ih (0 * 2 ^ 8 + b.toNat)]
    ring

theorem bytesValue_cons (b : Byte) (bs : List Byte) :
    bytesValue (b :: bs) = b.toNat * 2 ^ (8 * bs.length) + bytesValue bs := by
  rw [bytesValue, List.foldl_cons, foldl_bytes, Nat.zero_mul, Nat.zero_add]

theorem bytesValue_bigEndian (n v : ℕ) : bytesValue (bigEndian n v) = v % 2 ^ (8 * n) := by
  induction n with
  | zero => simp [bigEndian, bytesValue, Nat.mod_one]
  | succ n ih =>
    rw [bigEndian, bytesValue_cons, length_bigEndian, ih, BitVec.toNat_ofNat,
      show 8 * (n + 1) = 8 * n + 8 by ring, Nat.pow_add, Nat.mod_mul]
    ring

theorem or_marker_toNat {L h : ℕ} (hL : 1 ≤ L) (hL9 : L ≤ 9) (hh : h < 2 ^ (9 - L)) :
    (BitVec.ofNat 8 h ||| BitVec.ofNat 8 (2 ^ 8 - 2 ^ (9 - L))).toNat =
      2 ^ 8 - 2 ^ (9 - L) + h := by
  have hp : 2 ^ (9 - L) ≤ 2 ^ 8 := Nat.pow_le_pow_right Nat.zero_lt_two (by omega)
  have hand : BitVec.ofNat 8 h &&& BitVec.ofNat 8 (2 ^ 8 - 2 ^ (9 - L)) = 0 := by
    refine BitVec.eq_of_getLsbD_eq fun i => ?_
    rw [BitVec.getLsbD_and, BitVec.getLsbD_ofNat, BitVec.getLsbD_ofNat,
      testBit_marker L (by omega) hL i i.isLt]
    by_cases hj : 9 - L ≤ (i : ℕ)
    · rw [Nat.testBit_eq_false_of_lt (lt_of_lt_of_le hh (Nat.pow_le_pow_right Nat.zero_lt_two hj))]
      simp
    · simp [hj]
  rw [← BitVec.add_eq_or_of_and_eq_zero _ _ hand, BitVec.toNat_add, BitVec.toNat_ofNat,
    BitVec.toNat_ofNat, Nat.mod_eq_of_lt (show h < 2 ^ 8 by omega),
    Nat.mod_eq_of_lt (show 2 ^ 8 - 2 ^ (9 - L) < 2 ^ 8 by have := Nat.two_pow_pos (9 - L); omega),
    Nat.mod_eq_of_lt (by omega)]
  omega

theorem compactLayout_succ (n v : ℕ) :
    compactLayout (n + 1) v =
      (BitVec.ofNat 8 (v / 2 ^ (8 * n)) ||| BitVec.ofNat 8 (2 ^ 8 - 2 ^ (9 - (n + 1)))) ::
        bigEndian n v := rfl

theorem compactLayout_eq {L v : ℕ} (hL : 1 ≤ L) (hL9 : L ≤ 9) (hv : v < 2 ^ (7 * L)) :
    ∃ b, compactLayout L v = b :: bigEndian (L - 1) v ∧ 8 - highestBit (~~~b) = L ∧
      bytesValue (compactLayout L v) = 2 ^ (8 * L) - 2 ^ (7 * L + 1) + v := by
  obtain ⟨n, rfl⟩ : ∃ n, L = n + 1 := ⟨L - 1, by omega⟩
  have hh : v / 2 ^ (8 * n) < 2 ^ (8 - n) := by
    rw [Nat.div_lt_iff_lt_mul (Nat.two_pow_pos _), ← Nat.pow_add]
    exact lt_of_lt_of_le hv (Nat.pow_le_pow_right Nat.zero_lt_two (by omega))
  rw [compactLayout_succ]
  refine ⟨_, rfl, ?_, ?_⟩
  · by_cases h8 : n ≤ 7
    · have hclear : ∀ i, 7 - n ≤ i → (v / 2 ^ (8 * n)).testBit i = false := fun i hi => by
        refine Nat.testBit_eq_false_of_lt ((Nat.div_lt_iff_lt_mul (Nat.two_pow_pos _)).2 ?_)
        rw [← Nat.pow_add]
        exact lt_of_lt_of_le hv (Nat.pow_le_pow_right Nat.zero_lt_two (by omega))
      have hb := highestBit_eq_of (x := ~~~(BitVec.ofNat 8 (v / 2 ^ (8 * n)) |||
        BitVec.ofNat 8 (2 ^ 8 - 2 ^ (9 - (n + 1))))) (j := 7 - n) (by
          rw [BitVec.getLsbD_not, getLsbD_marker_or (by omega) (by omega) (by omega),
            hclear _ le_rfl, decide_eq_true (show 7 - n < 8 by omega),
            decide_eq_false (show ¬9 - (n + 1) ≤ 7 - n by omega)]
          rfl)
        fun i hi hi8 => by
          rw [BitVec.getLsbD_not, getLsbD_marker_or (by omega) (by omega) hi8,
            decide_eq_true (show 9 - (n + 1) ≤ i by omega), Bool.or_true, Bool.not_true,
            Bool.and_false]
      rw [hb]
      omega
    · rw [Nat.div_eq_of_lt (lt_of_lt_of_le hv (Nat.pow_le_pow_right Nat.zero_lt_two (by omega))),
        show n = 8 by omega]
      decide
  · rw [bytesValue_cons, length_bigEndian, bytesValue_bigEndian,
      or_marker_toNat (by omega) (by omega) (by simpa using hh), Nat.add_mul, Nat.add_assoc,
      Nat.div_add_mod', Nat.sub_mul, ← Nat.pow_add, ← Nat.pow_add,
      show 8 + 8 * n = 8 * (n + 1) by omega, show 9 - (n + 1) + 8 * n = 7 * (n + 1) + 1 by omega]

theorem decodeCompact_of_len (sc : Bool) {b : Byte} {bs : List Byte} {L : ℕ}
    (hlen : 8 - highestBit (~~~b) = L) (hl : bs.length + 1 = L) (rest : List Byte) :
    decodeCompact sc (b :: bs ++ rest) =
      (if L = 9 then some ((b :: bs).foldl (fun (r : BitVec 64) b => r <<< 8 ||| widen sc b) 0)
        else if 7 * L < 32 then
          some ((b :: bs).foldl (fun (r : BitVec 64) b => r <<< 8 ||| widen sc b) 0 &&&
          (~~~((1 : BitVec 32) <<< (7 * L) - 1)).signExtend 64)
        else none).map fun r => (r, rest) := by
  rw [decodeCompact_append sc b bs rest (by rw [hlen]; simp [hl])]
  have hb : (b :: bs).length = L := by simp [hl]
  have h9 : (L : ℤ) = 9 ↔ L = 9 := by omega
  have h32 : (L : ℤ) * 7 < 32 ↔ 7 * L < 32 := by omega
  have h7 : ((L : ℤ) * 7).toNat = 7 * L := by omega
  simp only [decodeCompact, List.head?_cons, Option.bind_eq_bind, Option.some_bind, hlen,
    Int.toNat_natCast, hb, lt_irrefl, if_false, h9, h32, h7, List.take_of_length_le hb.le,
    List.drop_of_length_le hb.le]
  split_ifs <;> simp

theorem shift_or_toNat (r : BitVec 64) (b : Byte) :
    (r <<< 8 ||| widen false b).toNat = (r.toNat * 2 ^ 8 + b.toNat) % 2 ^ 64 := by
  have hand : r <<< 8 &&& widen false b = 0 := by
    refine BitVec.eq_of_getLsbD_eq fun i => ?_
    simp only [widen, Bool.false_eq_true, if_false, BitVec.getLsbD_and, BitVec.getLsbD_shiftLeft,
      BitVec.getLsbD_setWidth]
    by_cases hi : (i : ℕ) < 8
    · simp [hi]
    · simp [hi, BitVec.getLsbD_ge b (i : ℕ) (by omega)]
  rw [← BitVec.add_eq_or_of_and_eq_zero _ _ hand, BitVec.toNat_add, BitVec.toNat_shiftLeft, widen,
    if_neg Bool.false_ne_true, BitVec.toNat_setWidth, Nat.shiftLeft_eq,
    Nat.mod_eq_of_lt (lt_of_lt_of_le b.isLt (Nat.pow_le_pow_right Nat.zero_lt_two (by omega))),
    Nat.mod_add_mod]

theorem foldl_widen_unsigned (bs : List Byte) (r : BitVec 64) :
    (bs.foldl (fun (r : BitVec 64) b => r <<< 8 ||| widen false b) r).toNat =
      bs.foldl (fun a b => a * 2 ^ 8 + b.toNat) r.toNat % 2 ^ 64 := by
  induction bs generalizing r with
  | nil => exact (Nat.mod_eq_of_lt r.isLt).symm
  | cons b bs ih =>
    rw [List.foldl_cons, List.foldl_cons, ih, shift_or_toNat, foldl_bytes, foldl_bytes,
      Nat.add_mod, Nat.mul_mod, Nat.mod_mod, ← Nat.mul_mod, ← Nat.add_mod]

theorem mask_signExtend : ∀ L < 5, 1 ≤ L →
    (~~~((1 : BitVec 32) <<< (7 * L) - 1)).signExtend 64 =
      BitVec.ofNat 64 (2 ^ 64 - 2 ^ (7 * L)) := by
  decide

theorem and_high_mask {k a v : ℕ} (hk : k ≤ 64) (hv : v < 2 ^ k) :
    BitVec.ofNat 64 (2 ^ k * a + v) &&& BitVec.ofNat 64 (2 ^ 64 - 2 ^ k) =
      BitVec.ofNat 64 (2 ^ k * a) := by
  have hm : 2 ^ 64 - 2 ^ k = 2 ^ k * (2 ^ (64 - k) - 1) := by
    rw [Nat.mul_sub, Nat.mul_one, ← Nat.pow_add, Nat.add_sub_cancel' hk]
  refine BitVec.eq_of_getLsbD_eq fun i => ?_
  rw [BitVec.getLsbD_and, BitVec.getLsbD_ofNat, BitVec.getLsbD_ofNat, BitVec.getLsbD_ofNat, hm,
    Nat.testBit_mul_pow_two_add _ hv, Nat.testBit_mul_pow_two, Nat.testBit_mul_pow_two,
    Nat.testBit_two_pow_sub_one]
  by_cases hi : (i : ℕ) < k
  · simp [hi, show ¬k ≤ (i : ℕ) by omega]
  · simp [hi, show k ≤ (i : ℕ) by omega, show (i : ℕ) - k < 64 - k by omega]

/-- For every `v < 2^63`, in its row `L` of the table, `decode_compact`
reads back exactly the `L` bytes `encode_compact` wrote, whatever follows
them and whether `char` is signed, except in rows 5 to 8, where its mask
`1 << 7 len` shifts an `int` past its width. With `char` unsigned it returns
`v` in row 9 and only the marker, `2^(8L) - 2^(7L+1)`, in rows 1 to 4. -/
theorem decodeCompact_encodeCompact {v : BitVec 64} {L : ℕ} (hL : 1 ≤ L) (hL9 : L ≤ 9)
    (hv : v.toNat < 2 ^ (7 * L)) (hmin : L = 1 ∨ 2 ^ (7 * (L - 1)) ≤ v.toNat)
    (rest : List Byte) :
    ∃ bytes, encodeCompact v = some bytes ∧ bytes.length = L ∧
      (∀ sc, (decodeCompact sc (bytes ++ rest)).map Prod.snd =
        if 5 ≤ L ∧ L ≤ 8 then none else some rest) ∧
      decodeCompact false (bytes ++ rest) =
        if L = 9 then some (v, rest)
        else if L ≤ 4 then some (BitVec.ofNat 64 (2 ^ (8 * L) - 2 ^ (7 * L + 1)), rest)
        else none := by
  obtain ⟨b, hb, hlen, hval⟩ := compactLayout_eq hL hL9 hv
  have hl : (bigEndian (L - 1) v.toNat).length + 1 = L := by rw [length_bigEndian]; omega
  have hfold : (b :: bigEndian (L - 1) v.toNat).foldl
      (fun (r : BitVec 64) b => r <<< 8 ||| widen false b) 0 =
        BitVec.ofNat 64 (2 ^ (8 * L) - 2 ^ (7 * L + 1) + v.toNat) := by
    apply BitVec.eq_of_toNat_eq
    rw [foldl_widen_unsigned, BitVec.toNat_ofNat]
    show bytesValue _ % 2 ^ 64 = _
    rw [← hb, hval]
  refine ⟨_, encodeCompact_layout hL hL9 hv hmin, by rw [hb, List.length_cons, hl], fun sc => ?_,
    ?_⟩
  · rw [hb, decodeCompact_of_len sc hlen hl]
    split_ifs <;> first | rfl | omega
  · rw [hb, decodeCompact_of_len false hlen hl, hfold]
    by_cases h9 : L = 9
    · subst h9
      have hv9 : BitVec.ofNat 64 (2 ^ (8 * 9) - 2 ^ (7 * 9 + 1) + v.toNat) = v :=
        BitVec.eq_of_toNat_eq (by rw [BitVec.toNat_ofNat]; omega)
      rw [if_pos rfl, if_pos rfl, hv9]
      rfl
    by_cases h4 : L ≤ 4
    · have hm : 2 ^ (8 * L) - 2 ^ (7 * L + 1) = 2 ^ (7 * L) * (2 ^ L - 2) := by
        rw [Nat.mul_sub, ← Nat.pow_add, Nat.pow_succ]
        ring_nf
      rw [if_neg h9, if_pos (by omega : 7 * L < 32), mask_signExtend L (by omega) hL, hm,
        and_high_mask (by omega) hv, if_neg h9, if_pos h4]
      rfl
    · rw [if_neg h9, if_neg (by omega : ¬7 * L < 32), if_neg h9, if_neg h4]
      rfl

theorem decodeCompact_encodeCompact_two_pow_60 :
    ∃ bytes, encodeCompact (BitVec.ofNat 64 (2 ^ 60)) = some bytes ∧ bytes.length = 9 ∧
      (∀ sc, (decodeCompact sc (bytes ++ [7])).map Prod.snd =
        if 5 ≤ 9 ∧ 9 ≤ 8 then none else some [7]) ∧
      decodeCompact false (bytes ++ [7]) =
        if 9 = 9 then some (BitVec.ofNat 64 (2 ^ 60), [7])
        else if 9 ≤ 4 then some (BitVec.ofNat 64 (2 ^ (8 * 9) - 2 ^ (7 * 9 + 1)), [7])
        else none :=
  decodeCompact_encodeCompact (by decide) (by decide) (by decide) (by decide) [7]

theorem exists_row {v : BitVec 64} (hv : v.toNat < 2 ^ 63) :
    ∃ L, 1 ≤ L ∧ L ≤ 9 ∧ v.toNat < 2 ^ (7 * L) ∧
      (L = 1 ∨ 2 ^ (7 * (L - 1)) ≤ v.toNat) := by
  have hex : ∃ L, 1 ≤ L ∧ v.toNat < 2 ^ (7 * L) := ⟨9, by norm_num, hv⟩
  refine ⟨Nat.find hex, (Nat.find_spec hex).1, Nat.find_min' hex ⟨by norm_num, hv⟩,
    (Nat.find_spec hex).2, or_iff_not_imp_left.2 fun h1 => ?_⟩
  exact not_lt.1 fun h => Nat.find_min hex (show Nat.find hex - 1 < Nat.find hex by
    have := (Nat.find_spec hex).1; omega) ⟨by have := (Nat.find_spec hex).1; omega, h⟩

/-- What `encode_compact` writes parses uniquely from a stream: for all values
`v` and `w` and all bytes that follow, if the bytes written for `v` and what
follows them are the bytes written for `w` and what follows those, then
`v = w` and the rest is the same. The first byte fixes the length and the
bytes as a number fix the value, so a correct decoder exists. -/
theorem encodeCompact_prefix_unique {v w : BitVec 64} {bv bw rv rw : List Byte}
    (hv : encodeCompact v = some bv) (hw : encodeCompact w = some bw)
    (h : bv ++ rv = bw ++ rw) : v = w ∧ rv = rw := by
  have h63 : ∀ {x : BitVec 64} {bx}, encodeCompact x = some bx → x.toNat < 2 ^ 63 :=
    fun hx => not_le.1 fun hge => by simp [encodeCompact_eq_none hge] at hx
  obtain ⟨L, hL, hL9, hvL, hminv⟩ := exists_row (h63 hv)
  obtain ⟨L', hL', hL9', hwL, hminw⟩ := exists_row (h63 hw)
  obtain ⟨b, hb, hlen, hval⟩ := compactLayout_eq hL hL9 hvL
  obtain ⟨b', hb', hlen', hval'⟩ := compactLayout_eq hL' hL9' hwL
  rw [encodeCompact_layout hL hL9 hvL hminv, Option.some.injEq] at hv
  rw [encodeCompact_layout hL' hL9' hwL hminw, Option.some.injEq] at hw
  subst hv hw
  have hbb : b = b' := by
    rw [hb, hb'] at h
    exact (List.cons.inj h).1
  have hLL : L = L' := by subst hbb; omega
  subst hLL
  obtain ⟨hbytes, hrest⟩ := List.append_inj h (by rw [hb, hb']; simp)
  refine ⟨BitVec.eq_of_toNat_eq ?_, hrest⟩
  have := congrArg bytesValue hbytes
  rw [hval, hval'] at this
  omega

theorem encodeCompact_prefix_unique_300 : (300 : BitVec 64) = 300 ∧ ([7] : List Byte) = [7] :=
  encodeCompact_prefix_unique (by decide : encodeCompact 300 = some [0x81, 0x2C])
    (by decide : encodeCompact 300 = some [0x81, 0x2C]) rfl

theorem getLsbD_foldl_signed (a : BitVec 64) (n v i : ℕ) :
    ((bigEndian n v).foldl (fun (r : BitVec 64) b => r <<< 8 ||| widen true b) a).getLsbD i =
        true ↔
      i < 64 ∧ (8 * n ≤ i ∧ a.getLsbD (i - 8 * n) = true ∨
        i < 8 * n ∧ v.testBit i = true ∨
        ∃ k < n, 8 * (k + 1) ≤ i ∧ v.testBit (8 * k + 7) = true) := by
  induction n generalizing v i with
  | zero =>
    simp only [bigEndian, List.foldl_nil, Nat.mul_zero, Nat.zero_le, Nat.sub_zero, true_and,
      Nat.not_lt_zero, false_and, false_or, exists_false, or_false]
    exact ⟨fun h => ⟨BitVec.lt_of_getLsbD h, h⟩, And.right⟩
  | succ n ih =>
    rw [bigEndian_succ, List.foldl_append, List.foldl_cons, List.foldl_nil, BitVec.getLsbD_or,
      BitVec.getLsbD_shiftLeft, widen, if_pos rfl, BitVec.getLsbD_signExtend,
      BitVec.msb_eq_getLsbD_last, BitVec.getLsbD_ofNat, BitVec.getLsbD_ofNat]
    simp only [Bool.or_eq_true, Bool.and_eq_true, decide_eq_true_eq, Bool.not_eq_true',
      decide_eq_false_iff_not, ih, ← Nat.shiftRight_eq_div_pow, Nat.testBit_shiftRight]
    by_cases hi : i < 8
    · have hk : ¬∃ k < n + 1, 8 * (k + 1) ≤ i ∧ v.testBit (8 * k + 7) = true :=
        fun ⟨k, _, hk, _⟩ => by omega
      simp [hi, hk, show i < 64 by omega, show i < 8 * (n + 1) by omega,
        show ¬8 * (n + 1) ≤ i by omega]
    · have hE : (∃ k < n + 1, 8 * (k + 1) ≤ i ∧ v.testBit (8 * k + 7) = true) ↔
          v.testBit 7 = true ∨
            ∃ k < n, 8 * (k + 1) ≤ i - 8 ∧ v.testBit (8 + (8 * k + 7)) = true := by
        rw [Nat.exists_lt_succ_left]
        exact or_congr (by simp; omega) (exists_congr fun k => and_congr_right fun _ =>
          and_congr (by omega) (by rw [show 8 * (k + 1) + 7 = 8 + (8 * k + 7) by ring]))
      have h1 : 8 * n ≤ i - 8 ↔ 8 * (n + 1) ≤ i := by omega
      have h2 : i - 8 < 8 * n ↔ i < 8 * (n + 1) := by omega
      rw [hE, show 8 + (i - 8) = i by omega, show i - 8 - 8 * n = i - 8 * (n + 1) by omega, h1, h2]
      by_cases h64 : i < 64
      · simp only [hi, h64, show i - 8 < 64 by omega, true_and, not_false_eq_true, if_false]
        rw [show (8 - 1 : ℕ) = 7 from rfl, decide_eq_true (show 7 < 8 by omega), Bool.true_and]
        rw [or_assoc, or_assoc, or_comm (b := v.testBit 7 = true)]
      · exact iff_of_false (fun h => h.elim (fun h => h64 h.1.1) (fun h => h64 h.1))
          (fun h => h64 h.1)

/-- With `char` signed, `result |= store[i]` widens each byte with its
sign. For every `v` in row 9 (`2^56 ≤ v < 2^63`), `decode_compact` reads the
nine bytes `encode_compact` wrote, but bit `i` of what it returns is set when
bit `i` of `v` is and also whenever a byte of `v` below bit `i` has its top
bit set: it returns `v` exactly when none of the seven low bytes of `v` has. -/
theorem decodeCompact_signed_nine {v : BitVec 64} (h56 : 2 ^ 56 ≤ v.toNat)
    (h63 : v.toNat < 2 ^ 63) (rest : List Byte) :
    ∃ bytes w, encodeCompact v = some bytes ∧
      decodeCompact true (bytes ++ rest) = some (w, rest) ∧
      (∀ i, w.getLsbD i = true ↔
        v.getLsbD i = true ∨
          i < 64 ∧ ∃ k, 8 * (k + 1) ≤ i ∧ v.getLsbD (8 * k + 7) = true) ∧
      (w = v ↔ ∀ k < 7, v.getLsbD (8 * k + 7) = false) := by
  have hv : v.toNat < 2 ^ (7 * 9) := h63
  obtain ⟨b, hb, hlen, -⟩ := compactLayout_eq (by norm_num) le_rfl hv
  have hl : (bigEndian (9 - 1) v.toNat).length + 1 = 9 := by rw [length_bigEndian]
  have hw : ∀ i, ((b :: bigEndian (9 - 1) v.toNat).foldl
      (fun (r : BitVec 64) b => r <<< 8 ||| widen true b) 0).getLsbD i = true ↔
        v.getLsbD i = true ∨
          i < 64 ∧ ∃ k, 8 * (k + 1) ≤ i ∧ v.getLsbD (8 * k + 7) = true := by
    intro i
    rw [List.foldl_cons, getLsbD_foldl_signed, show 9 - 1 = 8 from rfl]
    simp only [BitVec.testBit_toNat]
    constructor
    · rintro ⟨h64, ⟨h, -⟩ | ⟨-, h⟩ | ⟨k, -, hk, h⟩⟩
      · omega
      · exact Or.inl h
      · exact Or.inr ⟨h64, k, hk, h⟩
    · rintro (h | ⟨h64, k, hk, h⟩)
      · exact ⟨BitVec.lt_of_getLsbD h, .inr (.inl ⟨BitVec.lt_of_getLsbD h, h⟩)⟩
      · exact ⟨h64, .inr (.inr ⟨k, by omega, hk, h⟩)⟩
  have h63f : v.getLsbD 63 = false := by
    rw [← BitVec.testBit_toNat]
    exact Nat.testBit_eq_false_of_lt h63
  refine ⟨_, _, encodeCompact_layout (L := 9) (by norm_num) le_rfl hv (Or.inr h56), ?_, hw, ?_⟩
  · rw [hb, decodeCompact_of_len true hlen hl, if_pos rfl]
    rfl
  · constructor
    · intro hwv k hk
      refine Bool.eq_false_iff.2 fun h => ?_
      simpa only [hwv, h63f, Bool.false_eq_true] using
        (hw 63).2 (.inr ⟨by omega, k, by omega, h⟩)
    · intro h
      refine BitVec.eq_of_getLsbD_eq fun i => Bool.eq_iff_iff.2 ((hw i).trans (or_iff_left ?_))
      rintro ⟨-, k, hk, hk7⟩
      simp [h k (by omega)] at hk7

theorem decodeCompact_signed_nine_low_byte :
    ∃ bytes w, encodeCompact 0x0100000000000080 = some bytes ∧
      decodeCompact true (bytes ++ []) = some (w, []) ∧
      (∀ i, w.getLsbD i = true ↔ (0x0100000000000080 : BitVec 64).getLsbD i = true ∨
        i < 64 ∧ ∃ k, 8 * (k + 1) ≤ i ∧
          (0x0100000000000080 : BitVec 64).getLsbD (8 * k + 7) = true) ∧
      (w = 0x0100000000000080 ↔
        ∀ k < 7, (0x0100000000000080 : BitVec 64).getLsbD (8 * k + 7) = false) :=
  decodeCompact_signed_nine (by decide) (by decide) []

end BitCodec.CompactRoundTrip
