import Mathlib.Data.Nat.Bitwise

/-!
# Machine words and the double-word shift

The unsigned word types a bit stream is packed into, the C++ shifts on
them, and `shrd` in both builds: the portable `shrd_emulated` and the x86
template around the `SHRD` instruction, which keeps the emulation for 8-bit
words. Values are kept in `Data D`, the low bits a result has once it is
stored back into the word type. A shift whose amount reaches the width of
the operand's promoted type is undefined behaviour, and there the model
returns `none`; so does the mask `(Data(1) << 31) - 1` of a narrow word,
which overflows `int`.
-/

set_option autoImplicit false

namespace BitCodec.MachineWord

/-- The word types `uint8_t`, `uint16_t`, `uint32_t` and `uint64_t`. -/
inductive Word where
  | u8
  | u16
  | u32
  | u64
  deriving DecidableEq, Repr

namespace Word

/-- `sizeof(Data) * 8`. -/
def bits : Word → ℕ
  | u8 => 8
  | u16 => 16
  | u32 => 32
  | u64 => 64

/-- Width of the type a word is promoted to in arithmetic: `int` for the
two narrow words, the word itself otherwise. -/
def promoted : Word → ℕ
  | u8 => 32
  | u16 => 32
  | u32 => 32
  | u64 => 64

theorem bits_pos (D : Word) : 0 < D.bits := by
  cases D <;> decide

theorem bits_le_promoted (D : Word) : D.bits ≤ D.promoted := by
  cases D <;> decide

theorem bits_le_64 (D : Word) : D.bits ≤ 64 := by
  cases D <;> decide

end Word

abbrev Data (D : Word) := BitVec D.bits

/-- The word array, indexed from the pointer a cursor is constructed on. It
has no end: every operation returns the indices it dereferences, and on an
array of `n` words it is defined exactly when all of them are below `n`. -/
abbrev Mem (D : Word) := ℕ → Data D

/-- `INT_MAX`, the bound of the cursors' `int` bit offsets. -/
def intMax : ℕ := 2 ^ 31 - 1

variable {D : Word}

/-- `x << s` on a word, stored back into the word type. -/
def shl (D : Word) (x : Data D) (s : ℕ) : Option (Data D) :=
  if s < D.promoted then some (x <<< s) else none

/-- `x >> s` on a word. -/
def shr (D : Word) (x : Data D) (s : ℕ) : Option (Data D) :=
  if s < D.promoted then some (x >>> s) else none

theorem shl_of_lt {x : Data D} {s : ℕ} (h : s < D.promoted) : shl D x s = some (x <<< s) :=
  if_pos h

theorem shr_of_lt {x : Data D} {s : ℕ} (h : s < D.promoted) : shr D x s = some (x >>> s) :=
  if_pos h

/-- `(Data(1) << bits) - 1`. Narrow words are promoted to `int`, where
`bits = 31` makes it `INT_MIN - 1`, a signed overflow. -/
def lowMask (D : Word) (bits : ℕ) : Option (Data D) := do
  let one ← shl D 1 bits
  if D.bits < D.promoted ∧ bits + 1 = D.promoted then none else pure (one - 1)

theorem lowMask_of_lt {bits : ℕ} (h : bits < D.bits) :
    lowMask D bits = some ((1 : Data D) <<< bits - 1) := by
  have := D.bits_le_promoted
  rw [lowMask, shl_of_lt (by omega), Option.bind_eq_bind, Option.some_bind, if_neg (by omega)]
  rfl

theorem lowMask_of_promoted_le {bits : ℕ} (h : D.promoted ≤ bits) : lowMask D bits = none := by
  rw [lowMask, shl, if_neg (by omega)]
  rfl

/-- `shrd_emulated`. `TBITS - bits` is unsigned: past `TBITS` it wraps to a
count beyond every width, an undefined shift. -/
def shrdEmulated (D : Word) (low high : Data D) (bits : ℕ) : Option (Data D) := do
  let low ← shr D low bits
  let high ← if bits ≤ D.bits then shl D high (D.bits - bits) else none
  pure (low ||| high)

/-- The word-wide window that starts `bits` positions into the double word
`(high:low)`. -/
def window (low high : Data D) (bits : ℕ) : Data D :=
  BitVec.ofNat D.bits ((high.toNat * 2 ^ D.bits + low.toNat) / 2 ^ bits)

/-- The x86 template: the guard, then `SHRD`, whose count the processor takes
modulo 32 for 16- and 32-bit operands and modulo 64 for 64-bit ones. -/
def shrdInstr (D : Word) (low high : Data D) (bits : ℕ) : Data D :=
  if D.bits < bits then 0 else window low high (bits % D.promoted)

/-- Whether the build has `JML_INTEL_ISA`. -/
inductive Build where
  | x86
  | portable
  deriving DecidableEq, Repr

/-- `shrd`: on x86 the `SHRD` template, except the `unsigned char` overload,
which has no such instruction; elsewhere the emulation. -/
def shrd : Build → (D : Word) → Data D → Data D → ℕ → Option (Data D)
  | .x86, .u8, low, high, bits => shrdEmulated .u8 low high bits
  | .x86, D, low, high, bits => some (shrdInstr D low high bits)
  | .portable, D, low, high, bits => shrdEmulated D low high bits

theorem testBit_div_two_pow (x n j : ℕ) : (x / 2 ^ n).testBit j = x.testBit (n + j) := by
  rw [← Nat.shiftRight_eq_div_pow, Nat.testBit_shiftRight]

theorem testBit_pair (low high : Data D) (j : ℕ) :
    (high.toNat * 2 ^ D.bits + low.toNat).testBit j =
      if j < D.bits then low.getLsbD j else high.getLsbD (j - D.bits) := by
  rw [Nat.mul_comm, Nat.testBit_mul_pow_two_add _ low.isLt]
  rfl

theorem window_getLsbD (low high : Data D) (bits i : ℕ) (hi : i < D.bits) :
    (window low high bits).getLsbD i =
      if bits + i < D.bits then low.getLsbD (bits + i) else high.getLsbD (bits + i - D.bits) := by
  rw [window, BitVec.getLsbD_ofNat, decide_eq_true hi, Bool.true_and, testBit_div_two_pow,
    testBit_pair]

theorem window_toNat (low high : Data D) (bits : ℕ) :
    (window low high bits).toNat = (high.toNat * 2 ^ D.bits + low.toNat) / 2 ^ bits % 2 ^ D.bits :=
  BitVec.toNat_ofNat _ _

theorem shrdEmulated_spec (low high : Data D) (bits : ℕ) (hb : bits < D.bits) :
    shrdEmulated D low high bits =
      if bits = 0 ∧ D.bits = D.promoted then none else some (window low high bits) := by
  have hp := D.bits_le_promoted
  simp only [shrdEmulated, shr_of_lt (show bits < D.promoted by omega), if_pos hb.le,
    Option.pure_def, Option.bind_eq_bind, Option.some_bind]
  by_cases h : bits = 0 ∧ D.bits = D.promoted
  · simp [h, shl]
  · rw [if_neg h, shl_of_lt (by omega), Option.some_bind]
    congr 1
    ext ⟨i, hi⟩
    rw [window_getLsbD _ _ _ _ hi, BitVec.getLsbD_or, BitVec.getLsbD_ushiftRight,
      BitVec.getLsbD_shiftLeft]
    by_cases hw : bits + i < D.bits
    · simp [hw, show i < D.bits - bits by omega]
    · simp [hw, BitVec.getLsbD_ge low (bits + i) (by omega), show ¬i < D.bits - bits by omega,
        show i - (D.bits - bits) = bits + i - D.bits by omega, hi]

/-- At `bits = 0` the 32-bit emulation shifts `high` by 32, which is undefined,
where the `SHRD` template returns `low`. -/
theorem shrdEmulated_u32_zero_undefined :
    shrdEmulated .u32 0 1 0 = none ∧ shrd .x86 .u32 0 1 0 = some 0 := by
  decide

theorem shrdInstr_eq (low high : Data D) (bits : ℕ) (hb : bits < D.bits) :
    shrdInstr D low high bits = window low high bits := by
  rw [shrdInstr, if_neg (by omega), Nat.mod_eq_of_lt (by have := D.bits_le_promoted; omega)]

theorem shrd_x86 (low high : Data D) (bits : ℕ) (hb : bits < D.bits) :
    shrd .x86 D low high bits = some (window low high bits) := by
  cases D with
  | u8 => simpa [shrd, Word.bits, Word.promoted] using shrdEmulated_spec low high bits hb
  | _ => exact congrArg some (shrdInstr_eq low high bits hb)

theorem shrd_of_pos (b : Build) (low high : Data D) (bits : ℕ) (h0 : 0 < bits)
    (hb : bits < D.bits) : shrd b D low high bits = some (window low high bits) := by
  cases b with
  | x86 => exact shrd_x86 low high bits hb
  | portable => simp [shrd, shrdEmulated_spec low high bits hb, show bits ≠ 0 by omega]

end BitCodec.MachineWord
