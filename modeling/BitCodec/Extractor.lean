import Mathlib.Data.List.Forall2
import BitCodec.Buffers
import BitCodec.Stream
import BitCodec.SignExtend

/-!
# The bit cursor and the sequential extractor

`Bit_Buffer` over either memory buffer and the `Bit_Extractor` that wraps it,
with its single and fused extractions and `advance`. Each operation returns
the indices of the words it loads. `bit_ofs` is an `int`: an advance that
takes it past `INT_MAX` is undefined and gives `none`.

A cursor `At` stream position `P` has its buffer on word `⌊P/W⌋`, showing
the words there, and `bit_ofs = P mod W`. Every operation moves `At` forward
by the bits it consumes, loads no word past the one after its new position,
and, on x86, extracts the stream field at its old position.
-/

set_option autoImplicit false

namespace BitCodec.Extractor
open BitCodec.MachineWord BitCodec.BitRange BitCodec.Stream BitCodec.Buffers
open BitCodec.SignExtend MemBuffer

/-- `Bit_Buffer<Data, MemBuf>`. -/
structure BitBuffer (M : Type) where
  data : M
  bitOfs : ℕ

namespace BitBuffer

variable {D : Word} {M : Type} [MemBuffer D M]

def create (M : Type) [MemBuffer D M] (mem : Mem D) : BitBuffer M × List ℕ :=
  (⟨(MemBuffer.create mem).1, 0⟩, (MemBuffer.create mem : M × List ℕ).2)

/-- `advance(bits)`. -/
def advance (mem : Mem D) (s : BitBuffer M) (bits : ℕ) : Option (BitBuffer M × List ℕ) :=
  let bitOfs := s.bitOfs + bits
  if intMax < bitOfs then none else
  let (data, loads) := addAssign mem s.data (bitOfs / D.bits)
  some (⟨data, bitOfs % D.bits⟩, loads)

/-- `extract(bits)`. -/
def extract (b : Build) (mem : Mem D) (s : BitBuffer M) (bits : ℕ) :
    Option (Data D × BitBuffer M × List ℕ) := do
  let (c, l0) := curr mem s.data
  let (n, l1) := next mem s.data
  let result ← extractBitRangePure b D c n s.bitOfs bits
  let (s, l2) ← s.advance mem bits
  pure (result, s, l0 ++ l1 ++ l2)

/-- The cursor stands at stream position `P`. -/
def At (mem : Mem D) (s : BitBuffer M) (P : ℕ) : Prop :=
  Coherent mem s.data ∧ MemBuffer.data s.data = P / D.bits ∧ s.bitOfs = P % D.bits

theorem extract_eq (b : Build) (mem : Mem D) (s : BitBuffer M) (bits : ℕ) :
    s.extract b mem bits =
      (extractBitRangePure b D (curr mem s.data).1 (next mem s.data).1 s.bitOfs bits).bind
        fun r => (s.advance mem bits).map fun p =>
          (r, p.1, (curr mem s.data).2 ++ (next mem s.data).2 ++ p.2) := by
  simp only [extract, Option.bind_eq_bind]
  cases extractBitRangePure b D (curr mem s.data).1 (next mem s.data).1 s.bitOfs bits <;>
    cases s.advance mem bits <;> rfl

theorem loads_append {l1 l2 : List ℕ} {P Q : ℕ} (h1 : ∀ i ∈ l1, i ≤ P / D.bits + 1)
    (h2 : ∀ i ∈ l2, i ≤ Q / D.bits + 1) (hPQ : P ≤ Q) : ∀ i ∈ l1 ++ l2, i ≤ Q / D.bits + 1 :=
  List.forall_mem_append.2
    ⟨fun i hi => (h1 i hi).trans (Nat.succ_le_succ (Nat.div_le_div_right hPQ)), h2⟩

variable [LawfulMemBuffer D M]

theorem create_at (mem : Mem D) : At mem (create M mem).1 0 :=
  ⟨LawfulMemBuffer.create_coherent mem, by simp [create, LawfulMemBuffer.create_data],
    by simp [create]⟩

theorem advance_at {mem : Mem D} {s : BitBuffer M} {P : ℕ} (hs : At mem s P) (k : ℕ)
    (hk : s.bitOfs + k ≤ intMax) :
    ∃ s' l, s.advance mem k = some (s', l) ∧ At mem s' (P + k) ∧
      ∀ i ∈ l, i ≤ (P + k) / D.bits + 1 := by
  obtain ⟨hc, hd, ho⟩ := hs
  have hstep := div_add_mod_add D.bits P k D.bits_pos
  refine ⟨_, _, by simp only [advance, if_neg (not_lt.2 hk)]; rfl,
    ⟨LawfulMemBuffer.addAssign_coherent _ _ _ hc, ?_, ?_⟩, fun i hi => ?_⟩
  · simp only [LawfulMemBuffer.addAssign_data, hd, ho, hstep]
  · simp only [ho, Nat.mod_add_mod]
  · have := LawfulMemBuffer.addAssign_loads mem s.data _ i hi
    rwa [hd, ho, hstep] at this

theorem extract_at (b : Build) {mem : Mem D} {s : BitBuffer M} {P : ℕ} (hs : At mem s P)
    {bits : ℕ} (hbits : bits < D.bits) :
    ∃ s' l, At mem s' (P + bits) ∧ (∀ i ∈ l, i ≤ (P + bits) / D.bits + 1) ∧
      s.extract b mem bits =
        (extractBitRangePure b D (mem (P / D.bits)) (mem (P / D.bits + 1)) (P % D.bits)
          bits).map fun r => (r, s', l) := by
  have hk : s.bitOfs + bits ≤ intMax := by
    rw [hs.2.2]
    have := Nat.mod_lt P D.bits_pos
    have := D.bits_le_64
    simp only [intMax]
    omega
  obtain ⟨s', l2, ha, hs', hl2⟩ := advance_at hs bits hk
  obtain ⟨⟨hc, hn⟩, hd, ho⟩ := hs
  have hl : ∀ i ∈ (curr mem s.data).2 ++ (next mem s.data).2, i ≤ P / D.bits + 1 :=
    hd ▸ List.forall_mem_append.2
      ⟨LawfulMemBuffer.curr_loads mem s.data, LawfulMemBuffer.next_loads mem s.data⟩
  refine ⟨s', _, hs', loads_append hl hl2 (Nat.le_add_right _ _), ?_⟩
  rw [extract_eq, hc, hn, hd, ho, ha]
  cases extractBitRangePure b D (mem (P / D.bits)) (mem (P / D.bits + 1)) (P % D.bits) bits <;> rfl

end BitBuffer

/-- A call on a `Bit_Buffer`: `extract(bits)` or `advance(bits)`. -/
inductive BufferCall where
  | extract (bits : ℕ)
  | advance (bits : ℕ)
  deriving DecidableEq, Repr

def BufferCall.bits : BufferCall → ℕ
  | .extract bits | .advance bits => bits

/-- An extraction of less than one word, or an advance that cannot take
`bit_ofs` past `INT_MAX`. -/
def BufferCall.Valid (D : Word) : BufferCall → Prop
  | .extract bits => bits < D.bits
  | .advance bits => bits + (D.bits - 1) ≤ intMax

namespace BitBuffer

variable {D : Word} {M : Type} [MemBuffer D M]

/-- One call: the word it extracts, if any, the cursor after it and its loads. -/
def call (b : Build) (mem : Mem D) (s : BitBuffer M) :
    BufferCall → Option (List (Data D) × BitBuffer M × List ℕ)
  | .extract bits => (s.extract b mem bits).map fun r => ([r.1], r.2)
  | .advance bits => (s.advance mem bits).map fun r => ([], r)

/-- A sequence of calls: the words extracted, the final cursor and every load. -/
def run (b : Build) (mem : Mem D) :
    BitBuffer M → List BufferCall → Option (List (Data D) × BitBuffer M × List ℕ)
  | s, [] => some ([], s, [])
  | s, c :: cs => do
    let (es, s, l) ← s.call b mem c
    let (es', s, l') ← run b mem s cs
    pure (es ++ es', s, l ++ l')

theorem extract_none_of_promoted_le (b : Build) (mem : Mem D) (s : BitBuffer M) {bits : ℕ}
    (h : D.promoted ≤ bits) : s.extract b mem bits = none := by
  have := D.bits_pos
  have := D.bits_le_promoted
  rw [extract_eq, extractBitRangePure, if_neg (by omega)]
  cases shrd b D (curr mem s.data).1 (next mem s.data).1 s.bitOfs <;>
    simp [lowMask_of_promoted_le h]

theorem run_none_of_promoted_le (b : Build) (mem : Mem D) {bits : ℕ} (h : D.promoted ≤ bits)
    (cs cs' : List BufferCall) (s : BitBuffer M) :
    s.run b mem (cs ++ .extract bits :: cs') = none := by
  induction cs generalizing s with
  | nil => simp [run, call, extract_none_of_promoted_le b mem s h]
  | cons c cs ih =>
    simp only [List.cons_append, run, Option.bind_eq_bind]
    cases s.call b mem c with
    | none => rfl
    | some r => simp [ih]

end BitBuffer

/-- One field an extraction stores: the word `buf.extract` returned and the
type of the destination it is assigned to. -/
structure Extracted (D : Word) where
  dest : CType
  raw : Data D

/-- What the destination holds after `where = buf.extract(num_bits)`. -/
def Extracted.stored {D : Word} (e : Extracted D) : ℤ := e.dest.value (e.dest.assign e.raw.toNat)

/-- `Bit_Extractor<Data, Bit_Buffer<Data, MemBuf>>`; its own `bit_ofs` is
never read. -/
structure BitExtractor (M : Type) where
  buf : BitBuffer M

/-- The calls a `Bit_Extractor` takes: `extract` into one, two, three or
four destinations, and `advance`. -/
inductive Call where
  | extract (T : CType) (bits : ℕ)
  | extract2 (T1 : CType) (bits1 : ℕ) (T2 : CType) (bits2 : ℕ)
  | extract3 (T1 : CType) (bits1 : ℕ) (T2 : CType) (bits2 : ℕ) (T3 : CType) (bits3 : ℕ)
  | extract4 (T1 : CType) (bits1 : ℕ) (T2 : CType) (bits2 : ℕ) (T3 : CType) (bits3 : ℕ)
      (T4 : CType) (bits4 : ℕ)
  | advance (bits : ℕ)
  deriving DecidableEq, Repr

namespace BitExtractor

variable {D : Word} {M : Type} [MemBuffer D M]

def create (M : Type) [MemBuffer D M] (mem : Mem D) : BitExtractor M × List ℕ :=
  (⟨(BitBuffer.create M mem).1⟩, (BitBuffer.create M mem).2)

/-- `extract(T & where, int num_bits)`, and `extract<T>(int num_bits)`. -/
def extract (b : Build) (mem : Mem D) (x : BitExtractor M) (T : CType) (bits : ℕ) :
    Option (Extracted D × BitExtractor M × List ℕ) := do
  let (raw, buf, l) ← x.buf.extract b mem bits
  pure (⟨T, raw⟩, ⟨buf⟩, l)

def extract2 (b : Build) (mem : Mem D) (x : BitExtractor M) (T1 : CType) (bits1 : ℕ)
    (T2 : CType) (bits2 : ℕ) : Option (List (Extracted D) × BitExtractor M × List ℕ) := do
  let (e1, x, l1) ← x.extract b mem T1 bits1
  let (e2, x, l2) ← x.extract b mem T2 bits2
  pure ([e1, e2], x, l1 ++ l2)

def extract3 (b : Build) (mem : Mem D) (x : BitExtractor M) (T1 : CType) (bits1 : ℕ)
    (T2 : CType) (bits2 : ℕ) (T3 : CType) (bits3 : ℕ) :
    Option (List (Extracted D) × BitExtractor M × List ℕ) := do
  let (e1, x, l1) ← x.extract b mem T1 bits1
  let (e2, x, l2) ← x.extract b mem T2 bits2
  let (e3, x, l3) ← x.extract b mem T3 bits3
  pure ([e1, e2, e3], x, l1 ++ l2 ++ l3)

def extract4 (b : Build) (mem : Mem D) (x : BitExtractor M) (T1 : CType) (bits1 : ℕ)
    (T2 : CType) (bits2 : ℕ) (T3 : CType) (bits3 : ℕ) (T4 : CType) (bits4 : ℕ) :
    Option (List (Extracted D) × BitExtractor M × List ℕ) := do
  let (e1, x, l1) ← x.extract b mem T1 bits1
  let (e2, x, l2) ← x.extract b mem T2 bits2
  let (e3, x, l3) ← x.extract b mem T3 bits3
  let (e4, x, l4) ← x.extract b mem T4 bits4
  pure ([e1, e2, e3, e4], x, l1 ++ l2 ++ l3 ++ l4)

def advance (mem : Mem D) (x : BitExtractor M) (bits : ℕ) :
    Option (BitExtractor M × List ℕ) := do
  let (buf, l) ← x.buf.advance mem bits
  pure (⟨buf⟩, l)

def call (b : Build) (mem : Mem D) (x : BitExtractor M) :
    Call → Option (List (Extracted D) × BitExtractor M × List ℕ)
  | .extract T bits => do
    let (e, x, l) ← x.extract b mem T bits
    pure ([e], x, l)
  | .extract2 T1 bits1 T2 bits2 => x.extract2 b mem T1 bits1 T2 bits2
  | .extract3 T1 bits1 T2 bits2 T3 bits3 => x.extract3 b mem T1 bits1 T2 bits2 T3 bits3
  | .extract4 T1 bits1 T2 bits2 T3 bits3 T4 bits4 =>
    x.extract4 b mem T1 bits1 T2 bits2 T3 bits3 T4 bits4
  | .advance bits => do
    let (x, l) ← x.advance mem bits
    pure ([], x, l)

/-- The extractions of a call, field after field. -/
def extractAll (b : Build) (mem : Mem D) :
    BitExtractor M → List (CType × ℕ) → Option (List (Extracted D) × BitExtractor M × List ℕ)
  | x, [] => some ([], x, [])
  | x, (T, bits) :: fs => do
    let (e, x, l) ← x.extract b mem T bits
    let (es, x, l') ← extractAll b mem x fs
    pure (e :: es, x, l ++ l')

/-- A sequence of calls: the fields stored, the final extractor and every load. -/
def run (b : Build) (mem : Mem D) :
    BitExtractor M → List Call → Option (List (Extracted D) × BitExtractor M × List ℕ)
  | x, [] => some ([], x, [])
  | x, c :: cs => do
    let (es, x, l) ← x.call b mem c
    let (es', x, l') ← run b mem x cs
    pure (es ++ es', x, l ++ l')

end BitExtractor

def fieldsWidth : List (CType × ℕ) → ℕ
  | [] => 0
  | (_, w) :: fs => w + fieldsWidth fs

namespace Call

def fields : Call → List (CType × ℕ)
  | .extract T bits => [(T, bits)]
  | .extract2 T1 bits1 T2 bits2 => [(T1, bits1), (T2, bits2)]
  | .extract3 T1 bits1 T2 bits2 T3 bits3 => [(T1, bits1), (T2, bits2), (T3, bits3)]
  | .extract4 T1 bits1 T2 bits2 T3 bits3 T4 bits4 =>
    [(T1, bits1), (T2, bits2), (T3, bits3), (T4, bits4)]
  | .advance _ => []

def skip : Call → ℕ
  | .advance bits => bits
  | _ => 0

def width (c : Call) : ℕ := fieldsWidth c.fields + c.skip

/-- Fields narrower than a word, and advances that keep `bit_ofs + bits`
within an `int` from every bit offset. -/
def Valid (D : Word) (c : Call) : Prop :=
  (∀ f ∈ c.fields, f.2 < D.bits) ∧ c.skip + (D.bits - 1) ≤ intMax

instance (D : Word) (c : Call) : Decidable (c.Valid D) :=
  inferInstanceAs (Decidable (_ ∧ _))

end Call

def totalWidth : List Call → ℕ
  | [] => 0
  | c :: cs => c.width + totalWidth cs

structure Field where
  dest : CType
  pos : ℕ
  width : ℕ

def fieldsAt : ℕ → List (CType × ℕ) → List Field
  | _, [] => []
  | P, (T, w) :: fs => ⟨T, P, w⟩ :: fieldsAt (P + w) fs

def fieldsFrom : ℕ → List Call → List Field
  | _, [] => []
  | P, c :: cs => fieldsAt P c.fields ++ fieldsFrom (P + c.width) cs

variable {D : Word} {M : Type} [MemBuffer D M]

/-- The fields read by direct calls of the pure `extract_bit_range` on the
double word under each accumulated position. -/
def directFields (b : Build) (mem : Mem D) : ℕ → List (CType × ℕ) → Option (List (Extracted D))
  | _, [] => some []
  | P, (T, bits) :: fs => do
    let r ← extractBitRangePure b D (mem (P / D.bits)) (mem (P / D.bits + 1)) (P % D.bits) bits
    let es ← directFields b mem (P + bits) fs
    pure (⟨T, r⟩ :: es)

def directRun (b : Build) (mem : Mem D) : ℕ → List Call → Option (List (Extracted D))
  | _, [] => some []
  | P, c :: cs => do
    let es ← directFields b mem P c.fields
    let es' ← directRun b mem (P + c.width) cs
    pure (es ++ es')

namespace BitExtractor

open BitBuffer

theorem call_eq_extractAll (b : Build) (mem : Mem D) (x : BitExtractor M) (c : Call)
    (hc : ∀ k, c ≠ .advance k) : x.call b mem c = x.extractAll b mem c.fields := by
  cases c with
  | advance k => exact absurd rfl (hc k)
  | _ => simp [call, extract2, extract3, extract4, extractAll, Call.fields, Option.bind_assoc]

variable [LawfulMemBuffer D M]

theorem extract_at (b : Build) {mem : Mem D} {x : BitExtractor M} {P : ℕ} (hx : At mem x.buf P)
    (T : CType) {bits : ℕ} (hbits : bits < D.bits) :
    ∃ x' l, At mem x'.buf (P + bits) ∧ (∀ i ∈ l, i ≤ (P + bits) / D.bits + 1) ∧
      x.extract b mem T bits =
        (extractBitRangePure b D (mem (P / D.bits)) (mem (P / D.bits + 1)) (P % D.bits)
          bits).map fun r => (⟨T, r⟩, x', l) := by
  obtain ⟨s', l, hs', hl, he⟩ := BitBuffer.extract_at b hx hbits
  refine ⟨⟨s'⟩, l, hs', hl, ?_⟩
  simp only [extract, he, Option.bind_eq_bind]
  cases extractBitRangePure b D (mem (P / D.bits)) (mem (P / D.bits + 1)) (P % D.bits) bits <;>
    rfl

theorem extractAll_at (b : Build) {mem : Mem D} (fs : List (CType × ℕ))
    (hv : ∀ f ∈ fs, f.2 < D.bits) {x : BitExtractor M} {P : ℕ} (hx : At mem x.buf P) :
    ∃ x' l, At mem x'.buf (P + fieldsWidth fs) ∧
      (∀ i ∈ l, i ≤ (P + fieldsWidth fs) / D.bits + 1) ∧
      x.extractAll b mem fs = (directFields b mem P fs).map fun es => (es, x', l) := by
  induction fs generalizing x P with
  | nil => exact ⟨x, [], hx, by simp, rfl⟩
  | cons f fs ih =>
    obtain ⟨T, bits⟩ := f
    obtain ⟨x1, l1, hx1, hl1, he1⟩ := extract_at b hx T (hv _ (List.mem_cons_self _ _))
    obtain ⟨x2, l2, hx2, hl2, he2⟩ := ih (fun f hf => hv f (List.mem_cons_of_mem _ hf)) hx1
    have hsum : P + bits + fieldsWidth fs = P + fieldsWidth ((T, bits) :: fs) :=
      Nat.add_assoc _ _ _
    rw [hsum] at hx2 hl2
    refine ⟨x2, l1 ++ l2, hx2, loads_append hl1 hl2 (hsum ▸ Nat.le_add_right _ _), ?_⟩
    · simp only [extractAll, directFields, he1, Option.bind_eq_bind]
      cases extractBitRangePure b D (mem (P / D.bits)) (mem (P / D.bits + 1)) (P % D.bits) bits
      · rfl
      · simp only [Option.map_some', Option.some_bind, he2]
        cases directFields b mem (P + bits) fs <;> rfl

theorem call_at (b : Build) {mem : Mem D} (c : Call) (hv : c.Valid D) {x : BitExtractor M}
    {P : ℕ} (hx : At mem x.buf P) :
    ∃ x' l, At mem x'.buf (P + c.width) ∧ (∀ i ∈ l, i ≤ (P + c.width) / D.bits + 1) ∧
      x.call b mem c = (directFields b mem P c.fields).map fun es => (es, x', l) := by
  by_cases hc : ∀ k, c ≠ .advance k
  · have hw : c.width = fieldsWidth c.fields := by
      cases c <;> simp_all [Call.width, Call.skip]
    obtain ⟨x', l, hx', hl, he⟩ := extractAll_at b c.fields hv.1 hx
    exact ⟨x', l, hw ▸ hx', hw ▸ hl, by rw [call_eq_extractAll b mem x c hc, he]⟩
  · push_neg at hc
    obtain ⟨k, rfl⟩ := hc
    have hk : x.buf.bitOfs + k ≤ intMax := by
      have := Nat.mod_lt P D.bits_pos
      have := hv.2
      simp only [Call.skip] at this
      rw [hx.2.2]
      omega
    obtain ⟨s', l, ha, hs', hl⟩ := advance_at hx k hk
    have hw : (Call.advance k).width = k := by simp [Call.width, Call.fields, fieldsWidth, Call.skip]
    refine ⟨⟨s'⟩, l, by rw [hw]; exact hs', by rw [hw]; exact hl, ?_⟩
    simp [call, BitExtractor.advance, ha, directFields, Call.fields]

theorem run_at (b : Build) {mem : Mem D} (cs : List Call) (hv : ∀ c ∈ cs, c.Valid D)
    {x : BitExtractor M} {P : ℕ} (hx : At mem x.buf P) :
    ∃ x' l, At mem x'.buf (P + totalWidth cs) ∧
      (∀ i ∈ l, i ≤ (P + totalWidth cs) / D.bits + 1) ∧
      x.run b mem cs = (directRun b mem P cs).map fun es => (es, x', l) := by
  induction cs generalizing x P with
  | nil => exact ⟨x, [], hx, by simp, rfl⟩
  | cons c cs ih =>
    obtain ⟨x1, l1, hx1, hl1, he1⟩ := call_at b c (hv c (List.mem_cons_self _ _)) hx
    obtain ⟨x2, l2, hx2, hl2, he2⟩ := ih (fun c hc => hv c (List.mem_cons_of_mem _ hc)) hx1
    have hsum : P + c.width + totalWidth cs = P + totalWidth (c :: cs) := Nat.add_assoc _ _ _
    rw [hsum] at hx2 hl2
    refine ⟨x2, l1 ++ l2, hx2, loads_append hl1 hl2 (hsum ▸ Nat.le_add_right _ _), ?_⟩
    · simp only [run, directRun, he1, Option.bind_eq_bind]
      cases directFields b mem P c.fields
      · rfl
      · simp only [Option.map_some', Option.some_bind, he2]
        cases directRun b mem (P + c.width) cs <;> rfl

end BitExtractor

theorem directFields_x86 (mem : Mem D) (P : ℕ) (fs : List (CType × ℕ))
    (hv : ∀ f ∈ fs, f.2 < D.bits) :
    directFields .x86 mem P fs =
      some ((fieldsAt P fs).map fun f => ⟨f.dest, cursorField mem f.pos f.width⟩) := by
  induction fs generalizing P with
  | nil => rfl
  | cons f fs ih =>
    obtain ⟨T, bits⟩ := f
    simp only [directFields, extractBitRangePure_x86 _ _ _ _ (Nat.mod_lt P D.bits_pos)
      (hv _ (List.mem_cons_self _ _)), ih (P + bits) (fun f hf => hv f (List.mem_cons_of_mem _ hf)),
      Option.bind_eq_bind, Option.some_bind]
    rfl

theorem directRun_x86 (mem : Mem D) (P : ℕ) (cs : List Call) (hv : ∀ c ∈ cs, c.Valid D) :
    directRun .x86 mem P cs =
      some ((fieldsFrom P cs).map fun f => ⟨f.dest, cursorField mem f.pos f.width⟩) := by
  induction cs generalizing P with
  | nil => rfl
  | cons c cs ih =>
    simp only [directRun, directFields_x86 mem P c.fields (hv c (List.mem_cons_self _ _)).1,
      ih (P + c.width) (fun c hc => hv c (List.mem_cons_of_mem _ hc)), Option.bind_eq_bind,
      Option.some_bind, fieldsFrom, List.map_append]
    rfl

theorem width_lt_of_mem_fieldsAt {fs : List (CType × ℕ)} (hv : ∀ f ∈ fs, f.2 < D.bits) {P : ℕ}
    {f : Field} (hf : f ∈ fieldsAt P fs) : f.width < D.bits := by
  induction fs generalizing P with
  | nil => simp [fieldsAt] at hf
  | cons g fs ih =>
    obtain ⟨T, w⟩ := g
    rcases List.mem_cons.1 hf with rfl | hf
    · exact hv _ (List.mem_cons_self _ _)
    · exact ih (fun g hg => hv g (List.mem_cons_of_mem _ hg)) hf

theorem width_lt_of_mem_fieldsFrom {cs : List Call} (hv : ∀ c ∈ cs, c.Valid D) {P : ℕ}
    {f : Field} (hf : f ∈ fieldsFrom P cs) : f.width < D.bits := by
  induction cs generalizing P with
  | nil => simp [fieldsFrom] at hf
  | cons c cs ih =>
    rcases List.mem_append.1 hf with hf | hf
    · exact width_lt_of_mem_fieldsAt (hv c (List.mem_cons_self _ _)).1 hf
    · exact ih (fun c hc => hv c (List.mem_cons_of_mem _ hc)) hf

theorem run_create_x86 (k : MemKind) (mem : Mem D) (cs : List Call)
    (hv : ∀ c ∈ cs, c.Valid D) :
    ∃ x l, (BitExtractor.create (k.Buffer D) mem).1.run .x86 mem cs =
      some ((fieldsFrom 0 cs).map fun f => ⟨f.dest, cursorField mem f.pos f.width⟩, x, l) := by
  obtain ⟨x, l, -, -, he⟩ := BitExtractor.run_at .x86 cs hv
    (x := (BitExtractor.create (k.Buffer D) mem).1) (BitBuffer.create_at mem)
  exact ⟨x, l, by rw [he, directRun_x86 mem 0 cs hv]; rfl⟩

/-- On x86 a run of valid calls from a fresh extractor, over either memory
buffer, completes, and each field it stores is what the direct pointer-form
call reads at the field's accumulated position: `⌊A / 2^P⌋ mod 2^w` for every
prefix `A` of the array that covers the field. -/
theorem extractor_run_direct (k : MemKind) (D : Word) (mem : Mem D) (cs : List Call)
    (hv : ∀ c ∈ cs, c.Valid D) :
    ∃ es x l, (BitExtractor.create (k.Buffer D) mem).1.run .x86 mem cs = some (es, x, l) ∧
      List.Forall₂ (fun e f => e.dest = f.dest ∧
          extractBitRange .x86 D mem (f.pos / D.bits) (f.pos % D.bits) f.width = some e.raw ∧
          ∀ n, f.pos + f.width ≤ n * D.bits →
            e.raw.toNat = wordsValue mem n / 2 ^ f.pos % 2 ^ f.width)
        es (fieldsFrom 0 cs) := by
  obtain ⟨x, l, he⟩ := run_create_x86 k mem cs hv
  refine ⟨_, x, l, he, List.forall₂_map_left_iff.2 (List.forall₂_same.2 fun f hf => ?_)⟩
  have hw := width_lt_of_mem_fieldsFrom hv hf
  refine ⟨rfl, ?_, fun n hn => cursorField_toNat mem _ _ n hw hn⟩
  rw [extractBitRange_spec .x86 mem _ _ _ (Nat.mod_lt _ D.bits_pos) hw]
  rfl

theorem extractor_run_direct_u8 :
    (∀ c ∈ ([.extract2 .schar 5 .uchar 3, .advance 4, .extract .uchar 7] : List Call),
      c.Valid .u8) ∧
      ∃ es x l, (BitExtractor.create (MemKind.buffered.Buffer .u8)
          (fun i => if i = 0 then 0xB5 else 0x3C)).1.run .x86
          (fun i => if i = 0 then 0xB5 else 0x3C)
          [.extract2 .schar 5 .uchar 3, .advance 4, .extract .uchar 7] =
          some (es, x, l) ∧
        List.Forall₂ (fun e f => e.dest = f.dest ∧
            extractBitRange .x86 .u8 (fun i => if i = 0 then 0xB5 else 0x3C) (f.pos / (Word.u8).bits)
              (f.pos % (Word.u8).bits) f.width = some e.raw ∧
            ∀ n, f.pos + f.width ≤ n * (Word.u8).bits →
              e.raw.toNat = wordsValue (D := .u8) (fun i => if i = 0 then 0xB5 else 0x3C) n /
                2 ^ f.pos % 2 ^ f.width)
          es (fieldsFrom 0 [.extract2 .schar 5 .uchar 3, .advance 4, .extract .uchar 7]) :=
  ⟨by decide, extractor_run_direct .buffered .u8 _ _ (by decide)⟩

/-- An `advance` that takes `bit_ofs` past `INT_MAX` overflows the `int`, so
the run is undefined although every width is in range. -/
theorem extractor_advance_overflow :
    (BitExtractor.create (SimpleMemBuffer .u8) (fun _ => 0)).1.run .x86 (fun _ => 0)
      [.extract .uchar 1, .advance intMax, .extract .uchar 1] = none := by
  rfl

/-- Every word a run of valid calls reads, in the buffer's constructor and
after, has index at most `⌊S/W⌋ + 1` for `S` bits consumed; on x86 every such
run completes. -/
theorem extractor_loads_le (b : Build) (k : MemKind) (D : Word) (mem : Mem D) (cs : List Call)
    (hv : ∀ c ∈ cs, c.Valid D) :
    (∀ es x l, (BitExtractor.create (k.Buffer D) mem).1.run b mem cs = some (es, x, l) →
      ∀ i ∈ (BitExtractor.create (k.Buffer D) mem).2 ++ l, i ≤ totalWidth cs / D.bits + 1) ∧
    ((BitExtractor.create (k.Buffer D) mem).1.run .x86 mem cs).isSome := by
  refine ⟨fun es x l hr i hi => ?_, ?_⟩
  · obtain ⟨x', l', -, hl', he⟩ := BitExtractor.run_at b cs hv
      (x := (BitExtractor.create (k.Buffer D) mem).1) (BitBuffer.create_at mem)
    obtain ⟨_, -, hfa⟩ := Option.map_eq_some'.1 (hr ▸ he).symm
    cases hfa
    rw [Nat.zero_add] at hl'
    exact List.forall_mem_append.2 ⟨fun i hi => (LawfulMemBuffer.create_loads (M := k.Buffer D)
      mem i hi).trans (Nat.le_add_left _ _), hl'⟩ i hi
  · obtain ⟨x, l, he⟩ := run_create_x86 k mem cs hv
    rw [he]
    rfl

theorem extractor_loads_le_u16 :
    (∀ c ∈ ([.extract .ushort 12, .advance 20, .extract2 .uint 15 .uchar 1] : List Call),
      c.Valid .u16) ∧
      (∀ es x l, (BitExtractor.create (MemKind.simple.Buffer .u16) (fun _ => 0)).1.run .portable
          (fun _ => 0) [.extract .ushort 12, .advance 20, .extract2 .uint 15 .uchar 1] =
          some (es, x, l) →
        ∀ i ∈ (BitExtractor.create (MemKind.simple.Buffer .u16) (fun _ => 0)).2 ++ l,
          i ≤ totalWidth [.extract .ushort 12, .advance 20, .extract2 .uint 15 .uchar 1] /
            (Word.u16).bits + 1) ∧
      ((BitExtractor.create (MemKind.simple.Buffer .u16) (fun _ => 0)).1.run .x86 (fun _ => 0)
        [.extract .ushort 12, .advance 20, .extract2 .uint 15 .uchar 1]).isSome :=
  ⟨by decide, extractor_loads_le .portable .simple .u16 _ _ (by decide)⟩

/-- The buffered memory buffer loads `next()` after an advance onto a word
boundary: two 4-bit fields in 8-bit words consume one word, and the run reads
word 2, past `⌈S/W⌉ = 1`. -/
theorem extractor_buffered_reads_word_two :
    ∃ es x, (BitExtractor.create (BufferedMemBuffer .u8) (fun _ => 0)).1.run .x86 (fun _ => 0)
        [.extract .uchar 4, .extract .uchar 4] = some (es, x, [2]) ∧
      (totalWidth [.extract .uchar 4, .extract .uchar 4] + (Word.u8).bits - 1) / (Word.u8).bits
        < 2 :=
  ⟨_, _, rfl, by decide⟩

theorem Extracted.stored_of_lt (e : Extracted D) (h : 2 * e.raw.toNat < 2 ^ e.dest.width) :
    e.stored = e.raw.toNat := by
  have hlt : e.raw.toNat < 2 ^ e.dest.width := by omega
  unfold Extracted.stored CType.value CType.assign
  split_ifs
  · rw [BitVec.toInt_eq_toNat_cond, BitVec.toNat_ofNat, Nat.mod_eq_of_lt hlt, if_pos h]
  · rw [BitVec.toNat_ofNat, Nat.mod_eq_of_lt hlt]

/-- `Bit_Extractor::extract` assigns the extracted word and never calls
`fixup_extract`: the 5-bit field `0b10101` lands in a `signed char` as 21,
not as −11. -/
theorem extractor_schar_stores_raw :
    ((BitExtractor.create (SimpleMemBuffer .u8) (fun i => if i = 0 then 21 else 0)).1.run .x86
      (fun i => if i = 0 then 21 else 0) [.extract .schar 5]).map
      (fun r => r.1.map Extracted.stored) = some [21] := by
  decide

end BitCodec.Extractor
