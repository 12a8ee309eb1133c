import BitCodec.MachineWord

/-!
# Memory buffers

`Simple_Mem_Buffer` and `Buffered_Mem_Buffer`, the two views `Bit_Buffer`
takes of the word array: `curr()` and `next()` for the words at the `data`
pointer, and `+=` to move it. Every operation also returns the indices of
the words it loads. `LawfulMemBuffer` says what `Bit_Buffer` relies on: the
two words a buffer shows are those at `data`, and no load lies more than
one word past where `data` ends up.
-/

set_option autoImplicit false

namespace BitCodec.Buffers
open BitCodec.MachineWord

/-- The interface `Bit_Buffer` uses of its `MemBuf` parameter. -/
class MemBuffer (D : outParam Word) (M : Type) where
  /-- The constructor, on the first word of the array. -/
  create : Mem D → M × List ℕ
  curr : Mem D → M → Data D × List ℕ
  next : Mem D → M → Data D × List ℕ
  /-- `operator += (int offset)`. -/
  addAssign : Mem D → M → ℕ → M × List ℕ
  /-- The `data` pointer. -/
  data : M → ℕ

open MemBuffer

variable {D : Word} {M : Type}

/-- The buffer shows the two words at its `data` pointer. -/
def Coherent [MemBuffer D M] (mem : Mem D) (m : M) : Prop :=
  (curr mem m).1 = mem (data m) ∧ (next mem m).1 = mem (data m + 1)

class LawfulMemBuffer (D : outParam Word) (M : Type) [MemBuffer D M] : Prop where
  create_data : ∀ mem : Mem D, data (create mem : M × List ℕ).1 = 0
  create_coherent : ∀ mem : Mem D, Coherent mem (create mem : M × List ℕ).1
  create_loads : ∀ mem : Mem D, ∀ i ∈ (create mem : M × List ℕ).2, i ≤ 1
  curr_loads : ∀ (mem : Mem D) (m : M), ∀ i ∈ (curr mem m).2, i ≤ data m + 1
  next_loads : ∀ (mem : Mem D) (m : M), ∀ i ∈ (next mem m).2, i ≤ data m + 1
  addAssign_data : ∀ (mem : Mem D) (m : M) (k : ℕ), data (addAssign mem m k).1 = data m + k
  addAssign_coherent : ∀ (mem : Mem D) (m : M) (k : ℕ), Coherent mem m →
    Coherent mem (addAssign mem m k).1
  addAssign_loads : ∀ (mem : Mem D) (m : M) (k : ℕ), ∀ i ∈ (addAssign mem m k).2,
    i ≤ data m + k + 1

/-- `Simple_Mem_Buffer`: every `curr()` and `next()` dereferences `data`. -/
structure SimpleMemBuffer (D : Word) where
  data : ℕ

instance (D : Word) : MemBuffer D (SimpleMemBuffer D) where
  create _ := (⟨0⟩, [])
  curr mem b := (mem b.data, [b.data])
  next mem b := (mem (b.data + 1), [b.data + 1])
  addAssign _ b offset := (⟨b.data + offset⟩, [])
  data b := b.data

theorem SimpleMemBuffer.curr_loads (mem : Mem D) (b : SimpleMemBuffer D) :
    ∀ i ∈ (curr mem b).2, i ≤ data b + 1 := fun i hi => by
  rw [List.mem_singleton.1 hi]
  exact Nat.le_succ _

theorem SimpleMemBuffer.next_loads (mem : Mem D) (b : SimpleMemBuffer D) :
    ∀ i ∈ (next mem b).2, i ≤ data b + 1 := fun i hi => by
  rw [List.mem_singleton.1 hi]

instance (D : Word) : LawfulMemBuffer D (SimpleMemBuffer D) where
  create_data _ := rfl
  create_coherent _ := ⟨rfl, rfl⟩
  create_loads _ _ hi := absurd hi (List.not_mem_nil _)
  curr_loads := SimpleMemBuffer.curr_loads
  next_loads := SimpleMemBuffer.next_loads
  addAssign_data _ _ _ := rfl
  addAssign_coherent _ _ _ _ := ⟨rfl, rfl⟩
  addAssign_loads _ _ _ _ hi := absurd hi (List.not_mem_nil _)

/-- `Buffered_Mem_Buffer`: the two words last loaded, `b0` and `b1`. -/
structure BufferedMemBuffer (D : Word) where
  data : ℕ
  b0 : Data D
  b1 : Data D

namespace BufferedMemBuffer

def create (mem : Mem D) : BufferedMemBuffer D × List ℕ := (⟨0, mem 0, mem 1⟩, [0, 1])

/-- `operator += (int offset)`: `b0` is reloaded only for an offset past
one, `b1` for every nonzero offset. -/
def addAssign (mem : Mem D) (b : BufferedMemBuffer D) (offset : ℕ) :
    BufferedMemBuffer D × List ℕ :=
  let data := b.data + offset
  let (b0, l0) := if offset = 0 then (b.b0, []) else if offset = 1 then (b.b1, [])
    else (mem data, [data])
  let (b1, l1) := if offset = 0 then (b.b1, []) else (mem (data + 1), [data + 1])
  (⟨data, b0, b1⟩, l0 ++ l1)

/-- `operator ++ (int)`. -/
def postIncrement (mem : Mem D) (b : BufferedMemBuffer D) : BufferedMemBuffer D × List ℕ :=
  (⟨b.data, b.b1, mem (b.data + 1)⟩, [b.data + 1])

end BufferedMemBuffer

instance (D : Word) : MemBuffer D (BufferedMemBuffer D) where
  create := BufferedMemBuffer.create
  curr _ b := (b.b0, [])
  next _ b := (b.b1, [])
  addAssign := BufferedMemBuffer.addAssign
  data b := b.data

theorem BufferedMemBuffer.coherent_iff (mem : Mem D) (b : BufferedMemBuffer D) :
    Coherent mem b ↔ b.b0 = mem b.data ∧ b.b1 = mem (b.data + 1) := Iff.rfl

namespace BufferedMemBuffer

theorem create_loads (mem : Mem D) : ∀ i ∈ (create mem).2, i ≤ 1 := fun i hi => by
  rcases List.mem_cons.1 hi with rfl | hi
  · exact Nat.zero_le _
  · rw [List.mem_singleton.1 hi]

theorem addAssign_data (mem : Mem D) (b : BufferedMemBuffer D) (k : ℕ) :
    (addAssign mem b k).1.data = b.data + k := by
  simp only [addAssign]

theorem addAssign_coherent (mem : Mem D) (b : BufferedMemBuffer D) (k : ℕ)
    (h : Coherent mem b) : Coherent mem (addAssign mem b k).1 := by
  rw [coherent_iff] at h ⊢
  simp only [addAssign]
  split_ifs with h0 h1
  · simp [h0, h]
  · simp [h1, h.2]
  · simp

theorem addAssign_loads (mem : Mem D) (b : BufferedMemBuffer D) (k : ℕ) :
    ∀ i ∈ (addAssign mem b k).2, i ≤ b.data + k + 1 := by
  simp only [addAssign]
  split_ifs <;> simp

end BufferedMemBuffer

instance (D : Word) : LawfulMemBuffer D (BufferedMemBuffer D) where
  create_data _ := rfl
  create_coherent _ := ⟨rfl, rfl⟩
  create_loads := BufferedMemBuffer.create_loads
  curr_loads _ _ _ hi := absurd hi (List.not_mem_nil _)
  next_loads _ _ _ hi := absurd hi (List.not_mem_nil _)
  addAssign_data := BufferedMemBuffer.addAssign_data
  addAssign_coherent := BufferedMemBuffer.addAssign_coherent
  addAssign_loads := BufferedMemBuffer.addAssign_loads

def offsetTotal : List ℕ → ℕ
  | [] => 0
  | k :: ks => k + offsetTotal ks

def addAll [MemBuffer D M] (mem : Mem D) : M → List ℕ → M
  | m, [] => m
  | m, k :: ks => addAll mem (addAssign mem m k).1 ks

theorem addAll_coherent [MemBuffer D M] [LawfulMemBuffer D M] (mem : Mem D) (ks : List ℕ)
    {m : M} (h : Coherent mem m) :
    Coherent mem (addAll mem m ks) ∧ data (addAll mem m ks) = data m + offsetTotal ks := by
  induction ks generalizing m with
  | nil => exact ⟨h, rfl⟩
  | cons k ks ih =>
    obtain ⟨hc, hd⟩ := ih (LawfulMemBuffer.addAssign_coherent mem m k h)
    refine ⟨hc, ?_⟩
    rw [addAll, hd, LawfulMemBuffer.addAssign_data, offsetTotal, Nat.add_assoc]

theorem addAll_create [MemBuffer D M] [LawfulMemBuffer D M] (mem : Mem D) (ks : List ℕ) :
    (curr mem (addAll mem (create mem : M × List ℕ).1 ks)).1 = mem (offsetTotal ks) ∧
      (next mem (addAll mem (create mem : M × List ℕ).1 ks)).1 = mem (offsetTotal ks + 1) := by
  obtain ⟨⟨hc, hn⟩, hd⟩ := addAll_coherent mem ks (LawfulMemBuffer.create_coherent (M := M) mem)
  rw [LawfulMemBuffer.create_data, Nat.zero_add] at hd
  rw [hc, hn, hd]
  exact ⟨rfl, rfl⟩

/-- `Simple_Mem_Buffer` and `Buffered_Mem_Buffer` built on the same array and
moved by the same offsets, every prefix of a sequence being a sequence of its
own, show the same `curr()` and `next()`: the words at the total offset. -/
theorem simple_buffered_agree (D : Word) (mem : Mem D) (ks : List ℕ) :
    (curr mem (addAll mem (create mem : SimpleMemBuffer D × List ℕ).1 ks)).1 =
        mem (offsetTotal ks) ∧
      (curr mem (addAll mem (create mem : BufferedMemBuffer D × List ℕ).1 ks)).1 =
        mem (offsetTotal ks) ∧
      (next mem (addAll mem (create mem : SimpleMemBuffer D × List ℕ).1 ks)).1 =
        mem (offsetTotal ks + 1) ∧
      (next mem (addAll mem (create mem : BufferedMemBuffer D × List ℕ).1 ks)).1 =
        mem (offsetTotal ks + 1) :=
  ⟨(addAll_create mem ks).1, (addAll_create mem ks).1, (addAll_create mem ks).2,
    (addAll_create mem ks).2⟩

theorem BufferedMemBuffer.postIncrement_of_coherent (mem : Mem D) (b : BufferedMemBuffer D)
    (h : Coherent mem b) :
    (BufferedMemBuffer.postIncrement mem b).1 = ⟨b.data, mem (b.data + 1), mem (b.data + 1)⟩ ∧
      (BufferedMemBuffer.addAssign mem b 1).1 = ⟨b.data + 1, mem (b.data + 1), mem (b.data + 2)⟩ := by
  rw [BufferedMemBuffer.coherent_iff] at h
  simp [BufferedMemBuffer.postIncrement, BufferedMemBuffer.addAssign, h.2]

/-- `operator++(int)` moves `b1` into `b0` but reloads `b1` from `data[1]`
without moving `data`: on the array `a[i] = i`, right after construction,
`next()` is 1 after `x++` and 2 after `x += 1`. -/
theorem postIncrement_next_differs :
    (next (D := .u8) (fun i => BitVec.ofNat 8 i)
        (BufferedMemBuffer.postIncrement (D := .u8) (fun i => BitVec.ofNat 8 i)
          (BufferedMemBuffer.create (D := .u8) fun i => BitVec.ofNat 8 i).1).1).1 = 1 ∧
      (next (D := .u8) (fun i => BitVec.ofNat 8 i)
        (BufferedMemBuffer.addAssign (D := .u8) (fun i => BitVec.ofNat 8 i)
          (BufferedMemBuffer.create (D := .u8) fun i => BitVec.ofNat 8 i).1 1).1).1 = 2 := by
  decide

/-- The memory buffer a `Bit_Buffer` is instantiated with. -/
inductive MemKind where
  | simple
  | buffered
  deriving DecidableEq, Repr

def MemKind.Buffer : MemKind → Word → Type
  | .simple, D => SimpleMemBuffer D
  | .buffered, D => BufferedMemBuffer D

instance MemKind.instMemBuffer (k : MemKind) (D : Word) : MemBuffer D (k.Buffer D) :=
  match k with
  | .simple => inferInstanceAs (MemBuffer D (SimpleMemBuffer D))
  | .buffered => inferInstanceAs (MemBuffer D (BufferedMemBuffer D))

instance MemKind.instLawful (k : MemKind) (D : Word) : LawfulMemBuffer D (k.Buffer D) :=
  match k with
  | .simple => inferInstanceAs (LawfulMemBuffer D (SimpleMemBuffer D))
  | .buffered => inferInstanceAs (LawfulMemBuffer D (BufferedMemBuffer D))

end BitCodec.Buffers
