import BitCodec.Cursors

/-!
# The cursor as a stream position, and what each memory buffer loads

What a `Bit_Buffer` call does depends only on the stream position that its
word pointer and `bit_ofs` stand for. `cursorRun` is that position-only
cursor, and every run of a `Bit_Buffer` over a memory buffer that keeps the
`MemBuf` contract computes it, on either build and for calls of any width.
The array here has no end, so what separates `Simple_Mem_Buffer` from
`Buffered_Mem_Buffer` on a real array is the words each loads.
`Buffered_Mem_Buffer` loads the word after the cursor ahead of use and reads
each word at most once, in increasing order; every word `Simple_Mem_Buffer`
dereferences is one it loaded, so a buffered run that stays within an array
is matched there by the simple one. The converse fails: a whole-word
`advance` makes the buffered cursor load the next word, which the simple one
never touches.
-/

set_option autoImplicit false

namespace BitCodec.CursorModel
open BitCodec.MachineWord BitCodec.BitRange BitCodec.Buffers BitCodec.Extractor
open BitCodec.Cursors MemBuffer

variable {D : Word}

/-- One call of the position-only cursor at stream position `P`: `bit_ofs`
is `P mod W`, and `bit_ofs + bits` past `INT_MAX` is undefined. -/
def cursorCall (b : Build) (mem : Mem D) (P : ℕ) : BufferCall → Option (List (Data D) × ℕ)
  | .extract bits =>
    if intMax < P % D.bits + bits then none
    else (extractBitRangePure b D (mem (P / D.bits)) (mem (P / D.bits + 1)) (P % D.bits)
      bits).map fun r => ([r], P + bits)
  | .advance bits => if intMax < P % D.bits + bits then none else some ([], P + bits)

/-- A sequence of calls of the position-only cursor: the words extracted and
the final position. -/
def cursorRun (b : Build) (mem : Mem D) : ℕ → List BufferCall → Option (List (Data D) × ℕ)
  | P, [] => some ([], P)
  | P, c :: cs => do
    let (es, Q) ← cursorCall b mem P c
    let (es', R) ← cursorRun b mem Q cs
    pure (es ++ es', R)

variable {M : Type} [MemBuffer D M]

def position (s : BitBuffer M) : ℕ := data s.data * D.bits + s.bitOfs

theorem position_of_at {mem : Mem D} {s : BitBuffer M} {P : ℕ} (hs : BitBuffer.At mem s P) :
    position s = P := by
  rw [position, hs.2.1, hs.2.2, Nat.div_add_mod']

variable [LawfulMemBuffer D M]

theorem advance_refines {mem : Mem D} {s : BitBuffer M} {P : ℕ} (hs : BitBuffer.At mem s P)
    (k : ℕ) : (s.advance mem k).map (fun r => position r.1) =
      if intMax < P % D.bits + k then none else some (P + k) := by
  split_ifs with hk
  · simp [BitBuffer.advance, hs.2.2, hk]
  · obtain ⟨s', l, ha, hs', -⟩ := BitBuffer.advance_at hs k (by rw [hs.2.2]; omega)
    rw [ha, Option.map_some', position_of_at hs']

theorem call_refines (b : Build) {mem : Mem D} {s : BitBuffer M} {P : ℕ}
    (hs : BitBuffer.At mem s P) (c : BufferCall) :
    (s.call b mem c).map (fun r => (r.1, position r.2.1)) = cursorCall b mem P c := by
  have ha := advance_refines hs c.bits
  obtain ⟨⟨hc, hn⟩, hd, ho⟩ := hs
  cases c with
  | extract bits =>
    simp only [BitBuffer.call, cursorCall, BufferCall.bits, Option.map_map] at ha ⊢
    rw [BitBuffer.extract_eq, hc, hn, hd, ho]
    split_ifs at ha ⊢ <;>
      cases extractBitRangePure b D (mem (P / D.bits)) (mem (P / D.bits + 1)) (P % D.bits) bits <;>
      cases h : s.advance mem bits <;> simp_all
  | advance k =>
    simp only [BitBuffer.call, cursorCall, BufferCall.bits, Option.map_map] at ha ⊢
    split_ifs at ha ⊢ <;> cases h : s.advance mem k <;> simp_all

theorem run_refines (b : Build) {mem : Mem D} (cs : List BufferCall) {s : BitBuffer M} {P : ℕ}
    (hs : BitBuffer.At mem s P) :
    (s.run b mem cs).map (fun r => (r.1, position r.2.1)) = cursorRun b mem P cs := by
  induction cs generalizing s P with
  | nil => simp [BitBuffer.run, cursorRun, position_of_at hs]
  | cons c cs ih =>
    have hc := call_refines b hs c
    cases h : s.call b mem c with
    | none =>
      rw [h] at hc
      simp [BitBuffer.run, cursorRun, h, ← hc]
    | some r =>
      obtain ⟨es, s1, l1⟩ := r
      have hs1 := call_some_at b hs h
      rw [h, Option.map_some'] at hc
      simp only [BitBuffer.run, cursorRun, h, ← hc, position_of_at hs1, Option.bind_eq_bind,
        Option.some_bind, ← ih hs1]
      cases s1.run b mem cs <;> rfl

theorem advance_some_eq {M : Type} [MemBuffer D M] {mem : Mem D} {s s' : BitBuffer M} {k : ℕ}
    {l : List ℕ} (h : s.advance mem k = some (s', l)) :
    s'.data = (addAssign mem s.data ((s.bitOfs + k) / D.bits)).1 ∧
      l = (addAssign mem s.data ((s.bitOfs + k) / D.bits)).2 := by
  simp only [BitBuffer.advance] at h
  split_ifs at h
  generalize addAssign mem s.data ((s.bitOfs + k) / D.bits) = p at h ⊢
  obtain ⟨m, ls⟩ := p
  cases h
  exact ⟨rfl, rfl⟩

theorem call_advance (b : Build) {M : Type} [MemBuffer D M] {mem : Mem D} {s s' : BitBuffer M}
    {c : BufferCall} {es : List (Data D)} {l : List ℕ} (h : s.call b mem c = some (es, s', l)) :
    ∃ l0 l1, s.advance mem c.bits = some (s', l1) ∧ l = l0 ++ l1 ∧
      ∀ i ∈ l0, i ∈ (curr mem s.data).2 ++ (next mem s.data).2 := by
  cases c with
  | extract bits =>
    rw [BitBuffer.call, BitBuffer.extract_eq] at h
    obtain ⟨⟨r, s1, l1⟩, hr, hfr⟩ := Option.map_eq_some'.1 h
    obtain ⟨_, -, hp⟩ := Option.bind_eq_some.1 hr
    obtain ⟨⟨s2, l2⟩, ha, hfp⟩ := Option.map_eq_some'.1 hp
    cases hfr
    cases hfp
    exact ⟨_, l2, ha, rfl, fun i hi => hi⟩
  | advance k =>
    obtain ⟨⟨s1, l1⟩, ha, hfr⟩ := Option.map_eq_some'.1 h
    cases hfr
    exact ⟨[], _, ha, rfl, fun i hi => absurd hi (List.not_mem_nil i)⟩

theorem simple_call_loads (b : Build) {mem : Mem D} {s s' : BitBuffer (SimpleMemBuffer D)}
    {c : BufferCall} {es : List (Data D)} {l : List ℕ} (h : s.call b mem c = some (es, s', l)) :
    ∀ i ∈ l, i = s.data.data ∨ i = s.data.data + 1 := by
  obtain ⟨l0, l1, ha, rfl, h0⟩ := call_advance b h
  obtain rfl : l1 = [] := (advance_some_eq ha).2
  intro i hi
  rcases List.mem_append.1 (h0 i (List.append_nil l0 ▸ hi)) with hi | hi
  exacts [Or.inl (List.mem_singleton.1 hi), Or.inr (List.mem_singleton.1 hi)]

theorem buffered_call_advance (b : Build) {mem : Mem D}
    {s s' : BitBuffer (BufferedMemBuffer D)} {c : BufferCall} {es : List (Data D)}
    {l : List ℕ} (h : s.call b mem c = some (es, s', l)) : s.advance mem c.bits = some (s', l) := by
  obtain ⟨l0, l1, ha, rfl, h0⟩ := call_advance b h
  rwa [List.eq_nil_iff_forall_not_mem.2 fun i hi => absurd (h0 i hi) (List.not_mem_nil i),
    List.nil_append]

/-- Both words `Buffered_Mem_Buffer` holds are among the words loaded. -/
def Covers (m : BufferedMemBuffer D) (L : List ℕ) : Prop := m.data ∈ L ∧ m.data + 1 ∈ L

theorem addAssign_covers (mem : Mem D) {m : BufferedMemBuffer D} {L : List ℕ} (h : Covers m L)
    (k : ℕ) : Covers (BufferedMemBuffer.addAssign mem m k).1
      (L ++ (BufferedMemBuffer.addAssign mem m k).2) := by
  obtain ⟨h0, h1⟩ := h
  simp only [BufferedMemBuffer.addAssign, Covers]
  split_ifs <;> simp_all

theorem call_covers (b : Build) {mem : Mem D} {s s' : BitBuffer (BufferedMemBuffer D)}
    {c : BufferCall} {es : List (Data D)} {L l : List ℕ} (hL : Covers s.data L)
    (h : s.call b mem c = some (es, s', l)) : Covers s'.data (L ++ l) := by
  obtain ⟨hd, hl⟩ := advance_some_eq (buffered_call_advance b h)
  rw [hd, hl]
  exact addAssign_covers mem hL _

theorem run_loads_covered (b : Build) {mem : Mem D} (cs : List BufferCall)
    {s s' : BitBuffer (SimpleMemBuffer D)} {m m' : BitBuffer (BufferedMemBuffer D)} {P : ℕ}
    {L ls l : List ℕ} {es es' : List (Data D)} (hs : BitBuffer.At mem s P)
    (hm : BitBuffer.At mem m P) (hL : Covers m.data L) (hS : s.run b mem cs = some (es, s', ls))
    (hB : m.run b mem cs = some (es', m', l)) : ∀ i ∈ ls, i ∈ L ++ l := by
  induction cs generalizing s m P L es es' ls l with
  | nil =>
    cases hS
    exact fun i hi => absurd hi (List.not_mem_nil i)
  | cons c cs ih =>
    simp only [BitBuffer.run, Option.bind_eq_bind] at hS hB
    obtain ⟨⟨es1, s1, ls1⟩, hS1, hS⟩ := Option.bind_eq_some.1 hS
    obtain ⟨⟨es2, s2, ls2⟩, hS2, hS⟩ := Option.bind_eq_some.1 hS
    obtain ⟨⟨es1', m1, l1⟩, hB1, hB⟩ := Option.bind_eq_some.1 hB
    obtain ⟨⟨es2', m2, l2⟩, hB2, hB⟩ := Option.bind_eq_some.1 hB
    cases hS
    cases hB
    have hd : s.data.data = m.data.data := hs.2.1.trans hm.2.1.symm
    intro i hi
    rcases List.mem_append.1 hi with hi | hi
    · rcases simple_call_loads b hS1 i hi with rfl | rfl <;> rw [hd]
      exacts [List.mem_append_left _ hL.1, List.mem_append_left _ hL.2]
    · rw [← List.append_assoc]
      exact ih (call_some_at b hs hS1) (call_some_at b hm hB1) (call_covers b hL hB1) hS2 hB2 i hi

/-- On either build and for calls of any width, wherever a `Bit_Buffer` over
`Buffered_Mem_Buffer` completes a run from construction, one over
`Simple_Mem_Buffer` on the same array completes the same run with the same
words, ends at the same position, and dereferences only words the buffered
one loaded. -/
theorem simple_loads_within_buffered (b : Build) (D : Word) (mem : Mem D) (cs : List BufferCall)
    {es : List (Data D)} {s : BitBuffer (BufferedMemBuffer D)} {l : List ℕ}
    (h : (BitBuffer.create (BufferedMemBuffer D) mem).1.run b mem cs = some (es, s, l)) :
    ∃ s' l', (BitBuffer.create (SimpleMemBuffer D) mem).1.run b mem cs = some (es, s', l') ∧
      position s' = position s ∧
      ∀ i ∈ (BitBuffer.create (SimpleMemBuffer D) mem).2 ++ l',
        i ∈ (BitBuffer.create (BufferedMemBuffer D) mem).2 ++ l := by
  have hB := run_refines b cs (BitBuffer.create_at (M := BufferedMemBuffer D) mem)
  have hS := run_refines b cs (BitBuffer.create_at (M := SimpleMemBuffer D) mem)
  rw [h, Option.map_some', ← hS] at hB
  obtain ⟨⟨es', s', l'⟩, hs', hf⟩ := Option.map_eq_some'.1 hB.symm
  obtain ⟨rfl, hp⟩ := Prod.mk.inj hf
  refine ⟨s', l', hs', hp, fun i hi => ?_⟩
  have hc : Covers (BitBuffer.create (BufferedMemBuffer D) mem).1.data
      (BitBuffer.create (BufferedMemBuffer D) mem).2 :=
    ⟨List.mem_cons_self 0 [1], List.mem_cons_of_mem 0 (List.mem_singleton_self 1)⟩
  exact run_loads_covered b cs (BitBuffer.create_at mem) (BitBuffer.create_at mem) hc hs' h i
    (List.nil_append l' ▸ hi)

theorem simple_loads_within_buffered_u8 :
    ∃ s' l', (BitBuffer.create (D := .u8) (SimpleMemBuffer .u8)
        fun i => BitVec.ofNat 8 (37 * i + 11)).1.run (D := .u8)
        .x86 (fun i => BitVec.ofNat 8 (37 * i + 11)) [.extract 5, .advance 8] = some ([11], s', l') ∧
      position s' = position (⟨⟨1, 48, 85⟩, 5⟩ : BitBuffer (BufferedMemBuffer .u8)) ∧
      ∀ i ∈ (BitBuffer.create (D := .u8) (SimpleMemBuffer .u8)
        fun i => BitVec.ofNat 8 (37 * i + 11)).2 ++ l',
        i ∈ [0, 1] ++ [2] :=
  simple_loads_within_buffered .x86 .u8 _ [.extract 5, .advance 8] rfl

/-- A whole-word `advance` loads the next word over `Buffered_Mem_Buffer`
and nothing over `Simple_Mem_Buffer`. -/
example :
    ((BitBuffer.create (SimpleMemBuffer .u8) fun _ => 0).1.run .x86 (fun _ => 0)
        [.advance 8]).map (·.2.2) = some [] ∧
      ((BitBuffer.create (BufferedMemBuffer .u8) fun _ => 0).1.run .x86 (fun _ => 0)
        [.advance 8]).map (·.2.2) = some [2] :=
  ⟨rfl, rfl⟩

/-- The `Bit_Buffer` at stream position `P`: word pointer `P / W`,
`bit_ofs = P mod W`, and for `Buffered_Mem_Buffer` the two words there. -/
def stateAt (mem : Mem D) (P : ℕ) : (k : MemKind) → BitBuffer (k.Buffer D)
  | .simple => ⟨(⟨P / D.bits⟩ : SimpleMemBuffer D), P % D.bits⟩
  | .buffered =>
    ⟨(⟨P / D.bits, mem (P / D.bits), mem (P / D.bits + 1)⟩ : BufferedMemBuffer D), P % D.bits⟩

theorem eq_stateAt (k : MemKind) {mem : Mem D} {s : BitBuffer (k.Buffer D)} {P : ℕ}
    (hs : BitBuffer.At mem s P) : s = stateAt mem P k := by
  cases k with
  | simple =>
    obtain ⟨⟨d⟩, o⟩ := s
    obtain ⟨-, hd, ho⟩ := hs
    change d = P / D.bits at hd
    change o = P % D.bits at ho
    subst hd ho
    rfl
  | buffered =>
    obtain ⟨⟨d, b0, b1⟩, o⟩ := s
    obtain ⟨⟨hc, hn⟩, hd, ho⟩ := hs
    change b0 = mem d at hc
    change b1 = mem (d + 1) at hn
    change d = P / D.bits at hd
    change o = P % D.bits at ho
    subst hc hn hd ho
    rfl

/-- After every run from construction that completes, the `Bit_Buffer` is
the state at the number of bits the run consumed, whatever its calls were:
two runs that consume as many bits leave the same cursor. -/
theorem run_state_eq_stateAt (b : Build) (k : MemKind) (D : Word) (mem : Mem D)
    (cs : List BufferCall) {es : List (Data D)} {s : BitBuffer (k.Buffer D)} {l : List ℕ}
    (h : (BitBuffer.create (k.Buffer D) mem).1.run b mem cs = some (es, s, l)) :
    s = stateAt mem (consumed cs) k :=
  eq_stateAt k (run_create_at b mem h)

theorem run_state_eq_stateAt_u8 :
    (⟨(⟨2, 2, 3⟩ : BufferedMemBuffer .u8), 2⟩ : BitBuffer (MemKind.buffered.Buffer .u8)) =
      stateAt (D := .u8) (fun i => BitVec.ofNat 8 i) (consumed [.extract 3, .advance 9, .extract 6])
        .buffered :=
  run_state_eq_stateAt .x86 .buffered .u8 _ [.extract 3, .advance 9, .extract 6] rfl

/-- The words loaded so far are increasing, and none is past the word after
`data`. -/
def LoadsBefore (m : BufferedMemBuffer D) (l : List ℕ) : Prop :=
  l.Pairwise (· < ·) ∧ ∀ i ∈ l, i ≤ m.data + 1

theorem addAssign_loadsBefore (mem : Mem D) {m : BufferedMemBuffer D} {l : List ℕ}
    (h : LoadsBefore m l) (k : ℕ) :
    LoadsBefore (BufferedMemBuffer.addAssign mem m k).1
      (l ++ (BufferedMemBuffer.addAssign mem m k).2) := by
  obtain ⟨hp, hb⟩ := h
  by_cases h0 : k = 0
  · subst h0
    simpa [BufferedMemBuffer.addAssign, LoadsBefore] using ⟨hp, hb⟩
  simp only [BufferedMemBuffer.addAssign, LoadsBefore, if_neg h0]
  split_ifs with h1
  all_goals
    simp only [List.nil_append, List.singleton_append, List.pairwise_append, List.pairwise_cons,
      List.mem_append, List.mem_cons, List.mem_singleton, List.not_mem_nil, List.Pairwise.nil]
    refine ⟨⟨hp, by simp, fun a ha i hi => ?_⟩, fun i hi => ?_⟩
  all_goals simp only [or_false] at hi
  all_goals first
    | exact lt_of_le_of_lt (hb a ha) (by omega)
    | (rcases hi with hi | hi
       exacts [le_trans (hb i hi) (by omega), by omega])

theorem call_loadsBefore (b : Build) {mem : Mem D} {s s' : BitBuffer (BufferedMemBuffer D)}
    {c : BufferCall} {es : List (Data D)} {l l' : List ℕ} (hl : LoadsBefore s.data l)
    (h : s.call b mem c = some (es, s', l')) : LoadsBefore s'.data (l ++ l') := by
  obtain ⟨hd, hl'⟩ := advance_some_eq (buffered_call_advance b h)
  rw [hd, hl']
  exact addAssign_loadsBefore mem hl _

theorem run_loadsBefore (b : Build) {mem : Mem D} (cs : List BufferCall)
    {s s' : BitBuffer (BufferedMemBuffer D)} {es : List (Data D)} {l l' : List ℕ}
    (hl : LoadsBefore s.data l) (h : s.run b mem cs = some (es, s', l')) :
    LoadsBefore s'.data (l ++ l') := by
  induction cs generalizing s l es l' with
  | nil =>
    cases h
    simpa using hl
  | cons c cs ih =>
    simp only [BitBuffer.run, Option.bind_eq_bind] at h
    obtain ⟨⟨es1, s1, l1⟩, h1, h⟩ := Option.bind_eq_some.1 h
    obtain ⟨⟨es2, s2, l2⟩, h2, h⟩ := Option.bind_eq_some.1 h
    cases h
    rw [← List.append_assoc]
    exact ih (call_loadsBefore b hl h1) h2

theorem length_le_of_loadsBefore {m : BufferedMemBuffer D} {l : List ℕ} (h : LoadsBefore m l) :
    l.length ≤ m.data + 2 := by
  have hsub : l ⊆ List.range (m.data + 2) := fun i hi =>
    List.mem_range.2 (Nat.lt_succ_of_le (h.2 i hi))
  simpa using (List.subperm_of_subset (h.1.imp ne_of_lt) hsub).length_le

/-- Through every run of a `Bit_Buffer` over `Buffered_Mem_Buffer` from
construction, on either build and for calls of any width, the words loaded by
the constructor and by every `+=` have strictly increasing indices: no word
is read twice, and a run that consumes `S` bits reads at most `S / W + 2`
words. -/
theorem buffered_loads_increasing (b : Build) (D : Word) (mem : Mem D) (cs : List BufferCall)
    {es : List (Data D)} {s : BitBuffer (BufferedMemBuffer D)} {l : List ℕ}
    (h : (BitBuffer.create (BufferedMemBuffer D) mem).1.run b mem cs = some (es, s, l)) :
    ((BitBuffer.create (BufferedMemBuffer D) mem).2 ++ l).Pairwise (· < ·) ∧
      ((BitBuffer.create (BufferedMemBuffer D) mem).2 ++ l).length ≤
        consumed cs / D.bits + 2 := by
  have h0 : LoadsBefore (BitBuffer.create (BufferedMemBuffer D) mem).1.data
      (BitBuffer.create (BufferedMemBuffer D) mem).2 :=
    ⟨by simp [BitBuffer.create, MemBuffer.create, BufferedMemBuffer.create], fun i hi => by
      simpa [BitBuffer.create, MemBuffer.create, BufferedMemBuffer.create] using
        BufferedMemBuffer.create_loads mem i hi⟩
  have hl := run_loadsBefore b cs h0 h
  have hd : s.data.data = consumed cs / D.bits := (run_create_at b mem h).2.1
  exact ⟨hl.1, hd ▸ length_le_of_loadsBefore hl⟩

theorem buffered_loads_increasing_u8 :
    ([0, 1] ++ [2, 3] : List ℕ).Pairwise (· < ·) ∧
      ([0, 1] ++ [2, 3] : List ℕ).length ≤
        consumed [.extract 3, .advance 9, .extract 6] / 8 + 2 :=
  buffered_loads_increasing .x86 .u8 (fun i => BitVec.ofNat 8 i)
    [.extract 3, .advance 9, .extract 6] rfl

end BitCodec.CursorModel
