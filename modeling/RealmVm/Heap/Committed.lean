import RealmVm.Heap.HeapRuns

/-! Which memory the heaps use, and which the break has committed. -/
namespace RealmVm

open Lib

/- Any size may be asked for, and any address given back. -/
inductive HeapOp where
  | malloc (shared : Bool) (size : Word)
  | free (shared : Bool) (addr : Word)

def HeapOp.step (s : HeapHistory) (op : HeapOp) (s' : HeapHistory) : Prop :=
  match op with
  | .malloc shared size => ∃ p m' h',
      Returns (fun fuel => RealmVm.malloc fuel shared s.mem (s.heap shared) size) (p, m', h') ∧
      s' = ⟨m', Function.update s.heap shared h', if p = 0 then s.live else ⟨shared, p, size⟩ :: s.live⟩
  | .free shared addr => ∃ m', Returns (fun fuel => RealmVm.free fuel s.mem (s.heap shared) addr) m' ∧
      s' = ⟨m', s.heap, s.live.filter fun b => ¬ (b.shared = shared ∧ b.address = addr)⟩

/-- Between the base and the break. -/
def HeapBreak.Inside (b : HeapBreak) (lo hi : Nat) : Prop := b.sbrkBase.toNat ≤ lo ∧ hi ≤ b.sbrk.toNat

/-- Every chunk that the list leads to, header and payload, and every live block is inside. -/
structure HeapHistory.Committed (s : HeapHistory) (shared : Bool) : Prop where
  chunks : ∀ xs c, Segment s.mem.next (s.heap shared).head xs c → 0 ∉ xs → c ≠ 0 →
    (s.heap shared).brk.Inside c.toNat (c.toNat + 32) ∧
      (s.heap shared).brk.Inside c.toNat (c.toNat + (s.mem.chunk c).size.toNat)
  blocks : ∀ b ∈ s.live, b.shared = shared → (s.heap shared).brk.Inside b.start b.stop

/-- The property in every state of a run. -/
def HeapHistory.CommittedThroughout (s : HeapHistory) (ops : List HeapOp) (shared : Bool) : Prop :=
  ∀ first rest t, ops = first ++ rest → Run HeapOp.step s first t → t.Committed shared

/-- The search of `_malloc` ends without a chunk. -/
def HeapHistory.Unserved (s : HeapHistory) (shared : Bool) (size : Word) : Prop :=
  Returns (fun fuel => follow s.mem.next (fun tmp => tmp == 0 || fits s.mem (allocSize size) tmp) fuel
    (s.heap shared).head) 0

variable {s s' : HeapHistory} {shared : Bool} {b : HeapBreak} {size length : Word}

/-- What `k_sbrk` and `shared_sbrk` return is `-ENOMEM` or where the break is then. -/
theorem sbrk_return (shared : Bool) (b : HeapBreak) (length : Word) :
    (sbrk shared b length = (enomemAddress, b) ∨ (sbrk shared b length).1 = (sbrk shared b length).2.sbrk) ∧
      (sbrk shared b length).2.sbrkBase = b.sbrkBase := by
  cases shared with
  | true =>
    simp only [sbrk, if_true, sharedSbrk, sbrkDown]
    split
    · exact ⟨Or.inr rfl, rfl⟩
    · split
      · exact ⟨Or.inr rfl, rfl⟩
      · split
        · exact ⟨Or.inl rfl, rfl⟩
        · split
          · exact ⟨Or.inr rfl, rfl⟩
          · exact ⟨Or.inr rfl, rfl⟩
  | false =>
    simp only [sbrk, Bool.false_eq_true, if_false, kSbrk, sbrkDown]
    split
    · exact ⟨Or.inr rfl, rfl⟩
    · split
      · exact ⟨Or.inr rfl, rfl⟩
      · split
        · exact ⟨Or.inl rfl, rfl⟩
        · exact ⟨Or.inr rfl, rfl⟩

/-- A block behind a header at what `sbrk` returned is not inside, wherever the break went. -/
theorem behind_break (base : 32 ≤ b.sbrkBase.toNat) :
    ¬ (sbrk shared b length).2.Inside ((sbrk shared b length).1 + sizeofMemChunk).toNat
      (((sbrk shared b length).1 + sizeofMemChunk).toNat + size.toNat) := by
  rintro ⟨low, high⟩
  obtain ⟨returned, kept⟩ := sbrk_return shared b length
  rw [kept] at low
  have header : sizeofMemChunk.toNat = 32 := rfl
  cases returned with
  | inl refused =>
    have wrapped : (enomemAddress + sizeofMemChunk).toNat = 20 := by decide
    rw [refused, wrapped] at low
    omega
  | inr moved =>
    rw [← moved] at high
    bv_omega

/-- A `_malloc` that no chunk serves takes what `sbrk` returns for its header. -/
theorem malloc_unserved {fuel : Nat} {m m' : HeapMemory} {h h' : Heap} {p : Word} (some : size ≠ 0)
    (unserved : follow m.next (fun tmp => tmp == 0 || fits m (allocSize size) tmp) fuel h.head = Option.some 0)
    (returned : malloc fuel shared m h size = Option.some (p, m', h')) (proper : p ≠ 0) :
    p = (sbrk shared h.brk (allocSize size)).1 + sizeofMemChunk ∧ h'.brk = (sbrk shared h.brk (allocSize size)).2 := by
  have alloc : align (size + sizeofMemChunk) 8 = allocSize size := rfl
  simp only [malloc, if_neg some, alloc, unserved, ne_eq, not_true_eq_false, if_false] at returned
  split at returned
  · cases returned
    exact absurd rfl proper
  · obtain ⟨m₂, tail, success, _⟩ := mallocSuccess_spec
      ((((m.setSize (sbrk shared h.brk (allocSize size)).1 (allocSize size)).setNext
        (sbrk shared h.brk (allocSize size)).1 0).setUsed
        (sbrk shared h.brk (allocSize size)).1 0).setAddress (sbrk shared h.brk (allocSize size)).1 0)
      { h with tail := (sbrk shared h.brk (allocSize size)).1, brk := (sbrk shared h.brk (allocSize size)).2 }
      (sbrk shared h.brk (allocSize size)).1
    rw [success] at returned
    cases returned
    exact ⟨rfl, rfl⟩

/-- No `_malloc` moves the base. -/
theorem malloc_base {fuel : Nat} {m m' : HeapMemory} {h h' : Heap} {p : Word}
    (returned : malloc fuel shared m h size = some (p, m', h')) : h'.brk.sbrkBase = h.brk.sbrkBase := by
  have moved := (sbrk_return shared h.brk (allocSize size)).2
  have alloc : align (size + sizeofMemChunk) 8 = allocSize size := rfl
  unfold malloc at returned
  simp only [alloc] at returned
  split at returned
  · cases returned
    rfl
  · split at returned
    · cases returned
    · split at returned
      · split at returned
        · split at returned
          · cases returned
            rfl
          · cases returned
            rfl
        · cases returned
          rfl
      · split at returned
        · cases returned
          exact moved
        · cases returned
          exact moved

theorem step_base {op : HeapOp} (step : op.step s s') (other : Bool) :
    (s'.heap other).brk.sbrkBase = (s.heap other).brk.sbrkBase := by
  cases op with
  | malloc shared size =>
    obtain ⟨p, m', h', ⟨n, returned⟩, rfl⟩ := step
    have kept := malloc_base (returned (n + 1) (Nat.lt_succ_self n))
    cases decEq other shared with
    | isTrue same =>
      subst same
      simp only [Function.update_self]
      exact kept
    | isFalse different => simp only [Function.update_of_ne different]
  | free shared addr =>
    obtain ⟨m', _, rfl⟩ := step
    rfl

theorem run_base {ops : List HeapOp} (run : Run HeapOp.step s ops s') (shared : Bool) :
    (s'.heap shared).brk.sbrkBase = (s.heap shared).brk.sbrkBase := by
  induction run with
  | nil s => rfl
  | cons step _ ih => exact ih.trans (step_base step shared)

/-- When `_malloc` has to grow the heap, its block is not inside. -/
theorem grown_not_committed (base : 32 ≤ (s.heap shared).brk.sbrkBase.toNat) (unserved : s.Unserved shared size)
    (step : HeapOp.step s (.malloc shared size) s') (added : s'.live ≠ s.live) : ¬ s'.Committed shared := by
  obtain ⟨p, m', h', ⟨n, returned⟩, rfl⟩ := step
  obtain ⟨k, searched⟩ := unserved
  have returned := returned (n + k + 1) (by omega)
  have proper : p ≠ 0 := fun null => added (if_pos null)
  have some : size ≠ 0 := by
    rintro rfl
    cases returned
    exact proper rfl
  obtain ⟨place, moved⟩ := malloc_unserved some (searched (n + k + 1) (by omega)) returned proper
  intro committed
  have inside := committed.blocks ⟨shared, p, size⟩ (by simp only [if_neg proper]; exact List.mem_cons_self) rfl
  simp only [Function.update_self, moved, Block.start, Block.stop] at inside
  exact behind_break base (place ▸ inside)

/-- The break as `heap_init` moves it: not at all, by 0x2000, or to the base. -/
theorem sbrk_min (shared : Bool) (b : HeapBreak) : sbrk shared b heapMinSize = (enomemAddress, b) ∨
    sbrk shared b heapMinSize = (b.sbrk + heapMinSize, { b with sbrk := b.sbrk + heapMinSize }) ∨
    sbrk shared b heapMinSize = (b.sbrkBase, { b with sbrk := b.sbrkBase }) := by
  have sign : heapMinSize.slt 0 = false := by decide
  have some : heapMinSize ≠ 0 := by decide
  cases shared with
  | true =>
    simp only [sbrk, if_true, sharedSbrk, sign, Bool.false_eq_true, if_false, if_neg some]
    split
    · exact Or.inl rfl
    · split
      · exact Or.inr (Or.inr rfl)
      · exact Or.inr (Or.inl rfl)
  | false =>
    simp only [sbrk, kSbrk, sign, Bool.false_eq_true, if_false, if_neg some]
    split
    · exact Or.inl rfl
    · exact Or.inr (Or.inl rfl)

/-- The first chunk is longer than what the break gave. -/
theorem initHeap_beyond {m m' : HeapMemory} (initialized : (initHeap shared m b).1 = true)
    (same : m'.chunk b.sbrk = (initHeap shared m b).2.1.chunk b.sbrk) :
    ¬ ((initHeap shared m b).2.2.brk.Inside b.sbrk.toNat (b.sbrk.toNat + 32) ∧
      (initHeap shared m b).2.2.brk.Inside b.sbrk.toNat (b.sbrk.toNat + (m'.chunk b.sbrk).size.toNat)) := by
  rintro ⟨⟨low, header⟩, _, whole⟩
  rw [same] at whole
  simp only [initHeap, sbrk_zero] at initialized low header whole
  split at initialized
  · cases initialized
  · rename_i some
    rw [if_neg some] at low header whole
    rcases sbrk_min shared b with refused | moved | reset
    · rw [refused] at header
      simp only at header
      omega
    · have span : b.sbrk + heapMinSize + 1 - b.sbrk = 0x2001 := by
        unfold heapMinSize
        bv_omega
      have size : (heapMinSize + pageUp 0x2001).toNat = 0x5000 := by decide
      have step : heapMinSize.toNat = 0x2000 := rfl
      rw [moved] at whole
      simp only [span, HeapMemory.chunk_setNext, HeapMemory.chunk_setUsed, HeapMemory.chunk_setSize, size,
        BitVec.toNat_add, step] at whole
      omega
    · rw [reset] at low header
      simp only at low header
      omega

theorem initHeap_outside {m : HeapMemory} {d : Word} (apart : HeadersApart b.sbrk d) :
    (initHeap shared m b).2.1.chunk d = m.chunk d := by
  simp only [initHeap, sbrk_zero]
  split
  · rfl
  · simp only [HeapMemory.chunk_setNext_apart apart, HeapMemory.chunk_setUsed_apart apart,
      HeapMemory.chunk_setSize_apart apart]

theorem initHeap_place (shared : Bool) (m : HeapMemory) (b : HeapBreak) :
    (initHeap shared m b).2.2.head = b.sbrk ∧ (initHeap shared m b).2.2.brk.sbrkBase = b.sbrkBase := by
  have kept := (sbrk_return shared b heapMinSize).2
  simp only [initHeap, sbrk_zero]
  split
  · exact ⟨rfl, kept⟩
  · exact ⟨rfl, kept⟩

/-- `heap_init` that returned 1 has set up both heaps. -/
theorem heapInit_both {m : HeapMemory} {p q : HeapBreak} (initialized : (heapInit m p q).1 = 1) :
    ∃ m₁, (initHeap false m p).1 = true ∧ m₁ = (initHeap false m p).2.1 ∧ (initHeap true m₁ q).1 = true ∧
      HeapHistory.init m p q = ⟨(initHeap true m₁ q).2.1, fun shared =>
        if shared then (initHeap true m₁ q).2.2 else (initHeap false m p).2.2, []⟩ := by
  rcases first : initHeap false m p with ⟨ok, m₁, privateHeap⟩
  rcases second : initHeap true m₁ q with ⟨ok', m₂, sharedHeap⟩
  have failed : (0 : Int) ≠ 1 := by decide
  cases ok with
  | false =>
    simp only [heapInit, first] at initialized
    exact absurd initialized failed
  | true =>
    cases ok' with
    | false =>
      simp only [heapInit, first, second] at initialized
      exact absurd initialized failed
    | true =>
      refine ⟨m₁, rfl, rfl, by rw [second], ?_⟩
      simp only [HeapHistory.init, heapInit, first, second]

/-- `heap_init` leaves neither heap inside its break. -/
theorem init_not_committed {m : HeapMemory} {p q : HeapBreak} (initialized : (heapInit m p q).1 = 1)
    (someP : p.sbrk ≠ 0) (someQ : q.sbrk ≠ 0) (apart : HeadersApart q.sbrk p.sbrk) (shared : Bool) :
    ¬ (HeapHistory.init m p q).Committed shared := by
  obtain ⟨m₁, first, rfl, second, state⟩ := heapInit_both initialized
  rw [state]
  intro committed
  cases shared with
  | true =>
    have head := (initHeap_place true (initHeap false m p).2.1 q).1
    have inside := committed.chunks [] q.sbrk head List.not_mem_nil someQ
    exact initHeap_beyond second rfl inside
  | false =>
    have head := (initHeap_place false m p).1
    have inside := committed.chunks [] p.sbrk head List.not_mem_nil someP
    exact initHeap_beyond first (initHeap_outside apart) inside

/-- On no run is the memory of a heap inside its break throughout, and whenever no chunk serves a
request the block that is returned is not. -/
theorem heap_never_committed (m : HeapMemory) {p q : HeapBreak} (initialized : (heapInit m p q).1 = 1)
    (someP : p.sbrk ≠ 0) (someQ : q.sbrk ≠ 0) (apart : HeadersApart q.sbrk p.sbrk) (baseP : 32 ≤ p.sbrkBase.toNat)
    (baseQ : 32 ≤ q.sbrkBase.toNat) (ops : List HeapOp) (s : HeapHistory)
    (run : Run HeapOp.step (HeapHistory.init m p q) ops s) (shared : Bool) :
    ¬ (HeapHistory.init m p q).CommittedThroughout ops shared ∧
      ∀ size s', s.Unserved shared size → HeapOp.step s (.malloc shared size) s' → s'.live ≠ s.live →
        ¬ s'.Committed shared := by
  constructor
  · intro throughout
    exact init_not_committed initialized someP someQ apart shared (throughout [] ops _ rfl (.nil _))
  · intro size s' unserved step added
    have base : 32 ≤ (s.heap shared).brk.sbrkBase.toNat := by
      obtain ⟨m₁, _, _, _, state⟩ := heapInit_both initialized
      rw [run_base run shared, state]
      cases shared with
      | true => exact (initHeap_place true m₁ q).2 ▸ baseQ
      | false => exact (initHeap_place false m p).2 ▸ baseP
    exact grown_not_committed base unserved step added

/-- 24 KB are more than the list has, and the heap grows. -/
theorem heap_never_committed_boot : ∃ s, Run HeapOp.step bootHeaps [.malloc false 0x6000] s ∧ ¬ s.Committed false ∧
    ¬ bootHeaps.CommittedThroughout [.malloc false 0x6000] false := by
  have ok : HeapsOk bootHeaps := init_ok (fun _ => 0) linkedLayout_ready.1 linkedLayout_ready.2 (by decide)
  obtain ⟨⟨xs, list, _⟩, _, noWrap, broken⟩ := ok.each false
  have single : Chain bootHeaps.mem.next 0 (bootHeaps.heap false).head [privateBase] := ⟨⟨rfl, rfl⟩, by decide⟩
  obtain rfl := list.chain.unique single
  have none : ∀ x ∈ [privateBase], fits bootHeaps.mem (allocSize 0x6000) x = false := by
    intro x member
    obtain rfl := List.mem_singleton.mp member
    decide
  have unserved : bootHeaps.Unserved false 0x6000 := by
    refine ⟨1, fun fuel enough => ?_⟩
    obtain ⟨spare, rfl⟩ : ∃ spare, fuel = spare + 2 := ⟨fuel - 2, by omega⟩
    rfl
  obtain ⟨m', tail, ran, _⟩ := malloc_grown list (by decide) (by decide) none false broken (by decide) noWrap
  have proper : (bootHeaps.heap false).brk.sbrk + allocSize 0x6000 + sizeofMemChunk ≠ 0 := by decide
  have step : HeapOp.step bootHeaps (.malloc false 0x6000) _ := ⟨_, m', _, ⟨_, ran⟩, rfl⟩
  have run := Run.cons step (.nil _)
  have grown := (heap_never_committed (fun _ => 0) (by decide) (by decide) (by decide) ⟨by decide, by decide⟩ (by decide)
    (by decide) [] bootHeaps (.nil _) false).2
  have whole := (heap_never_committed (fun _ => 0) (by decide) (by decide) (by decide) ⟨by decide, by decide⟩ (by decide)
    (by decide) _ _ run false).1
  refine ⟨_, run, grown 0x6000 _ unserved step ?_, whole⟩
  simp only [if_neg proper]
  exact List.cons_ne_self _ _

/-- The chunk that `heap_init` records has 0x5000 bytes, the break moves by 0x2000. -/
theorem first_chunk_beyond_break : ¬ ∀ (ops : List HeapOp) (s : HeapHistory), Run HeapOp.step bootHeaps ops s →
    ∀ shared, s.Committed shared := by
  intro always
  have inside := ((always [] bootHeaps (.nil _) false).chunks [] privateBase rfl List.not_mem_nil (by decide)).2.2
  exact absurd inside (by decide)

end RealmVm
