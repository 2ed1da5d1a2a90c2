import RealmVm.Heap.HeapRuns

/-! The heaps as stores of objects: what is stored in a block stays there until the block is freed,
whatever is requested, freed and stored elsewhere in between. -/
namespace RealmVm

open Lib

/-- The address of word `i` of a block. -/
def Block.word (b : Block) (i : Nat) : Word := b.address + 8 * BitVec.ofNat 64 i

/- The word at `a` is none of the four of the header at `c`. -/
def OffHeader (a c : Word) : Prop := 32 ≤ (a - c).toNat

/-- What the last store of `calls` to word `i` of `b` put there, if there is one. -/
def lastStore (b : Block) (i : Nat) (calls : List HeapCall) (before : Word) : Word :=
  calls.foldl (fun v call =>
    match call with
    | .store c k w => if c = b ∧ k = i then w else v
    | _ => v) before

def wholeBlock : Block := ⟨false, privateBase + 32, 0x4fe0⟩

variable {m m' : HeapMemory} {heap h' : Heap} {a c v p size ptr prev : Word} {shared : Bool} {xs : List Word}
  {s s' : HeapHistory}

section Words

/-! The words that each part of the code writes are those of headers. -/

theorem setSize_other (off : OffHeader a c) : (m.setSize c v) a = m a := by
  refine Function.update_of_ne (fun same => ?_) _ _
  unfold OffHeader at off
  bv_omega

theorem setUsed_other (off : OffHeader a c) : (m.setUsed c v) a = m a := by
  refine Function.update_of_ne (fun same => ?_) _ _
  unfold OffHeader at off
  bv_omega

theorem setAddress_other (off : OffHeader a c) : (m.setAddress c v) a = m a := by
  refine Function.update_of_ne (fun same => ?_) _ _
  unfold OffHeader at off
  bv_omega

theorem setNext_other (off : OffHeader a c) : (m.setNext c v) a = m a := by
  refine Function.update_of_ne (fun same => ?_) _ _
  unfold OffHeader at off
  bv_omega

theorem split_other (front : OffHeader a ptr) (back : OffHeader a (ptr + allocSize size)) :
    (split m ptr size).2 a = m a := by
  simp only [split]
  split
  · rfl
  · split
    · rfl
    · exact (setNext_other front).trans ((setSize_other front).trans ((setUsed_other back).trans
        ((setNext_other back).trans (setSize_other back))))

theorem mallocSuccess_other (m : HeapMemory) (heap : Heap) (off : OffHeader a c) :
    (mallocSuccess m heap c).2.1 a = m a := by
  have written : (mallocSuccess m heap c).2.1 = (m.setUsed c 1).setAddress c (c + sizeofMemChunk) := rfl
  rw [written, setAddress_other off, setUsed_other off]

theorem fresh_other (off : OffHeader a c) : (m.fresh c size) a = m a := by
  rw [HeapMemory.fresh, setAddress_other off, setUsed_other off, setNext_other off, setSize_other off]

theorem absorbNext_other (off : OffHeader a ptr) : absorbNext m ptr a = m a := by
  simp only [absorbNext]
  split
  · rw [setNext_other off, setSize_other off]
  · rfl

theorem coalesce_other (front : OffHeader a prev) (off : OffHeader a ptr) : coalesce m prev ptr a = m a := by
  simp only [coalesce]
  split
  · rw [setNext_other front, setAddress_other front, setSize_other front, absorbNext_other off]
  · exact absorbNext_other off

/-- `_malloc` writes to the header of the chunk it takes and to that of the rest of it, or to a new one. -/
theorem malloc_other {fuel : Nat} (chain : Chain m.next 0 heap.head xs) (some : size ≠ 0) (more : xs.length < fuel)
    (returned : malloc fuel shared m heap size = Option.some (p, m', h'))
    (served : ∀ x ∈ xs, fits m (allocSize size) x = true → OffHeader a x ∧
      (allocSize size + minHeapAlloc < (m.chunk x).size → OffHeader a (x + allocSize size)))
    (grown : (∀ x ∈ xs, fits m (allocSize size) x = false) →
      OffHeader a (sbrk shared heap.brk (allocSize size)).1) : m' a = m a := by
  cases found : xs.find? (fits m (allocSize size)) with
  | some x =>
    obtain ⟨front, back⟩ := served x (List.mem_of_find?_eq_some found) (List.find?_some found)
    rw [malloc_taken chain some found shared more] at returned
    split at returned
    · rename_i long
      have cut := split_other (m := m) front (back long)
      split at returned
      · obtain ⟨_, rest⟩ := Prod.mk.inj (Option.some.inj returned)
        exact (Prod.mk.inj rest).1 ▸ cut
      · obtain ⟨_, rest⟩ := Prod.mk.inj (Option.some.inj returned)
        exact (Prod.mk.inj rest).1 ▸ (mallocSuccess_other _ heap front).trans cut
    · obtain ⟨_, rest⟩ := Prod.mk.inj (Option.some.inj returned)
      exact (Prod.mk.inj rest).1 ▸ mallocSuccess_other m heap front
  | none =>
    have missing : ∀ x ∈ xs, fits m (allocSize size) x = false := fun x member =>
      Bool.eq_false_iff.mpr (List.find?_eq_none.mp found x member)
    have off := grown missing
    rw [malloc_asked chain some missing shared more] at returned
    simp only at returned
    split at returned
    · obtain ⟨_, rest⟩ := Prod.mk.inj (Option.some.inj returned)
      rw [(Prod.mk.inj rest).1]
    · obtain ⟨_, rest⟩ := Prod.mk.inj (Option.some.inj returned)
      exact (Prod.mk.inj rest).1 ▸ (mallocSuccess_other _ heap off).trans (fresh_other off)

end Words

section Blocks

variable {b : Block} {i : Nat} {x : Word}

/-- The words of a live block lie in it. -/
theorem HeapsOk.word_toNat (ok : HeapsOk s) (live : b ∈ s.live) (inside : 8 * i < b.size.toNat) :
    (b.word i).toNat = b.start + 8 * i ∧ b.stop < 2 ^ 64 := by
  have own := ok.each b.shared
  have bounds := own.bounds (mem_blocksOf live)
  have noWrap := own.noWrap
  have offset : (8 * BitVec.ofNat 64 i).toNat = 8 * i := by
    have small := b.size.isLt
    bv_omega
  unfold Block.stop Block.start at *
  rw [Block.word, BitVec.toNat_add, offset]
  omega

theorem offHeader_of_apart (stop : Nat) (before : stop ≤ c.toNat ∨ c.toNat + 32 ≤ a.toNat) (low : a.toNat < stop)
    (fits : c.toNat + 32 ≤ 2 ^ 64) : OffHeader a c := by
  unfold OffHeader
  bv_omega

/-- A live block has nothing in common with an unused chunk. -/
theorem HeapsOk.clear_unused (ok : HeapsOk s) (live : b ∈ s.live) (chain : Chain s.mem.next 0 (s.heap shared).head xs)
    (onList : x ∈ xs) (unused : (s.mem.chunk x).used = 0) :
    b.stop ≤ x.toNat ∨ x.toNat + (s.mem.chunk x).size.toNat ≤ b.start := by
  obtain ⟨⟨ys, list, placed⟩, fits, noWrap, broken⟩ := ok.each shared
  obtain rfl := chain.unique list.chain
  have bounds := list.bounds onList
  cases decEq b.shared shared with
  | isTrue same =>
    cases placed b (List.mem_filter.mpr ⟨live, decide_eq_true same⟩) with
    | inl inList =>
      obtain ⟨z, member, address, used, room⟩ := inList
      have other : x ≠ z := fun here => used (here ▸ unused)
      have extents := list.extents member onList other
      have place : b.address.toNat = z.toNat + 32 := address ▸ list.behind_header member
      unfold Block.stop Block.start
      omega
    | inr behind => omega
  | isFalse different =>
    have own := (ok.each b.shared).bounds (mem_blocksOf live)
    have separate := ok.separate different
    omega

/-- A request leaves the words of all live blocks alone. -/
theorem malloc_keeps (ok : HeapsOk s) (positive : 0 < size.toNat) (small : size.toNat < 2 ^ 62)
    (safe : s.Serves shared size ∨ s.Grows shared size)
    (returned : Returns (fun fuel => malloc fuel shared s.mem (s.heap shared) size) (p, m', h')) (live : b ∈ s.live)
    (inside : 8 * i < b.size.toNat) : m' (b.word i) = s.mem (b.word i) := by
  obtain ⟨n, result⟩ := returned
  obtain ⟨⟨xs, list, placed⟩, fits, noWrap, broken⟩ := ok.each shared
  obtain ⟨place, stop⟩ := ok.word_toNat live inside
  have alloc := allocSize_toNat small
  have some : size ≠ 0 := by bv_omega
  have more := result (max n xs.length + 1) (by omega)
  refine malloc_other list.chain some (by omega) more ?_ ?_
  · intro x onList fit
    simp only [RealmVm.fits, Bool.and_eq_true, beq_iff_eq, decide_eq_true_eq] at fit
    have clear := ok.clear_unused live list.chain onList fit.1
    have header := list.header x onList
    have bounds := list.bounds onList
    have below := list.below
    have forty : minHeapAlloc.toNat = 40 := by decide
    constructor
    · refine offHeader_of_apart b.stop ?_ ?_ (by omega)
      · omega
      · unfold Block.stop Block.start at *
        omega
    · intro long
      have cut : (x + allocSize size).toNat = x.toNat + (allocSize size).toNat := by bv_omega
      have rest : (allocSize size).toNat + 40 < (s.mem.chunk x).size.toNat := by bv_omega
      refine offHeader_of_apart b.stop ?_ ?_ (by omega)
      · omega
      · unfold Block.stop Block.start at *
        omega
  · intro none
    have unserved : ¬ s.Serves shared size := by
      rintro ⟨ys, chain, x, onList, fit⟩
      obtain rfl := chain.unique list.chain
      exact Bool.false_ne_true ((none x onList).symm.trans fit)
    have grows := safe.resolve_left unserved
    obtain ⟨header, past, room, long⟩ := grows.header positive small noWrap
    have grown := sbrk_up shared (allocSize size) (b := (s.heap shared).brk) (by omega) (by omega) broken
      (by have wide := grows.room; unfold Heap.top at wide; omega) noWrap
    rw [grown]
    show OffHeader (b.word i) ((s.heap shared).brk.sbrk + allocSize size)
    refine offHeader_of_apart b.stop ?_ ?_ (by omega)
    · cases decEq b.shared shared with
      | isTrue same =>
        have before := grows.pastLive b live same
        omega
      | isFalse different =>
        have own := (ok.each b.shared).bounds (mem_blocksOf live)
        have separate := ok.separate different
        have order : (s.heap shared).listStart ≤ (s.heap shared).listEnd := Nat.le_add_right _ _
        omega
    · unfold Block.stop Block.start at *
      omega

/-- `_free` writes to headers of the list only. -/
theorem free_other {fuel : Nat} {addr : Word} (chain : Chain m.next 0 heap.head xs) (more : xs.length < fuel)
    (returned : free fuel m heap addr = some m') (off : ∀ x ∈ xs, OffHeader a x) : m' a = m a := by
  rcases freeScan_spec addr chain heap.head with ⟨_, last, ran⟩ | ⟨pre, x, post, rfl, _, _, ran⟩
  · simp only [free, ran fuel more, if_true, Option.some.injEq] at returned
    rw [returned]
  · have proper : x ≠ 0 := fun null => chain.proper (null ▸ List.mem_append_cons_self)
    simp only [free, ran fuel more, if_neg proper, Option.some.injEq] at returned
    rw [← returned]
    refine coalesce_other ?_ (off x List.mem_append_cons_self)
    cases pre with
    | nil =>
      have first : heap.head = x := chain.head_eq
      exact first ▸ off x List.mem_append_cons_self
    | cons y rest =>
      have last : (y :: rest).getLastD heap.head ∈ y :: rest := by
        rw [List.getLastD_cons]
        exact List.getLastD_mem_cons ..
      exact off _ (List.mem_append_left _ last)

theorem free_keeps (ok : HeapsOk s) {addr : Word}
    (returned : Returns (fun fuel => free fuel s.mem (s.heap shared) addr) m') (live : b ∈ s.live)
    (inside : 8 * i < b.size.toNat) : m' (b.word i) = s.mem (b.word i) := by
  obtain ⟨n, result⟩ := returned
  obtain ⟨⟨xs, list, placed⟩, fits, noWrap, broken⟩ := ok.each shared
  obtain ⟨place, stop⟩ := ok.word_toNat live inside
  have more := result (max n xs.length + 1) (by omega)
  refine free_other list.chain (by omega) more fun x onList => ?_
  have clear := ok.clear live list.chain onList
  have header := list.header x onList
  have bounds := list.bounds onList
  have below := list.below
  refine offHeader_of_apart b.stop (by omega) ?_ (by omega)
  unfold Block.stop Block.start at *
  omega

/-- A store to another word, of the same block or of another one. -/
theorem HeapsOk.word_ne (ok : HeapsOk s) {d : Block} {k : Nat} (live : b ∈ s.live) (inside : 8 * i < b.size.toNat)
    (liveD : d ∈ s.live) (insideD : 8 * k < d.size.toNat) (other : ¬ (d = b ∧ k = i)) : b.word i ≠ d.word k := by
  obtain ⟨place, _⟩ := ok.word_toNat live inside
  obtain ⟨placeD, _⟩ := ok.word_toNat liveD insideD
  intro same
  rw [same, placeD] at place
  cases decEq d b with
  | isTrue here =>
    subst here
    exact other ⟨rfl, by omega⟩
  | isFalse different =>
    have perm := List.perm_cons_erase live
    obtain ⟨fromB, _⟩ := List.pairwise_cons.mp ((perm.pairwise_iff Block.Apart.symm).mp ok.apart)
    have apart := fromB d ((List.mem_erase_of_ne different).mpr liveD)
    unfold Block.Apart Block.stop Block.start at *
    omega

/-- One step that does not free the block. -/
theorem HeapsOk.step_keeps (ok : HeapsOk s) {call : HeapCall} (step : safeHeapStep s call s') (live : b ∈ s.live)
    (kept : call ≠ .free b) :
    b ∈ s'.live ∧ ∀ i, 8 * i < b.size.toNat → s'.mem (b.word i) = lastStore b i [call] (s.mem (b.word i)) := by
  obtain ⟨safe, allowed, performs⟩ := step
  cases call with
  | malloc shared size =>
    obtain ⟨p, m', h', returned, rfl⟩ := performs
    cases Nat.eq_zero_or_pos size.toNat with
    | inl none =>
      obtain rfl : size = 0 := BitVec.eq_of_toNat_eq none
      have nothing : Returns (fun fuel => malloc fuel shared s.mem (s.heap shared) 0) (0, s.mem, s.heap shared) :=
        ⟨0, fun fuel _ => rfl⟩
      obtain ⟨rfl, rest⟩ := Prod.mk.inj (returned.unique nothing)
      obtain ⟨rfl, _⟩ := Prod.mk.inj rest
      exact ⟨by rwa [if_pos rfl], fun i _ => rfl⟩
    | inr positive =>
      have some : size ≠ 0 := by bv_omega
      refine ⟨?_, fun i inside => malloc_keeps ok positive allowed (safe.resolve_left some) returned live inside⟩
      split
      · exact live
      · exact List.mem_cons_of_mem _ live
  | free c =>
    obtain ⟨m', returned, rfl⟩ := performs
    have other : b ≠ c := fun same => kept (same ▸ rfl)
    exact ⟨(List.mem_erase_of_ne other).mpr live, fun i inside => free_keeps ok returned live inside⟩
  | store c k v =>
    cases performs
    refine ⟨live, fun i inside => ?_⟩
    cases Classical.em (c = b ∧ k = i) with
    | inl same =>
      obtain ⟨rfl, rfl⟩ := same
      simp only [lastStore, List.foldl_cons, List.foldl_nil, and_self, if_true]
      exact Function.update_self ..
    | inr other =>
      simp only [lastStore, List.foldl_cons, List.foldl_nil, if_neg other]
      exact Function.update_of_ne (ok.word_ne live inside allowed.1 allowed.2 other) _ _

theorem HeapsOk.run_keeps {calls : List HeapCall} (ok : HeapsOk s) (run : Run safeHeapStep s calls s')
    (live : b ∈ s.live) (kept : .free b ∉ calls) :
    b ∈ s'.live ∧ ∀ i, 8 * i < b.size.toNat → s'.mem (b.word i) = lastStore b i calls (s.mem (b.word i)) := by
  induction run with
  | nil s => exact ⟨live, fun i _ => rfl⟩
  | cons step rest ih =>
    obtain ⟨first, later⟩ := not_or.mp (mt List.mem_cons.mpr kept)
    obtain ⟨still, words⟩ := ok.step_keeps step live (Ne.symm first)
    obtain ⟨last, values⟩ := ih (safe_step ok step) still later
    refine ⟨last, fun i inside => (values i inside).trans ?_⟩
    rw [words i inside]
    rfl

/-- Whatever both heaps are asked for in between, and whatever is freed and stored elsewhere, a word of a block
that is not freed holds what was stored there last. -/
theorem blocks_hold_last_store {m : HeapMemory} {p q : HeapBreak} (readyP : p.Ready) (readyQ : q.Ready)
    (arenas : p.heapStart.toNat + p.heapSize.toNat ≤ q.heapStart.toNat ∨
      q.heapStart.toNat + q.heapSize.toNat ≤ p.heapStart.toNat)
    {before calls : List HeapCall} (start : Run safeHeapStep (HeapHistory.init m p q) before s)
    (run : Run safeHeapStep s calls s') (live : b ∈ s.live) (kept : .free b ∉ calls) :
    b ∈ s'.live ∧ ∀ i, 8 * i < b.size.toNat → s'.mem (b.word i) = lastStore b i calls (s.mem (b.word i)) :=
  HeapsOk.run_keeps (start.invariant (fun _ _ _ ok step => safe_step ok step) (init_ok m readyP readyQ arenas)) run
    live kept

/-- The block that takes the whole private list keeps a 7 while the shared heap serves a request. -/
theorem blocks_hold_last_store_whole : ∃ s, Run safeHeapStep bootHeaps [.malloc false 0x4fe0] wholeList ∧
    Run safeHeapStep wholeList [.store wholeBlock 0 7, .malloc true 16] s ∧ s.mem (wholeBlock.word 0) = 7 := by
  have first : Run safeHeapStep bootHeaps [.malloc false 0x4fe0] wholeList :=
    .cons ⟨Or.inr (Or.inl ⟨[privateBase], ⟨⟨rfl, rfl⟩, by decide⟩, privateBase, List.mem_singleton_self _, by decide⟩),
      wholeList_step⟩ (.nil _)
  have live : wholeBlock ∈ wholeList.live := List.mem_singleton_self _
  have ok : HeapsOk wholeList := first.invariant (fun _ _ _ ok step => safe_step ok step)
    (init_ok _ linkedLayout_ready.1 linkedLayout_ready.2 (by decide))
  have inside : 8 * 0 < wholeBlock.size.toNat := by decide
  have stored := store_step ok live inside 7
  have serves : HeapHistory.Serves { wholeList with mem := Function.update wholeList.mem (wholeBlock.word 0) 7 }
      true 16 :=
    ⟨[0xFFFFF00000400000], ⟨⟨rfl, rfl⟩, by decide⟩, 0xFFFFF00000400000, List.mem_singleton_self _, by decide⟩
  have small : HeapCall.Allowed { wholeList with mem := Function.update wholeList.mem (wholeBlock.word 0) 7 }
      (.malloc true 16) := by
    unfold HeapCall.Allowed
    decide
  obtain ⟨s, step, _⟩ := heap_step stored small (Or.inr (Or.inl serves))
  have run : Run safeHeapStep wholeList [.store wholeBlock 0 7, .malloc true 16] s :=
    .cons ⟨trivial, ⟨live, inside⟩, rfl⟩ (.cons ⟨Or.inr (Or.inl serves), step⟩ (.nil _))
  have held := blocks_hold_last_store linkedLayout_ready.1 linkedLayout_ready.2 (by decide) first run live (by simp)
  exact ⟨s, first, run, held.2 0 inside⟩

end Blocks

end RealmVm
