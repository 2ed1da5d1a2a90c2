import RealmVm.Heap.BreakRuns
import RealmVm.Heap.Kmalloc

/-! Requests of any 64-bit size: how long the returned block is, and what is left when the heap is used up. -/
namespace RealmVm

open Lib

/-- A whole list, and a break that `brk` has set up; both lie in the kernel's part of the address space. -/
structure Heap.Whole (m : HeapMemory) (h : Heap) (lo hi : Nat) (xs : List Word) : Prop where
  list : ChunkList m h.head lo hi xs
  low : kernelVaBase.toNat ≤ lo
  near : h.brk.Near
  inHeap : h.brk.InHeap
  inside : h.brk.heapStart.toNat ≤ h.brk.sbrkBase.toNat

/-- The private break asked for what takes it to exactly 2^64: it wraps to 0, and `_malloc` returns null. -/
def WrapsToNull (shared : Bool) (m : HeapMemory) (h : Heap) (xs : List Word) (size : Word) : Prop :=
  shared = false ∧ (∀ x ∈ xs, fits m (allocSize size) x = false) ∧ h.brk.sbrk + allocSize size = 0

section breaks

variable {shared : Bool} {b : HeapBreak} {length : Word}

/-- The address a break function gives: in the heap, `-ENOMEM`, or past the end of the address space. -/
theorem sbrk_address (near : b.Near) (inHeap : b.InHeap) (inside : b.heapStart.toNat ≤ b.sbrkBase.toNat) :
    (∃ v : Word, sbrk shared b length = (v, { b with sbrk := v }) ∧ kernelVaBase.toNat ≤ v.toNat ∧
        v.toNat + 4096 < 2 ^ 64) ∨
      sbrk shared b length = (enomemAddress, b) ∨
      (shared = false ∧ length ≠ 0 ∧ 2 ^ 64 ≤ b.sbrk.toNat + length.toNat ∧ length.toNat < 2 ^ 63 ∧
        sbrk shared b length = (b.sbrk + length, { b with sbrk := b.sbrk + length })) := by
  have low := near.low
  have high := near.high
  have above := inHeap.1
  have below := inHeap.2
  rcases sign_cases length with rfl | ⟨positive, _, some, small⟩ | ⟨negative, _, large⟩
  · exact Or.inl ⟨b.sbrk, sbrk_zero shared b, by omega, by omega⟩
  · cases Nat.lt_or_ge (b.sbrk.toNat + length.toNat) (2 ^ 64) with
    | inl sum =>
      rcases sbrk_sum near inHeap inside positive some sum with failed | ⟨moved, room⟩
      · exact Or.inr (Or.inl failed)
      · have place : (b.sbrk + length).toNat = b.sbrk.toNat + length.toNat := by bv_omega
        exact Or.inl ⟨_, moved, by omega, by omega⟩
    | inr wraps =>
      have moved : sbrk shared b length = _ := sbrk_wrapped near inHeap positive some small wraps
      cases shared with
      | true => exact Or.inl ⟨b.sbrkBase, moved, by omega, by omega⟩
      | false => exact Or.inr (Or.inr ⟨rfl, by bv_omega, wraps, small, moved⟩)
  · obtain ⟨v, moved, place⟩ := sbrk_down shared near inHeap inside negative large
    exact Or.inl ⟨v, moved, by omega, by omega⟩

end breaks

section requests

variable {m m' : HeapMemory} {h h' : Heap} {lo hi : Nat} {xs : List Word} {size p x : Word} {shared : Bool}

theorem chunk_fresh (m : HeapMemory) (c v : Word) : (m.fresh c v).chunk c = ⟨v, 0, 0, 0⟩ := by
  simp [HeapMemory.fresh]

/-- The end of `_malloc` returns the address behind the header and keeps the chunk's size. -/
theorem mallocSuccess_size (m : HeapMemory) (h : Heap) (x : Word) :
    ∃ m' h', mallocSuccess m h x = (x + sizeofMemChunk, m', h') ∧ (m'.chunk x).size = (m.chunk x).size ∧
      h'.brk = h.brk := by
  obtain ⟨m', tail, done, marked, _⟩ := mallocSuccess_spec m h x
  exact ⟨m', _, done, by rw [marked], rfl⟩

theorem split_size (cut : (split m x size).1 ≠ 0) : ((split m x size).2.chunk x).size = allocSize size := by
  unfold split at cut ⊢
  split at cut
  · exact absurd rfl cut
  · rename_i unused
    rw [if_neg unused]
    simp only at cut ⊢
    split at cut
    · exact absurd rfl cut
    · rename_i long
      rw [if_neg long, HeapMemory.chunk_setNext, HeapMemory.chunk_setSize]
      rfl

namespace Heap.Whole

/-- A chunk that is longer than needed is always cut. -/
theorem cut (whole : h.Whole m lo hi xs) (member : x ∈ xs) (fit : fits m (allocSize size) x = true)
    (long : allocSize size + minHeapAlloc < (m.chunk x).size) : (split m x size).1 ≠ 0 := by
  simp only [fits, Bool.and_eq_true, beq_iff_eq, decide_eq_true_eq] at fit
  obtain ⟨unused, room⟩ := fit
  have alloc := allocSize_mod size
  have bounds := whole.list.bounds member
  have below := whole.list.below
  have low := whole.low
  have origin : kernelVaBase.toNat = 0xFFFFF00000000000 := rfl
  have forty : minHeapAlloc.toNat = 40 := rfl
  have bound := size.isLt
  have enough : ¬ (m.chunk x).size ≤ align (2 * sizeofMemChunk) 8 + size := by
    have twice : align (2 * sizeofMemChunk) 8 = 64 := by decide
    rw [twice]
    rw [BitVec.lt_def, BitVec.toNat_add] at long
    rw [BitVec.le_def] at room
    rw [BitVec.le_def, BitVec.toNat_add]
    have sixtyFour : (64 : Word).toNat = 64 := rfl
    omega
  simp only [split, unused, ne_eq, not_true_eq_false, if_false, if_neg enough]
  decide

theorem behind_header (whole : h.Whole m lo hi xs) (member : x ∈ xs) : x + sizeofMemChunk ≠ 0 := by
  have place := whole.list.behind_header member
  bv_omega

/-- A chunk that fits is taken: cut to the bytes needed, or whole where little would be left. -/
theorem taken (whole : h.Whole m lo hi xs) (some : size ≠ 0)
    (found : xs.find? (fits m (allocSize size)) = Option.some x) (shared : Bool) :
    ∃ m' h', Returns (fun fuel => malloc fuel shared m h size) (x + sizeofMemChunk, m', h') ∧ x ∈ xs ∧
      ((m'.chunk x).size = allocSize size ∨
        (m'.chunk x).size = (m.chunk x).size ∧ allocSize size ≤ (m.chunk x).size ∧
          (m.chunk x).size ≤ allocSize size + minHeapAlloc) := by
  have member := List.mem_of_find?_eq_some found
  have fit := List.find?_some found
  by_cases long : allocSize size + minHeapAlloc < (m.chunk x).size
  · have cut := whole.cut member fit long
    obtain ⟨m', h', done, same, _⟩ := mallocSuccess_size (split m x size).2 h x
    refine ⟨m', h', ⟨xs.length, fun fuel more => ?_⟩, member, Or.inl (same.trans (split_size cut))⟩
    refine (malloc_taken whole.list.chain some found shared more).trans ?_
    rw [if_pos long, if_neg cut, done]
  · obtain ⟨m', h', done, same, _⟩ := mallocSuccess_size m h x
    simp only [fits, Bool.and_eq_true, beq_iff_eq, decide_eq_true_eq] at fit
    refine ⟨m', h', ⟨xs.length, fun fuel more => ?_⟩, member, Or.inr ⟨same, fit.2, BitVec.not_lt.mp long⟩⟩
    refine (malloc_taken whole.list.chain some found shared more).trans ?_
    rw [if_neg long, done]

/-- Where none fits, the answer of the break is the chunk, unless it is 0. -/
theorem asked (whole : h.Whole m lo hi xs) (some : size ≠ 0) (none : ∀ x ∈ xs, fits m (allocSize size) x = false)
    (shared : Bool) {c : Word} {b : HeapBreak} (answer : sbrk shared h.brk (allocSize size) = (c, b)) (proper : c ≠ 0) :
    ∃ m' h', Returns (fun fuel => malloc fuel shared m h size) (c + sizeofMemChunk, m', h') ∧ h'.brk = b ∧
      (m'.chunk c).size = allocSize size := by
  obtain ⟨m', h', done, same, brk⟩ := mallocSuccess_size (m.fresh c (allocSize size)) { h with tail := c, brk := b } c
  rw [chunk_fresh] at same
  refine ⟨m', h', ⟨xs.length, fun fuel more => ?_⟩, brk, same⟩
  refine (malloc_asked whole.list.chain some none shared more).trans ?_
  simp only [answer, if_neg proper, done]

/-- The request that takes the private break around: null comes back, with the break at 0. -/
theorem nulls (whole : h.Whole m lo hi xs) (some : size ≠ 0) (wraps : WrapsToNull shared m h xs size) :
    ∃ b, b ≠ h.brk ∧ Returns (fun fuel => malloc fuel shared m h size) (0, m, { h with brk := b }) := by
  obtain ⟨rfl, none, zero⟩ := wraps
  have origin : kernelVaBase.toNat = 0xFFFFF00000000000 := rfl
  have low := whole.near.low
  have inside := whole.inside
  have above := whole.inHeap.1
  have sum : h.brk.sbrk.toNat + (allocSize size).toNat = 2 ^ 64 := by bv_omega
  have some' : 0 < (allocSize size).toNat := by
    have bound := h.brk.sbrk.isLt
    omega
  have sign : (allocSize size).msb = false := BitVec.msb_eq_false_iff_two_mul_lt.mpr (by omega)
  have moved : sbrk false h.brk (allocSize size) = _ :=
    sbrk_wrapped whole.near whole.inHeap (BitVec.slt_zero_eq_msb.trans sign) some' (by omega) (by omega)
  have changed : { h.brk with sbrk := h.brk.sbrk + allocSize size } ≠ h.brk := by
    intro same
    have equal : h.brk.sbrk + allocSize size = h.brk.sbrk := congrArg HeapBreak.sbrk same
    bv_omega
  refine ⟨_, changed, xs.length, fun fuel more => ?_⟩
  refine (malloc_asked whole.list.chain some none false more).trans ?_
  simp only [moved, Bool.false_eq_true, if_false, if_pos zero]

/-- Every other request is answered with an address, behind a chunk of about the bytes that the code computed. -/
theorem served (whole : h.Whole m lo hi xs) (some : size ≠ 0) (straight : ¬ WrapsToNull shared m h xs size) :
    ∃ x m' h', Returns (fun fuel => malloc fuel shared m h size) (x + sizeofMemChunk, m', h') ∧
      x + sizeofMemChunk ≠ 0 ∧ (allocSize size).toNat ≤ (m'.chunk x).size.toNat ∧
      (m'.chunk x).size.toNat ≤ (allocSize size).toNat + 40 := by
  have origin : kernelVaBase.toNat = 0xFFFFF00000000000 := rfl
  have header : sizeofMemChunk.toNat = 32 := rfl
  have forty : minHeapAlloc.toNat = 40 := rfl
  cases found : xs.find? (fits m (allocSize size)) with
  | some x =>
    obtain ⟨m', h', returned, member, long⟩ := whole.taken some found shared
    refine ⟨x, m', h', returned, whole.behind_header member, ?_⟩
    rcases long with same | ⟨same, least, most⟩
    · rw [same]
      omega
    · rw [same]
      rw [BitVec.le_def] at least most
      rw [BitVec.toNat_add] at most
      omega
  | none =>
    have none : ∀ x ∈ xs, fits m (allocSize size) x = false := by
      simpa using List.find?_eq_none.mp found
    have grown : ∀ (c : Word) b, sbrk shared h.brk (allocSize size) = (c, b) → c ≠ 0 → c + sizeofMemChunk ≠ 0 →
        ∃ x m' h', Returns (fun fuel => malloc fuel shared m h size) (x + sizeofMemChunk, m', h') ∧
          x + sizeofMemChunk ≠ 0 ∧ (allocSize size).toNat ≤ (m'.chunk x).size.toNat ∧
          (m'.chunk x).size.toNat ≤ (allocSize size).toNat + 40 := by
      intro c b answer proper behind
      obtain ⟨m', h', returned, _, same⟩ := whole.asked some none shared answer proper
      have equal := congrArg BitVec.toNat same
      exact ⟨c, m', h', returned, behind, by omega, by omega⟩
    rcases sbrk_address whole.near whole.inHeap whole.inside with ⟨v, answer, low, high⟩ | answer | wrapped
    · exact grown v _ answer (by bv_omega) (by bv_omega)
    · exact grown _ _ answer (by decide) (by decide)
    · obtain ⟨rfl, _, past, small, answer⟩ := wrapped
      have proper : h.brk.sbrk + allocSize size ≠ 0 := fun zero => straight ⟨rfl, none, zero⟩
      exact grown _ _ answer proper (by bv_omega)

/-- A size so large that the header wraps it is served from the front of the address space's numbers. -/
theorem wrapped_straight (whole : h.Whole m lo hi xs) (wraps : 2 ^ 64 ≤ size.toNat + 39) :
    (allocSize size).toNat ≤ 32 ∧ ¬ WrapsToNull shared m h xs size := by
  have alloc := allocSize_mod size
  have bound := size.isLt
  have small : (allocSize size).toNat ≤ 32 := by omega
  refine ⟨small, ?_⟩
  rintro ⟨_, _, zero⟩
  have high := whole.near.high
  have below := whole.inHeap.2
  have low := whole.near.low
  have above := whole.inHeap.1
  have inside := whole.inside
  have origin : kernelVaBase.toNat = 0xFFFFF00000000000 := rfl
  bv_omega

end Heap.Whole

theorem bootHeaps_whole : (bootHeaps.heap false).Whole bootHeaps.mem (bootHeaps.heap false).listStart
    (bootHeaps.heap false).listEnd [privateBase] := by
  have ok := init_ok (fun _ => 0) linkedLayout_ready.1 linkedLayout_ready.2 (by decide)
  obtain ⟨⟨xs, list, _⟩, _⟩ := ok.each false
  have chain : Chain bootHeaps.mem.next 0 (bootHeaps.heap false).head [privateBase] := ⟨⟨rfl, rfl⟩, by decide⟩
  obtain rfl := list.chain.unique chain
  refine ⟨list, by decide, ⟨by decide, by decide⟩, ⟨by decide, by decide⟩, by decide⟩

/-- The bytes of a chunk with a block of `size` bytes, as the numbers they are. -/
def chunkBytes (size : Nat) : Nat := (size + 39) / 8 * 8

/-- No unused chunk is long enough, and the break cannot go so far inside its heap. -/
def Heap.Exhausted (m : HeapMemory) (h : Heap) (xs : List Word) (size : Word) : Prop :=
  (∀ x ∈ xs, (m.chunk x).used = 0 → (m.chunk x).size.toNat < chunkBytes size.toNat) ∧
    h.top < h.brk.sbrk.toNat + chunkBytes size.toNat

/-- When the heap is used up `_malloc` returns null and leaves memory, list and break as they are. -/
def ReportsExhaustion (shared : Bool) (m : HeapMemory) (h : Heap) (xs : List Word) (size : Word) : Prop :=
  h.Exhausted m xs size → Returns (fun fuel => malloc fuel shared m h size) (0, m, h)

/-- Only a request for nothing is refused. -/
theorem malloc_exhaustion_iff (whole : h.Whole m lo hi xs) (shared : Bool) (size : Word) :
    ReportsExhaustion shared m h xs size ↔ (h.Exhausted m xs size → size = 0) := by
  constructor
  · intro reports exhausted
    have refused := reports exhausted
    by_contra some
    by_cases wraps : WrapsToNull shared m h xs size
    · obtain ⟨b, changed, returned⟩ := whole.nulls some wraps
      have same := (Prod.mk.inj (Prod.mk.inj (refused.unique returned)).2).2
      exact changed (congrArg Heap.brk same).symm
    · obtain ⟨x, m', h', returned, proper, _⟩ := whole.served some wraps
      exact proper (Prod.mk.inj (refused.unique returned)).1.symm
  · intro nothing exhausted
    obtain rfl := nothing exhausted
    exact ⟨0, fun fuel _ => rfl⟩

/- The private heap with its one chunk used and the break at its end. -/
def usedUpMemory : HeapMemory := (bootHeaps.mem.setUsed privateBase 1).setAddress privateBase (privateBase + sizeofMemChunk)

def usedUp : Heap :=
  { bootHeaps.heap false with brk := { (bootHeaps.heap false).brk with sbrk := privateBase + kernelHeapSize } }

theorem usedUp_whole : usedUp.Whole usedUpMemory privateBase.toNat (privateBase.toNat + 0x5000) [privateBase] := by
  have only : usedUpMemory.chunk privateBase = ⟨0x5000, 1, privateBase + sizeofMemChunk, 0⟩ := by decide +kernel
  refine ⟨⟨⟨⟨rfl, congrArg Chunk.next only⟩, by decide⟩, ⟨rfl, ?_⟩, ?_, ?_, by decide⟩, by decide,
    ⟨by decide, by decide⟩, ⟨by decide, by decide⟩, by decide⟩
  · show privateBase.toNat + (usedUpMemory.chunk privateBase).size.toNat = _
    rw [only]
    rfl
  all_goals
    intro x member
    obtain rfl := List.mem_singleton.mp member
  · exact only ▸ by decide
  · exact fun _ => congrArg Chunk.address only

theorem usedUp_exhausted (size : Word) : usedUp.Exhausted usedUpMemory [privateBase] size := by
  have used : (usedUpMemory.chunk privateBase).used ≠ 0 := by decide +kernel
  have top : usedUp.top = usedUp.brk.sbrk.toNat := by decide
  refine ⟨fun x member unused => ?_, ?_⟩
  · obtain rfl := List.mem_singleton.mp member
    exact absurd unused used
  · rw [top]
    unfold chunkBytes
    omega

theorem malloc_exhaustion_iff_used_up : usedUp.Exhausted usedUpMemory [privateBase] 24 ∧
    ¬ ReportsExhaustion false usedUpMemory usedUp [privateBase] 24 := by
  have exhausted := usedUp_exhausted 24
  refine ⟨exhausted, fun reports => ?_⟩
  exact absurd ((malloc_exhaustion_iff usedUp_whole false 24).mp reports exhausted) (by decide)

/-- 32 MB from the 16 MB heap: a pointer comes back. -/
theorem exhaustion_not_reported :
    ¬ ReportsExhaustion false bootHeaps.mem (bootHeaps.heap false) [privateBase] 0x2000000 := by
  intro reports
  have exhausted : (bootHeaps.heap false).Exhausted bootHeaps.mem [privateBase] 0x2000000 := by
    refine ⟨fun x member _ => ?_, by decide⟩
    rw [List.mem_singleton.mp member]
    decide
  have straight : ¬ WrapsToNull false bootHeaps.mem (bootHeaps.heap false) [privateBase] 0x2000000 := by
    rintro ⟨_, _, zero⟩
    exact absurd zero (by decide)
  obtain ⟨x, m', h', returned, proper, _⟩ := bootHeaps_whole.served (by decide) straight
  exact proper (Prod.mk.inj ((reports exhausted).unique returned)).1.symm

/-- The chunk in front of the block at `p` has room for its header and `bytes` bytes. -/
def HeapMemory.Holds (m : HeapMemory) (p : Word) (bytes : Nat) : Prop :=
  bytes + sizeofMemChunk.toNat ≤ (m.chunk (p - sizeofMemChunk)).size.toNat

/-- Byte `j` of the block at `p`. -/
def HeapMemory.blockByte (m : HeapMemory) (p : Word) (j : Nat) : Byte :=
  (m (p + BitVec.ofNat 64 (8 * (j / 8)))).extractLsb' (8 * (j % 8)) 8

def MallocHolds (shared : Bool) (m : HeapMemory) (h : Heap) (size : Word) : Prop :=
  ∀ p m' h', Returns (fun fuel => malloc fuel shared m h size) (p, m', h') → p ≠ 0 → m'.Holds p size.toNat

def CallocHolds (shared : Bool) (s : HeapHistory) (nmeb count : Word) : Prop :=
  ∀ p s', Returns (fun fuel => groupCalloc fuel shared s nmeb count) (p, s') → p ≠ 0 →
    s'.mem.Holds p (nmeb.toNat * count.toNat) ∧ ∀ j < nmeb.toNat * count.toNat, s'.mem.blockByte p j = 0

theorem zeroed_outside {a : Word} (outside : size.toNat ≤ (a - p).toNat) : m.zeroed p size a = m a := by
  have past : ¬ (a - p).toNat + 8 ≤ size.toNat := by omega
  have beyond : ¬ (a - p).toNat < size.toNat := by omega
  simp only [HeapMemory.zeroed, if_neg past, if_neg beyond]

/-- `memset` leaves the header in front of the block alone. -/
theorem zeroed_header (small : size.toNat + 32 ≤ 2 ^ 64) :
    ((m.zeroed p size).chunk (p - sizeofMemChunk)).size = (m.chunk (p - sizeofMemChunk)).size := by
  have offset : (p - sizeofMemChunk - p).toNat = 2 ^ 64 - 32 := by
    unfold sizeofMemChunk
    bv_omega
  exact zeroed_outside (by omega)

theorem zeroed_byte {j : Nat} (inside : j < size.toNat) : (m.zeroed p size).blockByte p j = 0 := by
  have bound := size.isLt
  have offset : (p + BitVec.ofNat 64 (8 * (j / 8)) - p).toNat = 8 * (j / 8) := by bv_omega
  have within : 8 * (j / 8) < size.toNat := by omega
  unfold HeapMemory.blockByte HeapMemory.zeroed
  simp only [offset, if_pos within]
  by_cases full : 8 * (j / 8) + 8 ≤ size.toNat
  · simp [full]
  · rw [if_neg full]
    apply BitVec.eq_of_getLsbD_eq
    intro i small
    have low : 8 * (j % 8) + i < 8 * (size.toNat - 8 * (j / 8)) := by omega
    simp [low]

theorem holds_of_size {bytes : Nat} (room : bytes + 32 ≤ (m.chunk x).size.toNat) :
    m.Holds (x + sizeofMemChunk) bytes := by
  have back : x + sizeofMemChunk - sizeofMemChunk = x := by bv_omega
  rw [HeapMemory.Holds, back]
  exact room

theorem size_of_holds {bytes : Nat} (holds : m.Holds (x + sizeofMemChunk) bytes) :
    bytes + 32 ≤ (m.chunk x).size.toNat := by
  have back : x + sizeofMemChunk - sizeofMemChunk = x := by bv_omega
  rw [HeapMemory.Holds, back] at holds
  exact holds

theorem malloc_holds_iff (whole : h.Whole m lo hi xs) (shared : Bool) (size : Word) :
    MallocHolds shared m h size ↔ size.toNat + 39 < 2 ^ 64 := by
  have alloc := allocSize_mod size
  by_cases some : size = 0
  · subst some
    refine iff_of_true (fun p m' h' returned proper => ?_) (by decide)
    have nothing : Returns (fun fuel => malloc fuel shared m h 0) (0, m, h) := ⟨0, fun fuel _ => rfl⟩
    exact absurd (Prod.mk.inj (returned.unique nothing)).1 proper
  constructor
  · intro holds
    by_contra wraps
    obtain ⟨small, straight⟩ : _ ∧ ¬ WrapsToNull shared m h xs size := whole.wrapped_straight (Nat.le_of_not_lt wraps)
    obtain ⟨x, m', h', returned, proper, _, most⟩ := whole.served some straight
    have room := size_of_holds (holds _ _ _ returned proper)
    omega
  · intro straight p m' h' returned proper
    rw [Nat.mod_eq_of_lt straight] at alloc
    by_cases null : WrapsToNull shared m h xs size
    · obtain ⟨b, _, given⟩ := whole.nulls some null
      exact absurd (Prod.mk.inj (returned.unique given)).1 proper
    · obtain ⟨x, m₁, h₁, given, _, least, _⟩ := whole.served some null
      obtain ⟨rfl, rest⟩ := Prod.mk.inj (returned.unique given)
      obtain ⟨rfl, rfl⟩ := Prod.mk.inj rest
      exact holds_of_size (by omega)

section calloc

variable {s : HeapHistory} {nmeb count : Word}

theorem calloc_null (some : nmeb * count ≠ 0)
    (null : Returns (fun fuel => malloc fuel shared s.mem (s.heap shared) (nmeb * count)) (0, m', h')) :
    ∃ s', Returns (fun fuel => groupCalloc fuel shared s nmeb count) (0, s') := by
  obtain ⟨n, given⟩ := null
  refine ⟨⟨m', Function.update s.heap shared h', s.live⟩, n, fun fuel more => ?_⟩
  have ran := given fuel more
  simp only at ran
  simp only [groupCalloc, if_neg some, groupMalloc, ran, if_true]

theorem calloc_block (some : nmeb * count ≠ 0) (proper : p ≠ 0)
    (block : Returns (fun fuel => malloc fuel shared s.mem (s.heap shared) (nmeb * count)) (p, m', h')) :
    ∃ s', Returns (fun fuel => groupCalloc fuel shared s nmeb count) (p, s') ∧
      s'.mem = m'.zeroed p (nmeb * count) := by
  obtain ⟨n, given⟩ := block
  refine ⟨⟨m'.zeroed p (nmeb * count), Function.update s.heap shared h', ⟨shared, p, nmeb * count⟩ :: s.live⟩,
    ⟨n, fun fuel more => ?_⟩, rfl⟩
  have ran := given fuel more
  simp only at ran
  simp only [groupCalloc, if_neg some, groupMalloc, ran, if_neg proper]

theorem calloc_holds_iff (whole : (s.heap shared).Whole s.mem lo hi xs) (nmeb count : Word) :
    CallocHolds shared s nmeb count ↔ nmeb * count = 0 ∨ nmeb.toNat * count.toNat + 39 < 2 ^ 64 ∨
      WrapsToNull shared s.mem (s.heap shared) xs (nmeb * count) := by
  have alloc := allocSize_mod (nmeb * count)
  have product : (nmeb * count).toNat = nmeb.toNat * count.toNat % 2 ^ 64 := BitVec.toNat_mul ..
  by_cases some : nmeb * count = 0
  · refine iff_of_true (fun p s' returned proper => ?_) (Or.inl some)
    have nothing : Returns (fun fuel => groupCalloc fuel shared s nmeb count) (0, s) :=
      ⟨0, fun fuel _ => by simp only [groupCalloc, if_pos some]⟩
    exact absurd (Prod.mk.inj (returned.unique nothing)).1 proper
  by_cases null : WrapsToNull shared s.mem (s.heap shared) xs (nmeb * count)
  · refine iff_of_true (fun p s' returned proper => ?_) (Or.inr (Or.inr null))
    obtain ⟨b, _, given⟩ := whole.nulls some null
    obtain ⟨after, nothing⟩ := calloc_null some given
    exact absurd (Prod.mk.inj (returned.unique nothing)).1 proper
  obtain ⟨x, m', h', given, proper, least, most⟩ := whole.served some null
  obtain ⟨after, returned, zeroed⟩ := calloc_block some proper given
  have room : (nmeb * count).toNat + 32 ≤ 2 ^ 64 →
      ((m'.zeroed (x + sizeofMemChunk) (nmeb * count)).chunk x).size = (m'.chunk x).size := by
    intro small
    have same := zeroed_header (p := x + sizeofMemChunk) (m := m') small
    have back : x + sizeofMemChunk - sizeofMemChunk = x := by bv_omega
    rwa [back] at same
  constructor
  · intro holds
    refine Or.inr (Or.inl ?_)
    by_contra wraps
    have held := size_of_holds (zeroed ▸ (holds _ _ returned proper).1)
    have bound := ((m'.zeroed (x + sizeofMemChunk) (nmeb * count)).chunk x).size.isLt
    rw [Nat.mod_eq_of_lt (by omega)] at product
    rw [room (by omega)] at held
    omega
  · intro cases
    have straight := (cases.resolve_left some).resolve_right null
    rw [Nat.mod_eq_of_lt (by omega)] at product
    rw [Nat.mod_eq_of_lt (by omega)] at alloc
    intro p s' other proper'
    obtain ⟨rfl, rfl⟩ := Prod.mk.inj (other.unique returned)
    rw [zeroed]
    refine ⟨holds_of_size ?_, fun j inside => zeroed_byte (by omega)⟩
    rw [room (by omega)]
    omega

/-- What `_malloc` and the calloc functions return is large enough for these sizes and no others. -/
theorem blocks_hold_iff (whole : (s.heap shared).Whole s.mem lo hi xs) (size nmeb count : Word) :
    (MallocHolds shared s.mem (s.heap shared) size ↔ size.toNat + 39 < 2 ^ 64) ∧
      (CallocHolds shared s nmeb count ↔ nmeb * count = 0 ∨ nmeb.toNat * count.toNat + 39 < 2 ^ 64 ∨
        WrapsToNull shared s.mem (s.heap shared) xs (nmeb * count)) :=
  ⟨malloc_holds_iff whole shared size, calloc_holds_iff whole nmeb count⟩

end calloc

/-- A request for 24 bytes, and one for three times eight. -/
theorem blocks_hold_iff_small :
    (MallocHolds false bootHeaps.mem (bootHeaps.heap false) 24 ↔ (24 : Word).toNat + 39 < 2 ^ 64) ∧
      (CallocHolds false bootHeaps 3 8 ↔ (3 : Word) * 8 = 0 ∨ (3 : Word).toNat * (8 : Word).toNat + 39 < 2 ^ 64 ∨
        WrapsToNull false bootHeaps.mem (bootHeaps.heap false) [privateBase] (3 * 8)) :=
  blocks_hold_iff bootHeaps_whole 24 3 8

/-- For 2^64 - 1 bytes a chunk of 32 bytes is cut off and its block returned. -/
theorem huge_request_served : ¬ MallocHolds false bootHeaps.mem (bootHeaps.heap false) 0xFFFFFFFFFFFFFFFF := by
  intro holds
  obtain ⟨small, straight⟩ : (allocSize 0xFFFFFFFFFFFFFFFF).toNat ≤ 32 ∧
      ¬ WrapsToNull false bootHeaps.mem (bootHeaps.heap false) [privateBase] 0xFFFFFFFFFFFFFFFF :=
    bootHeaps_whole.wrapped_straight (by decide)
  obtain ⟨x, m', h', returned, proper, _, most⟩ := bootHeaps_whole.served (by decide) straight
  have room := size_of_holds (holds _ _ _ returned proper)
  have size : (0xFFFFFFFFFFFFFFFF : Word).toNat = 2 ^ 64 - 1 := rfl
  omega

end requests

end RealmVm
