import RealmVm.Heap.ArenaRuns
import RealmVm.Heap.FreedMemory

/-! Which blocks the lists of the heaps still lead to, and where their tails are. -/
namespace RealmVm

open Lib

/-- The list leads to the chunk of every live block of the heap, and `tail` is its last chunk. -/
structure ListLinked (s : HeapHistory) (shared : Bool) (front : List Word) : Prop where
  chain : Chain s.mem.next 0 (s.heap shared).head (front ++ [(s.heap shared).tail])
  blocks : ∀ b ∈ blocksOf s.live shared, ∃ c ∈ front ++ [(s.heap shared).tail], b.address = c + sizeofMemChunk

def BlocksReachable (s : HeapHistory) : Prop := ∀ shared, ∃ front, ListLinked s shared front

/- Only live blocks are freed or stored to; any size may be asked for. -/
def HeapCall.OnLive (s : HeapHistory) : HeapCall → Prop
  | malloc _ _ => True
  | free b => b ∈ s.live
  | store b index _ => b ∈ s.live ∧ 8 * index < b.size.toNat

def liveStep (s : HeapHistory) (call : HeapCall) (s' : HeapHistory) : Prop := call.OnLive s ∧ call.Performs s s'

/-- Behind the chunk stands an unused one, and it takes that over when it is freed. -/
def JoinsNext (m : HeapMemory) (c : Word) : Prop := m.next c ≠ 0 ∧ (m.chunk (m.next c)).used = 0

/-- A request is served from the list, with a length that does not wrap, and a chunk that is
freed takes over no other. -/
def HeapCall.KeepsList (s : HeapHistory) : HeapCall → Prop
  | malloc shared size => size = 0 ∨ size.toNat + 39 < 2 ^ 64 ∧ s.Serves shared size
  | free b => ¬ JoinsNext s.mem (b.address - sizeofMemChunk)
  | store _ _ _ => True

def keepingStep (s : HeapHistory) (call : HeapCall) (s' : HeapHistory) : Prop := call.KeepsList s ∧ liveStep s call s'

/-- As `ListLinked`, with what is known of the chunks of the blocks. -/
structure Tracked (s : HeapHistory) (shared : Bool) (front : List Word) : Prop where
  chain : Chain s.mem.next 0 (s.heap shared).head (front ++ [(s.heap shared).tail])
  held : ∀ b ∈ blocksOf s.live shared, b.Held s.mem (front ++ [(s.heap shared).tail])

/-- What holds after every run of calls that keep the list. -/
structure ListsKept (s : HeapHistory) : Prop where
  ok : HeapsOk s
  last : ∀ shared, LastUnused s.mem (s.heap shared).head
  tracked : ∀ shared, ∃ front, Tracked s shared front

variable {s s' : HeapHistory} {shared : Bool} {size : Word} {b : Block} {call : HeapCall}

theorem ListsKept.reachable (kept : ListsKept s) : BlocksReachable s := by
  intro shared
  obtain ⟨front, chain, held⟩ := kept.tracked shared
  refine ⟨front, chain, fun b member => ?_⟩
  obtain ⟨c, onList, address, _⟩ := held b member
  exact ⟨c, onList, address⟩

/-- An operation on one heap that keeps to its own part of memory. -/
theorem tracked_change (ok : HeapsOk s) (tracked : ∀ shared, ∃ front, Tracked s shared front) {m' : HeapMemory}
    {h' : Heap} {live' : List Block}
    (own : ∃ front, Tracked ⟨m', Function.update s.heap shared h', live'⟩ shared front)
    (frame : ∀ c, Outside (s.heap shared).listStart (s.heap shared).top c → m'.chunk c = s.mem.chunk c)
    (older : ∀ b ∈ live', b.shared ≠ shared → b ∈ s.live) (other : Bool) :
    ∃ front, Tracked ⟨m', Function.update s.heap shared h', live'⟩ other front := by
  by_cases same : other = shared
  · exact same ▸ own
  · obtain ⟨front, chain, held⟩ := tracked other
    obtain ⟨xs, list, _⟩ := (ok.each other).list
    obtain rfl := list.chain.unique chain
    have unchanged : ∀ c ∈ front ++ [(s.heap other).tail], m'.chunk c = s.mem.chunk c := fun c member =>
      frame c (ok.outside same list member)
    refine ⟨front, ?_, fun b member => ?_⟩
    · simp only [Function.update_of_ne same]
      exact chain.frame fun c hc => congrArg Chunk.next (unchanged c hc)
    · simp only [Function.update_of_ne same]
      obtain ⟨live, mine⟩ := List.mem_filter.mp member
      have here : b.shared = other := of_decide_eq_true mine
      have before := older b live (here ▸ same)
      obtain ⟨c, onList, address, rest⟩ := held b (List.mem_filter.mpr ⟨before, mine⟩)
      exact ⟨c, onList, address, by rw [unchanged c onList]; exact rest⟩

/-- A request that the list serves with a length that does not wrap is small. -/
theorem HeapsOk.small (ok : HeapsOk s) (noWrap : size.toNat + 39 < 2 ^ 64) (serves : s.Serves shared size) :
    size.toNat < 2 ^ 62 := by
  obtain ⟨⟨xs, list, _⟩, _⟩ := ok.each shared
  obtain ⟨ys, chain, x, member, fit⟩ := serves
  obtain rfl := list.chain.unique chain
  have alloc := allocSize_mod size
  rw [Nat.mod_eq_of_lt noWrap] at alloc
  have bounds := list.bounds member
  have arena : (s.heap shared).listEnd = (s.heap shared).listStart + 0x5000 := rfl
  simp only [fits, Bool.and_eq_true, beq_iff_eq, decide_eq_true_eq] at fit
  have room : (allocSize size).toNat ≤ (s.mem.chunk x).size.toNat := fit.2
  omega

/-- When the last chunk serves a request, the new tail is the last chunk again. -/
theorem Taken.tail_last {m m' : HeapMemory} {heap : Heap} {lo hi : Nat} {pre zs : List Word}
    (taken : Taken m m' heap.head lo hi pre heap.tail [] size) (last : m.next heap.tail = 0)
    (after : Chain m'.next 0 heap.head zs) : ∃ front, zs = front ++ [tailAfter m' heap heap.tail] := by
  rw [tailAfter, if_pos rfl]
  by_cases long : allocSize size + minHeapAlloc < (m.chunk heap.tail).size
  · obtain ⟨list, here, _⟩ := taken.cut long
    obtain rfl := list.chain.unique after
    have next : m'.next heap.tail = heap.tail + allocSize size := congrArg Chunk.next here
    have proper : heap.tail + allocSize size ≠ 0 := fun null => list.chain.proper (null ▸ by simp)
    rw [next, if_neg proper]
    exact ⟨pre ++ [heap.tail], by simp⟩
  · obtain ⟨list, here⟩ := taken.whole long
    obtain rfl := list.chain.unique after
    have next : m'.next heap.tail = 0 := (congrArg Chunk.next here).trans last
    rw [if_pos next]
    exact ⟨pre, rfl⟩

/-- The unused chunk that serves a request is the last, and its rest is the new tail. -/
theorem malloc_tracked (kept : ListsKept s) (positive : 0 < size.toNat) (small : size.toNat < 2 ^ 62)
    (serves : s.Serves shared size) {p : Word} {m' : HeapMemory} {h' : Heap}
    (returned : Returns (fun fuel => malloc fuel shared s.mem (s.heap shared) size) (p, m', h')) (other : Bool) :
    ∃ front, Tracked ⟨m', Function.update s.heap shared h', ⟨shared, p, size⟩ :: s.live⟩ other front := by
  obtain ⟨ok, last, tracked⟩ := kept
  obtain ⟨⟨xs, list, _⟩, fits, _, _⟩ := ok.each shared
  obtain ⟨front, chain, held⟩ := tracked shared
  obtain ⟨ys, chain', served⟩ := serves
  obtain rfl := list.chain.unique chain'
  obtain same := list.chain.unique chain
  obtain ⟨pre, x, post, rfl, unused, room, m₁, tail, ran, tail', taken⟩ :=
    malloc_takes list positive small served shared
  cases returned.unique ⟨_, ran⟩
  -- an unused chunk is the last one
  have final := last shared _ list.chain x List.mem_append_cons_self unused
  have alone : post = [] := list.chain.suffix.2.empty_iff.mp final
  subst alone
  obtain ⟨rfl, here⟩ := List.append_inj' same rfl
  obtain rfl : x = (s.heap shared).tail := List.singleton_inj.mp here
  have allocated := taken.allocated small room
  obtain ⟨zs, after, _⟩ := allocated.list
  obtain ⟨front', rfl⟩ := taken.tail_last final after.chain
  rw [← tail'] at after
  refine tracked_change ok tracked ⟨front', ?_, ?_⟩
    (fun c out => taken.frame c ⟨out.1, out.2.imp_right (Nat.le_trans fits)⟩)
    (fun b member different => Block.older member different) other
  · simp only [Function.update_self]
    exact after.chain
  · simp only [Function.update_self, blocksOf_cons ⟨shared, _, size⟩]
    exact allocated.held unused held after List.mem_append_cons_self

/-- `_free` of a live block finds its chunk, and joins it to no chunk in front of it. -/
theorem free_absorbs (kept : ListsKept s) (member : b ∈ s.live) :
    ∃ pre c post, ChunkList s.mem (s.heap b.shared).head (s.heap b.shared).listStart (s.heap b.shared).listEnd
        (pre ++ c :: post) ∧ b.address = c + sizeofMemChunk ∧ c ≠ 0 ∧
      Returns (fun fuel => free fuel s.mem (s.heap b.shared) b.address) (absorbNext s.mem c) := by
  obtain ⟨ok, last, tracked⟩ := kept
  obtain ⟨⟨xs, list, _⟩, _⟩ := ok.each b.shared
  obtain ⟨front, chain, held⟩ := tracked b.shared
  obtain rfl := chain.unique list.chain
  obtain ⟨c, onList, address, used, _⟩ := held b (mem_blocksOf member)
  have claims : (s.mem.chunk c).address = b.address := (list.owned c onList used).trans address.symm
  rcases freeScan_spec b.address list.chain (s.heap b.shared).head with
    ⟨nobody, _⟩ | ⟨pre, x, post, split, claimed, before, ran⟩
  · exact absurd claims (nobody c onList)
  · rw [split] at list onList ran
    have middle : x ∈ pre ++ x :: post := List.mem_append_cons_self
    have same : x = c := by
      by_contra other
      -- another claimant is unused, so it is the last, and the block's chunk is in front of it
      have unused : (s.mem.chunk x).used = 0 := by
        by_contra usedX
        have own := list.owned x middle usedX
        rw [claimed, address] at own
        exact other (by bv_omega)
      have final := last b.shared _ list.chain x middle unused
      have alone : post = [] := list.chain.suffix.2.empty_iff.mp final
      have early := (ChunkList.mem_middle.mp onList).resolve_left (Ne.symm other)
      rw [alone, List.append_nil] at early
      exact before c early claims
    subst same
    obtain ⟨first, freed⟩ := free_found list ran rfl
    rw [coalesce_alone ((last b.shared).alone list first)] at freed
    exact ⟨pre, x, post, list, address, fun null => list.chain.proper (null ▸ middle), _, freed⟩

/-- Without an unused chunk behind it nothing changes. -/
theorem free_unchanged (kept : ListsKept s) (member : b ∈ s.live) (keeps : HeapCall.KeepsList s (.free b)) :
    Returns (fun fuel => free fuel s.mem (s.heap b.shared) b.address) s.mem := by
  obtain ⟨pre, c, post, _, address, _, freed⟩ := free_absorbs kept member
  have header : b.address - sizeofMemChunk = c := by bv_omega
  have apart : ¬ JoinsNext s.mem c := header ▸ keeps
  have alone : absorbNext s.mem c = s.mem := if_neg apart
  rwa [alone] at freed

theorem keeping_safe (ok : HeapsOk s) (keeps : call.KeepsList s) (onLive : call.OnLive s) :
    call.Safe s ∧ call.Allowed s := by
  cases call with
  | malloc shared size =>
    rcases keeps with rfl | ⟨noWrap, serves⟩
    · have zero : (0 : Word).toNat < 2 ^ 62 := by decide
      exact ⟨Or.inl rfl, zero⟩
    · exact ⟨Or.inr (Or.inl serves), ok.small noWrap serves⟩
  | free b => exact ⟨trivial, onLive⟩
  | store b index v => exact ⟨trivial, onLive⟩

theorem keeping_step (kept : ListsKept s) (step : keepingStep s call s') : ListsKept s' := by
  obtain ⟨keeps, onLive, performs⟩ := step
  obtain ⟨safe, allowed⟩ := keeping_safe kept.ok keeps onLive
  have step : safeHeapStep s call s' := ⟨safe, allowed, performs⟩
  refine ⟨safe_step kept.ok step, lastUnused_step kept.ok kept.last step, fun other => ?_⟩
  cases call with
  | malloc shared size =>
    obtain ⟨p, m', h', returned, rfl⟩ := performs
    by_cases none : size = 0
    · subst none
      have nothing : Returns (fun fuel => malloc fuel shared s.mem (s.heap shared) 0) (0, s.mem, s.heap shared) :=
        ⟨0, fun fuel _ => rfl⟩
      cases returned.unique nothing
      rw [Function.update_eq_self, if_pos rfl]
      exact kept.tracked other
    · have serves := (keeps.resolve_left none).2
      have positive : 0 < size.toNat := by bv_omega
      obtain ⟨p', m₁, h₁, again, proper, _⟩ := malloc_step_served kept.ok positive allowed serves
      cases returned.unique again
      rw [if_neg proper]
      exact malloc_tracked kept positive allowed serves returned other
  | free b =>
    obtain ⟨m', returned, rfl⟩ := performs
    obtain rfl := returned.unique (free_unchanged kept onLive keeps)
    obtain ⟨front, chain, held⟩ := kept.tracked other
    refine ⟨front, chain, fun c member => held c ?_⟩
    obtain ⟨left, mine⟩ := List.mem_filter.mp member
    exact List.mem_filter.mpr ⟨List.mem_of_mem_erase left, mine⟩
  | store b index v =>
    obtain rfl := performs
    obtain ⟨front, chain, held⟩ := kept.tracked other
    obtain ⟨xs, list, _⟩ := (kept.ok.each other).list
    obtain rfl := chain.unique list.chain
    have same := fun c onList => kept.ok.store_header allowed.1 allowed.2 v list (c := c) onList
    refine ⟨front, chain.frame fun c onList => congrArg Chunk.next (same c onList), fun c member => ?_⟩
    obtain ⟨d, onList, address, rest⟩ := held c member
    exact ⟨d, onList, address, by simpa only [same d onList] using rest⟩

/-- A chunk that the break gives is not on the list. -/
theorem growth_unlinked (kept : ListsKept s) (positive : 0 < size.toNat) (small : size.toNat < 2 ^ 62)
    (unserved : ¬ s.Serves shared size) (grows : s.Grows shared size)
    (performs : HeapCall.Performs s s' (.malloc shared size)) : ¬ BlocksReachable s' := by
  intro reachable
  obtain ⟨⟨xs, list, _⟩, _, noWrap, broken⟩ := kept.ok.each shared
  obtain ⟨p, m', h', returned, rfl⟩ := performs
  have none : ∀ x ∈ xs, fits s.mem (allocSize size) x = false := fun x hx =>
    Bool.eq_false_iff.mpr fun fit => unserved ⟨xs, list.chain, x, hx, fit⟩
  have apart := (grows.apart positive small noWrap list).1
  have place := (grows.header positive small noWrap).1
  have room := grows.room
  have arena : (s.heap shared).brk.sbrk.toNat + (allocSize size).toNat ≤ (s.heap shared).top := by omega
  obtain ⟨m₁, tail, ran, frame⟩ := malloc_grown list positive small none shared broken arena noWrap
  cases returned.unique ⟨_, ran⟩
  have alloc := allocSize_toNat small
  have proper : (s.heap shared).brk.sbrk + allocSize size + sizeofMemChunk ≠ 0 := by
    unfold sizeofMemChunk
    bv_omega
  rw [if_neg proper] at reachable
  obtain ⟨front, chain, blocks⟩ := reachable shared
  simp only [Function.update_self] at chain blocks
  have same : Chain m'.next 0 (s.heap shared).head xs :=
    list.chain.frame fun x hx => congrArg Chunk.next (frame x (apart x hx))
  obtain rfl := chain.unique same
  obtain ⟨c, onList, address⟩ := blocks ⟨shared, _, size⟩ (List.mem_filter.mpr ⟨List.mem_cons_self, decide_eq_true rfl⟩)
  have here : c = (s.heap shared).brk.sbrk + allocSize size := by bv_omega
  have far := (apart c onList).1
  rw [here, BitVec.sub_self] at far
  exact absurd far (by decide)

/-- An unused chunk behind the freed one is the tail, and goes. -/
theorem merge_loses_tail (kept : ListsKept s) (member : b ∈ s.live) (merges : ¬ HeapCall.KeepsList s (.free b))
    (performs : HeapCall.Performs s s' (.free b)) : ¬ BlocksReachable s' := by
  intro reachable
  obtain ⟨pre, c, post, list, address, _, freed⟩ := free_absorbs kept member
  obtain ⟨m', returned, rfl⟩ := performs
  obtain rfl := returned.unique freed
  have header : b.address - sizeofMemChunk = c := by bv_omega
  have joins : JoinsNext s.mem c := header ▸ not_not.mp merges
  obtain ⟨front, chain, _⟩ := kept.tracked b.shared
  obtain ⟨front', chain', _⟩ := reachable b.shared
  cases post with
  | nil => exact absurd list.chain.next_last joins.1
  | cons n rest =>
    have next : s.mem.next c = n := list.chain.suffix.2.head_eq
    have unused : (s.mem.chunk n).used = 0 := next ▸ joins.2
    have whole : ChunkList s.mem (s.heap b.shared).head (s.heap b.shared).listStart (s.heap b.shared).listEnd
        ((pre ++ [c]) ++ n :: rest) := by rwa [List.append_assoc]
    have final := kept.last b.shared _ whole.chain n List.mem_append_cons_self unused
    have alone : rest = [] := whole.chain.suffix.2.empty_iff.mp final
    subst alone
    have tail : n = (s.heap b.shared).tail :=
      List.singleton_inj.mp (List.append_inj' (whole.chain.unique chain) rfl).2
    obtain ⟨post', list', _⟩ := absorbNext_spec list
    have ends : (absorbNext s.mem c).next c = 0 := by
      have result : absorbNext s.mem c = _ := if_pos joins
      have apart : HeadersApart c n := list.apart.1 n (by simp)
      have here : (s.mem.chunk c).next = n := next
      rw [result, HeapMemory.next, HeapMemory.chunk_setNext, HeapMemory.chunk_setSize]
      simp only
      rw [here, HeapMemory.chunk_setSize_apart apart]
      exact final
    have short : post' = [] := list'.chain.suffix.2.empty_iff.mp ends
    subst short
    have now : c = (s.heap b.shared).tail :=
      List.singleton_inj.mp (List.append_inj' (list'.chain.unique chain') rfl).2
    have other : n ≠ c := list.chain.apart (by simp)
    exact other (tail.trans now.symm)

/-- Where every `_malloc` is safe, these calls are the ones that keep the list whole. -/
theorem reachable_step_iff (kept : ListsKept s) (step : safeHeapStep s call s') :
    BlocksReachable s' ↔ call.KeepsList s := by
  obtain ⟨safe, allowed, performs⟩ := step
  cases call with
  | malloc shared size =>
    constructor
    · intro reachable
      by_cases none : size = 0
      · exact Or.inl none
      · have positive : 0 < size.toNat := by bv_omega
        by_cases serves : s.Serves shared size
        · have bound : size.toNat < 2 ^ 62 := allowed
          exact Or.inr ⟨by omega, serves⟩
        · have grows := (safe.resolve_left none).resolve_left serves
          exact absurd reachable (growth_unlinked kept positive allowed serves grows performs)
    · exact fun keeps => (keeping_step kept ⟨keeps, trivial, performs⟩).reachable
  | free b =>
    constructor
    · intro reachable
      by_contra merges
      exact merge_loses_tail kept allowed merges performs reachable
    · exact fun keeps => (keeping_step kept ⟨keeps, allowed, performs⟩).reachable
  | store b index v =>
    have step : keepingStep s (.store b index v) s' := ⟨trivial, allowed, performs⟩
    exact iff_of_true (keeping_step kept step).reachable trivial

theorem init_kept (m : HeapMemory) {p q : HeapBreak} (readyP : p.Ready) (readyQ : q.Ready)
    (arenas : p.heapStart.toNat + p.heapSize.toNat ≤ q.heapStart.toNat ∨
      q.heapStart.toNat + q.heapSize.toNat ≤ p.heapStart.toNat) : ListsKept (HeapHistory.init m p q) := by
  refine ⟨init_ok m readyP readyQ arenas, lastUnused_init m readyP readyQ arenas, ?_⟩
  obtain ⟨m', state, ⟨c, headerP⟩, d, headerQ⟩ := init_state m readyP readyQ arenas
  have single : ∀ {b : HeapBreak} {c : Chunk}, b.Ready →
      m'.chunk b.sbrk = { c with size := 0x5000, used := 0, next := 0 } → Chain m'.next 0 b.sbrk [b.sbrk] := by
    intro b c ready header
    refine ⟨⟨rfl, congrArg Chunk.next header⟩, fun null => ?_⟩
    have positive := ready.proper
    rw [← List.mem_singleton.mp null] at positive
    exact absurd positive (Nat.lt_irrefl 0)
  rw [state]
  intro shared
  cases shared with
  | true => exact ⟨[], single readyQ headerQ, by simp [blocksOf]⟩
  | false => exact ⟨[], single readyP headerP, by simp [blocksOf]⟩

/-- From `heap_init` on, while the calls keep the list, every live block can be found and the tail is the last
chunk; among the safe calls that may come next, these and no others leave it so. -/
theorem blocks_stay_reachable {m : HeapMemory} {p q : HeapBreak} (readyP : p.Ready) (readyQ : q.Ready)
    (arenas : p.heapStart.toNat + p.heapSize.toNat ≤ q.heapStart.toNat ∨
      q.heapStart.toNat + q.heapSize.toNat ≤ p.heapStart.toNat)
    {calls : List HeapCall} (run : Run keepingStep (HeapHistory.init m p q) calls s) :
    BlocksReachable s ∧ (∀ call s', safeHeapStep s call s' → (BlocksReachable s' ↔ call.KeepsList s)) ∧
      ∀ call : HeapCall, call.KeepsList s → call.OnLive s → ∃ s', keepingStep s call s' := by
  have kept : ListsKept s := run.invariant (fun _ _ _ kept step => keeping_step kept step)
    (init_kept m readyP readyQ arenas)
  refine ⟨kept.reachable, fun call s' step => reachable_step_iff kept step, fun call keeps onLive => ?_⟩
  obtain ⟨safe, allowed⟩ := keeping_safe kept.ok keeps onLive
  obtain ⟨s', ⟨_, performs⟩, _⟩ := heap_step kept.ok allowed safe
  exact ⟨s', keeps, onLive, performs⟩

theorem bootHeaps_kept : ListsKept bootHeaps :=
  init_kept (fun _ => 0) linkedLayout_ready.1 linkedLayout_ready.2 (by decide)

/-- A first block of 24 bytes. -/
theorem blocks_stay_reachable_first : ∃ s, Run keepingStep bootHeaps [.malloc false 24] s ∧ BlocksReachable s := by
  have keeps : HeapCall.KeepsList bootHeaps (.malloc false 24) := Or.inr ⟨by decide, bootHeaps_serves⟩
  obtain ⟨safe, allowed⟩ := keeping_safe bootHeaps_kept.ok keeps trivial
  obtain ⟨s, ⟨_, performs⟩, _⟩ := heap_step bootHeaps_kept.ok allowed safe
  have run : Run keepingStep bootHeaps [.malloc false 24] s := .cons ⟨keeps, trivial, performs⟩ (.nil s)
  exact ⟨s, run, (blocks_stay_reachable linkedLayout_ready.1 linkedLayout_ready.2 (by decide) run).1⟩

/-- The list cannot serve 0x6000 bytes; the chunk that the break gives for them is not found again. -/
theorem grown_block_lost : ∃ s, Run liveStep bootHeaps [.malloc false 0x6000] s ∧ ¬ BlocksReachable s := by
  have unserved : ¬ bootHeaps.Serves false 0x6000 := by
    rintro ⟨xs, chain, x, member, fit⟩
    have single : Chain bootHeaps.mem.next 0 (bootHeaps.heap false).head [privateBase] := ⟨⟨rfl, rfl⟩, by decide⟩
    obtain rfl := chain.unique single
    obtain rfl := List.mem_singleton.mp member
    exact absurd fit (by decide)
  have grows : bootHeaps.Grows false 0x6000 := ⟨by decide, List.forall_mem_nil _, by decide⟩
  have small : (0x6000 : Word).toNat < 2 ^ 62 := by decide
  obtain ⟨p, m', h', returned, _, _⟩ := malloc_step_grown bootHeaps_kept.ok (by decide) small unserved grows
  have performs : HeapCall.Performs bootHeaps _ (.malloc false 0x6000) := ⟨p, m', h', returned, rfl⟩
  exact ⟨_, .cons ⟨trivial, performs⟩ (.nil _),
    growth_unlinked bootHeaps_kept (by decide) small unserved grows performs⟩

end RealmVm
