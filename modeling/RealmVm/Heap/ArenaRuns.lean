import RealmVm.Heap.Blocks
import RealmVm.Lib.Run

/-! Runs of `_malloc` and `_free` in one arena, as long as its list serves the requests. -/
namespace RealmVm

open Lib

section sizes

variable {P : Nat → Prop} {m m' : HeapMemory} {head x prev size : Word} {lo hi : Nat} {xs pre post : List Word}

def Sizes (P : Nat → Prop) (m : HeapMemory) (xs : List Word) : Prop := ∀ c ∈ xs, P (m.chunk c).size.toNat

theorem absorbNext_size (list : ChunkList m head lo hi (pre ++ x :: post)) (add : ∀ a b, P a → P b → P (a + b))
    (sizes : Sizes P m (pre ++ x :: post)) : P ((absorbNext m x).chunk x).size.toNat := by
  unfold absorbNext
  simp only
  split
  · rename_i joins
    cases post with
    | nil => exact absurd list.chain.next_last joins.1
    | cons y rest =>
      have here : (m.chunk x).next = y := list.chain.suffix.2.head_eq
      rw [HeapMemory.chunk_setNext, HeapMemory.chunk_setSize, here]
      simp only
      rw [list.joined_size]
      exact add _ _ (sizes x List.mem_append_cons_self) (sizes y (by simp))
  · exact sizes x List.mem_append_cons_self

/-- A property of all sizes that sums keep is kept by freeing. -/
theorem coalesce_sizes (list : ChunkList m head lo hi (pre ++ x :: post)) (before : pre.getLastD x = prev)
    (add : ∀ a b, P a → P b → P (a + b)) (sizes : Sizes P m (pre ++ x :: post)) :
    ∃ xs', ChunkList (coalesce m prev x) head lo hi xs' ∧ Sizes P (coalesce m prev x) xs' := by
  have own := absorbNext_size list add sizes
  obtain ⟨post', list₁, _, _, fewer, same⟩ := absorbNext_spec list
  have sizes₁ : Sizes P (absorbNext m x) (pre ++ x :: post') := by
    intro c member
    cases ChunkList.mem_middle.mp member with
    | inl here => exact here ▸ own
    | inr around =>
      have old : c ∈ pre ++ post := by
        cases List.mem_append.mp around with
        | inl early => exact List.mem_append_left post early
        | inr late => exact List.mem_append_right pre (fewer late)
      rw [same c (list.apart.1 c old)]
      exact sizes c (ChunkList.mem_around old)
  by_cases joins : x ≠ prev ∧ ((absorbNext m x).chunk prev).used = 0
  · obtain ⟨front, rfl, _, _⟩ := joined_front list before joins
    rw [List.append_assoc] at list₁ sizes₁
    have list₂ : ChunkList (absorbNext m x) head lo hi (front ++ prev :: x :: post') := list₁
    obtain ⟨list₃, same₃⟩ := joinPrev_spec list₂ joins.2
    have result : coalesce m prev x = _ := if_pos joins
    rw [result]
    refine ⟨_, list₃, fun c member => ?_⟩
    cases ChunkList.mem_middle.mp member with
    | inl here =>
      rw [here, HeapMemory.chunk_setNext, HeapMemory.chunk_setAddress, HeapMemory.chunk_setSize]
      simp only
      rw [list₂.joined_size]
      exact add _ _ (sizes₁ prev (by simp)) (sizes₁ x (by simp))
    | inr around =>
      rw [same₃ c (list₂.apart.1 c (ChunkList.mem_around around))]
      exact sizes₁ c (ChunkList.mem_around (ChunkList.mem_around around))
  · rw [coalesce_alone joins]
    exact ⟨_, list₁, sizes₁⟩

/-- A multiple of 8 that has room for a header and 8 bytes. -/
def Regular (n : Nat) : Prop := n % 8 = 0 ∧ 40 ≤ n

theorem Regular.add (a b : Nat) (first : Regular a) (second : Regular b) : Regular (a + b) := by
  unfold Regular at first second ⊢
  omega

/-- Both parts of a chunk that is cut are regular. -/
theorem Taken.sizes (taken : Taken m m' head lo hi pre x post size) (positive : 0 < size.toNat)
    (small : size.toNat < 2 ^ 62) (sizes : Sizes Regular m (pre ++ x :: post)) :
    ∃ xs', ChunkList m' head lo hi xs' ∧ Sizes Regular m' xs' := by
  obtain ⟨whole, cut, others, _⟩ := taken
  have alloc := allocSize_toNat small
  have forty : minHeapAlloc.toNat = 40 := by decide
  have own := sizes x List.mem_append_cons_self
  have kept : ∀ c ∈ pre ++ post, Regular (m'.chunk c).size.toNat := by
    intro c member
    rw [others c member]
    exact sizes c (ChunkList.mem_around member)
  unfold Regular at own
  by_cases long : allocSize size + minHeapAlloc < (m.chunk x).size
  · obtain ⟨list, atX, atY⟩ := cut long
    have rest : ((m.chunk x).size - allocSize size).toNat = (m.chunk x).size.toNat - (allocSize size).toNat := by
      bv_omega
    have room : (allocSize size).toNat + 40 < (m.chunk x).size.toNat := by bv_omega
    have front : Regular (allocSize size).toNat := ⟨by omega, by omega⟩
    have back : Regular ((m.chunk x).size - allocSize size).toNat := ⟨by omega, by omega⟩
    refine ⟨_, list, fun c member => ?_⟩
    rcases ChunkList.mem_middle.mp member with rfl | around
    · rw [atX]
      exact front
    · rcases ChunkList.mem_middle.mp around with rfl | older
      · rw [atY]
        exact back
      · exact kept c older
  · obtain ⟨list, atX⟩ := whole long
    refine ⟨_, list, fun c member => ?_⟩
    rcases ChunkList.mem_middle.mp member with rfl | around
    · rw [atX]
      exact own
    · exact kept c around

end sizes

/- The memory, the heap and the live blocks. -/
structure ArenaHistory where
  mem : HeapMemory
  heap : Heap
  live : List Block

/- Any pointer may be freed. A client may overwrite every word of its block, and the
`address` of an unused chunk may hold anything. -/
inductive ArenaCall where
  | malloc (size : Word)
  | free (addr : Word)
  | store (b : Block) (index : Nat) (v : Word)
  | stale (c v : Word)

/-- A chunk that the list leads to. -/
def ArenaHistory.Listed (s : ArenaHistory) (c : Word) : Prop :=
  ∃ xs, Chain s.mem.next 0 s.heap.head xs ∧ c ∈ xs

/-- Sizes are below 2^62, and the list serves them. -/
def ArenaCall.Allowed (s : ArenaHistory) : ArenaCall → Prop
  | malloc size => size.toNat < 2 ^ 62 ∧ (size = 0 ∨ ∃ c, s.Listed c ∧ fits s.mem (allocSize size) c = true)
  | free _ => True
  | store b index _ => b ∈ s.live ∧ 8 * index < b.size.toNat
  | stale c _ => s.Listed c ∧ (s.mem.chunk c).used = 0

def ArenaCall.Performs (shared : Bool) (s s' : ArenaHistory) : ArenaCall → Prop
  | malloc size => ∃ p m' h',
      Returns (fun fuel => RealmVm.malloc fuel shared s.mem s.heap size) (p, m', h') ∧
      s' = ⟨m', h', if p = 0 then s.live else ⟨shared, p, size⟩ :: s.live⟩
  | free addr => ∃ m', Returns (fun fuel => RealmVm.free fuel s.mem s.heap addr) m' ∧
      s' = ⟨m', s.heap, s.live.filter fun b => b.address ≠ addr⟩
  | store b index v =>
      s' = { s with mem := Function.update s.mem (b.address + 8 * BitVec.ofNat 64 index) v }
  | stale c v => s' = { s with mem := s.mem.setAddress c v }

def arenaStep (shared : Bool) (s : ArenaHistory) (call : ArenaCall) (s' : ArenaHistory) : Prop :=
  call.Allowed s ∧ call.Performs shared s s'

/-- One unused chunk of `size` bytes, whatever its `address` holds. -/
structure OneChunk (s : ArenaHistory) (size : Word) : Prop where
  proper : s.heap.head ≠ 0
  header : (s.mem.chunk s.heap.head).size = size ∧ (s.mem.chunk s.heap.head).used = 0 ∧
    (s.mem.chunk s.heap.head).next = 0
  regular : Regular size.toNat
  noWrap : s.heap.head.toNat + size.toNat < 2 ^ 64
  fresh : s.live = []

/-- The list fills `size` bytes from its head on: in the order of addresses, each chunk up to the next. -/
structure ArenaTiled (s : ArenaHistory) (size : Nat) (xs : List Word) : Prop where
  chain : Chain s.mem.next 0 s.heap.head xs
  ascending : xs.Pairwise fun c d => c.toNat < d.toNat
  adjoining : xs.IsChain fun c d => c.toNat + (s.mem.chunk c).size.toNat = d.toNat
  regular : Sizes Regular s.mem xs
  total : (xs.map fun c => (s.mem.chunk c).size.toNat).sum = size

/-- Where `_malloc` cuts a chunk, `split` does it. -/
def SplitSucceeds (s : ArenaHistory) : Prop :=
  ∀ size c, s.Listed c → 0 < size.toNat → size.toNat < 2 ^ 62 → fits s.mem (allocSize size) c = true →
    allocSize size + minHeapAlloc < (s.mem.chunk c).size → (split s.mem c size).1 ≠ 0

/-- The block stands in a used chunk of the list. -/
def Block.Held (m : HeapMemory) (xs : List Word) (b : Block) : Prop :=
  ∃ c ∈ xs, b.address = c + sizeofMemChunk ∧ (m.chunk c).used ≠ 0 ∧ b.size.toNat + 32 ≤ (m.chunk c).size.toNat

structure ArenaOk (s : ArenaHistory) (lo hi : Nat) (xs : List Word) : Prop where
  list : ChunkList s.mem s.heap.head lo hi xs
  sizes : Sizes Regular s.mem xs
  held : ∀ b ∈ s.live, b.Held s.mem xs

variable {s s' : ArenaHistory} {lo hi : Nat} {xs : List Word} {shared : Bool} {size addr c v : Word} {b : Block}

theorem ArenaOk.listed (ok : ArenaOk s lo hi xs) : s.Listed c ↔ c ∈ xs := by
  constructor
  · rintro ⟨ys, chain, member⟩
    exact ok.list.chain.unique chain ▸ member
  · exact fun member => ⟨xs, ok.list.chain, member⟩

theorem OneChunk.ok (start : OneChunk s size) :
    ArenaOk s s.heap.head.toNat (s.heap.head.toNat + size.toNat) [s.heap.head] := by
  obtain ⟨proper, ⟨whole, unused, last⟩, regular, noWrap, fresh⟩ := start
  have only : ∀ c ∈ [s.heap.head], c = s.heap.head := fun c member => List.mem_singleton.mp member
  refine ⟨⟨⟨⟨rfl, last⟩, fun null => proper (only 0 null).symm⟩, ⟨rfl, congrArg (_ + ·) (congrArg _ whole)⟩,
    fun c member => ?_,
    fun c member used => ?_, noWrap⟩, fun c member => ?_, by simp [fresh]⟩
  · rw [only c member, whole]
    exact Nat.le_trans (by decide) regular.2
  · rw [only c member] at used
    exact absurd unused used
  · rw [only c member, whole]
    exact regular

/-- After a request the blocks stand where they stood, and the new one stands in `x`. -/
theorem Allocated.held {m m' : HeapMemory} {head x : Word} {xs' : List Word} {live : List Block}
    (allocated : Allocated m m' head lo hi xs x size) (unused : (m.chunk x).used = 0)
    (held : ∀ b ∈ live, b.Held m xs) (after : ChunkList m' head lo hi xs') (member : x ∈ xs) :
    ∀ b ∈ ⟨shared, x + sizeofMemChunk, size⟩ :: live, b.Held m' xs' := by
  obtain ⟨⟨ys, list, all, _⟩, used, room, others, _⟩ := allocated
  obtain rfl := after.chain.unique list.chain
  refine List.forall_mem_cons.mpr ⟨⟨x, all x member, rfl, used, room⟩, fun b old => ?_⟩
  obtain ⟨c, onList, address, usedC, roomC⟩ := held b old
  have other : c ≠ x := fun same => usedC (same ▸ unused)
  exact ⟨c, all c onList, address, by rw [others c onList other]; exact ⟨usedC, roomC⟩⟩

theorem ArenaOk.malloc_step (ok : ArenaOk s lo hi xs) (shared : Bool) (positive : 0 < size.toNat)
    (small : size.toNat < 2 ^ 62) (served : ∃ c ∈ xs, fits s.mem (allocSize size) c = true) :
    ∃ p m' h' xs', Returns (fun fuel => malloc fuel shared s.mem s.heap size) (p, m', h') ∧ p ≠ 0 ∧
      ArenaOk ⟨m', h', ⟨shared, p, size⟩ :: s.live⟩ lo hi xs' := by
  obtain ⟨list, sizes, held⟩ := ok
  obtain ⟨pre, x, post, rfl, unused, room, m', tail, ran, _, taken⟩ := malloc_takes list positive small served shared
  obtain ⟨xs', list', sizes'⟩ := taken.sizes positive small sizes
  have place := list.behind_header (List.mem_append_cons_self : x ∈ pre ++ x :: post)
  exact ⟨x + sizeofMemChunk, m', _, xs', ⟨_, ran⟩, by bv_omega, list', sizes',
    (taken.allocated small room).held unused held list' List.mem_append_cons_self⟩

theorem ArenaOk.free_step (ok : ArenaOk s lo hi xs) (addr : Word) :
    ∃ m' xs', Returns (fun fuel => free fuel s.mem s.heap addr) m' ∧
      ArenaOk ⟨m', s.heap, s.live.filter fun b => b.address ≠ addr⟩ lo hi xs' := by
  obtain ⟨list, sizes, held⟩ := ok
  obtain ⟨m', xs', ran, after, kept, _⟩ := free_spec list addr
  have sizes' : Sizes Regular m' xs' := by
    rcases freeScan_spec addr list.chain s.heap.head with ⟨_, last, scanned⟩ | ⟨pre, x, post, rfl, _, _, scanned⟩
    · have nothing : Returns (fun fuel => free fuel s.mem s.heap addr) s.mem :=
        ⟨xs.length, fun fuel more => by simp only [free, scanned fuel more, if_true]⟩
      obtain rfl := nothing.unique ⟨_, ran⟩
      exact list.chain.unique after.chain ▸ sizes
    · obtain ⟨first, freed⟩ := free_found list scanned rfl
      have found : Returns (fun fuel => free fuel s.mem s.heap addr) _ := ⟨_, freed⟩
      obtain rfl := found.unique ⟨_, ran⟩
      obtain ⟨ys, list', regular⟩ := coalesce_sizes list first Regular.add sizes
      exact list'.chain.unique after.chain ▸ regular
  refine ⟨m', xs', ⟨_, ran⟩, after, sizes', fun b member => ?_⟩
  obtain ⟨live, other⟩ := List.mem_filter.mp member
  obtain ⟨c, onList, address, used, room⟩ := held b live
  obtain ⟨stays, same⟩ := kept c onList used (address ▸ of_decide_eq_true other)
  exact ⟨c, stays, address, by rw [same]; exact ⟨used, room⟩⟩

/-- A store to a block changes no header. -/
theorem ArenaOk.store_header (ok : ArenaOk s lo hi xs) (member : b ∈ s.live) {index : Nat}
    (inside : 8 * index < b.size.toNat) (v : Word) (onList : c ∈ xs) :
    HeapMemory.chunk (Function.update s.mem (b.address + 8 * BitVec.ofNat 64 index) v) c = s.mem.chunk c := by
  obtain ⟨list, _, held⟩ := ok
  obtain ⟨z, memberZ, address, _, room⟩ := held b member
  have place := list.behind_header memberZ
  have boundZ := list.bounds memberZ
  have boundC := list.bounds onList
  have header := list.header c onList
  have below := list.below
  have offset : (8 * BitVec.ofNat 64 index).toNat = 8 * index := by
    have small := b.size.isLt
    bv_omega
  have word : (b.address + 8 * BitVec.ofNat 64 index).toNat = z.toNat + 32 + 8 * index := by
    rw [BitVec.toNat_add, offset, address, place]
    omega
  apply HeapMemory.chunk_update
  cases decEq c z with
  | isTrue here => bv_omega
  | isFalse other =>
    have extents := list.extents memberZ onList other
    bv_omega

theorem ArenaOk.store_step (ok : ArenaOk s lo hi xs) (member : b ∈ s.live) {index : Nat}
    (inside : 8 * index < b.size.toNat) (v : Word) :
    ArenaOk { s with mem := Function.update s.mem (b.address + 8 * BitVec.ofNat 64 index) v } lo hi xs := by
  have same : ∀ c ∈ xs, HeapMemory.chunk (Function.update s.mem (b.address + 8 * BitVec.ofNat 64 index) v) c =
      s.mem.chunk c := fun c onList => ok.store_header member inside v onList
  refine ⟨ok.list.frame same, fun c onList => ?_, fun b' live => ?_⟩
  · simp only [same c onList]
    exact ok.sizes c onList
  · obtain ⟨c, onList, address, rest⟩ := ok.held b' live
    exact ⟨c, onList, address, by simpa only [same c onList] using rest⟩

/-- The `address` of an unused chunk does not matter. -/
theorem ArenaOk.stale_step (ok : ArenaOk s lo hi xs) (onList : c ∈ xs) (unused : (s.mem.chunk c).used = 0) (v : Word) :
    ArenaOk { s with mem := s.mem.setAddress c v } lo hi xs := by
  obtain ⟨pre, post, rfl⟩ := List.append_of_mem onList
  have apart := ok.list.apart.1
  have header : ∀ d ∈ pre ++ c :: post, (s.mem.setAddress c v).chunk d =
      { s.mem.chunk d with address := ((s.mem.setAddress c v).chunk d).address } := by
    intro d member
    rcases ChunkList.mem_middle.mp member with rfl | around
    · rw [HeapMemory.chunk_setAddress]
    · rw [HeapMemory.chunk_setAddress_apart (apart d around)]
  have size : ∀ d ∈ pre ++ c :: post, ((s.mem.setAddress c v).chunk d).size = (s.mem.chunk d).size :=
    fun d member => by rw [header d member]
  have used : ∀ d ∈ pre ++ c :: post, ((s.mem.setAddress c v).chunk d).used = (s.mem.chunk d).used :=
    fun d member => by rw [header d member]
  refine ⟨⟨?_, ?_, ?_, ?_, ok.list.below⟩, fun d member => ?_, fun b live => ?_⟩
  · exact ok.list.chain.frame fun d member => by rw [HeapMemory.next, header d member]; rfl
  · exact ok.list.tiles.congr fun d member => by rw [size d member]
  · intro d member
    rw [size d member]
    exact ok.list.header d member
  · intro d member still
    rw [used d member] at still
    rcases ChunkList.mem_middle.mp member with rfl | around
    · exact absurd unused still
    · rw [HeapMemory.chunk_setAddress_apart (apart d around)]
      exact ok.list.owned d member still
  · simp only [size d member]
    exact ok.sizes d member
  · obtain ⟨d, member, address, rest⟩ := ok.held b live
    exact ⟨d, member, address, by simpa only [size d member, used d member] using rest⟩

/-- One step of an arena in order: it goes through, and the arena stays in order. -/
theorem arena_step (ok : ArenaOk s lo hi xs) {call : ArenaCall} (allowed : call.Allowed s) (shared : Bool) :
    ∃ s' xs', arenaStep shared s call s' ∧ ArenaOk s' lo hi xs' := by
  cases call with
  | malloc size =>
    by_cases none : size = 0
    · subst none
      exact ⟨s, xs, ⟨allowed, 0, s.mem, s.heap, ⟨0, fun fuel _ => rfl⟩, rfl⟩, ok⟩
    · obtain ⟨c, listed, fit⟩ := allowed.2.resolve_left none
      obtain ⟨p, m', h', xs', returned, proper, after⟩ :=
        ok.malloc_step shared (by bv_omega) allowed.1 ⟨c, ok.listed.mp listed, fit⟩
      exact ⟨_, xs', ⟨allowed, p, m', h', returned, rfl⟩, by rwa [if_neg proper]⟩
  | free addr =>
    obtain ⟨m', xs', returned, after⟩ := ok.free_step addr
    exact ⟨_, xs', ⟨allowed, m', returned, rfl⟩, after⟩
  | store b index v => exact ⟨_, xs, ⟨allowed, rfl⟩, ok.store_step allowed.1 allowed.2 v⟩
  | stale c v => exact ⟨_, xs, ⟨allowed, rfl⟩, ok.stale_step (ok.listed.mp allowed.1) allowed.2 v⟩

theorem arenaStep_functional {call : ArenaCall} {t t' : ArenaHistory} (first : arenaStep shared s call t)
    (second : arenaStep shared s call t') : t = t' := by
  obtain ⟨_, first⟩ := first
  obtain ⟨_, second⟩ := second
  cases call with
  | malloc size =>
    obtain ⟨p, m₁, h₁, returned, rfl⟩ := first
    obtain ⟨p', m₂, h₂, returned', rfl⟩ := second
    cases returned.unique returned'
    rfl
  | free addr =>
    obtain ⟨m₁, returned, rfl⟩ := first
    obtain ⟨m₂, returned', rfl⟩ := second
    rw [returned.unique returned']
  | store b index v => exact first.trans second.symm
  | stale c v => exact first.trans second.symm

theorem arena_run (start : OneChunk s size) {calls : List ArenaCall} (run : Run (arenaStep shared) s calls s') :
    ∃ xs, ArenaOk s' s.heap.head.toNat (s.heap.head.toNat + size.toNat) xs := by
  refine run.invariant (I := fun t => ∃ xs, ArenaOk t s.heap.head.toNat (s.heap.head.toNat + size.toNat) xs)
    (fun t call t' kept step => ?_) ⟨_, start.ok⟩
  obtain ⟨xs, ok⟩ := kept
  obtain ⟨t'', xs', other, after⟩ := arena_step ok step.1 shared
  exact ⟨xs', arenaStep_functional other step ▸ after⟩

theorem ArenaOk.tiled (ok : ArenaOk s lo (lo + size.toNat) xs) : ArenaTiled s size.toNat xs := by
  obtain ⟨list, sizes, _⟩ := ok
  refine ⟨list.chain, list.tiles.ascending fun c member => ?_, list.tiles.adjoining, sizes, ?_⟩
  · exact Nat.lt_of_lt_of_le (by decide) (list.header c member)
  · have sum := list.tiles.sum_sizes
    omega

theorem ArenaOk.split_succeeds (ok : ArenaOk s lo hi xs) : SplitSucceeds s := by
  intro size c listed positive small fit long
  obtain ⟨pre, post, rfl⟩ := List.append_of_mem (ok.listed.mp listed)
  have alloc := allocSize_toNat small
  have forty : minHeapAlloc.toNat = 40 := by decide
  simp only [fits, Bool.and_eq_true, beq_iff_eq, decide_eq_true_eq] at fit
  obtain ⟨m', ran, _⟩ := split_spec ok.list small fit.1 (by bv_omega)
  have done : (1 : Int) ≠ 0 := by decide
  rwa [ran]

/-- The chunks tile the arena after every run, no cut fails, and every further call ends. -/
theorem arena_stays_tiled (start : OneChunk s size) {calls : List ArenaCall}
    (run : Run (arenaStep shared) s calls s') :
    (∃ xs, ArenaTiled s' size.toNat xs) ∧ SplitSucceeds s' ∧
      ∀ call : ArenaCall, call.Allowed s' → ∃ s'', arenaStep shared s' call s'' := by
  obtain ⟨xs, ok⟩ := arena_run start run
  refine ⟨⟨xs, ok.tiled⟩, ok.split_succeeds, fun call allowed => ?_⟩
  obtain ⟨s'', _, step, _⟩ := arena_step ok allowed shared
  exact ⟨s'', step⟩

/- A chunk of 256 bytes at 0x1000, with an old value in `address`. -/
def smallArena : ArenaHistory :=
  ⟨fun a => if a = 0x1000 then 0x100 else if a = 0x1010 then 0x1020 else 0, ⟨0x1000, 0x1000, ⟨0, 0, 0, 0⟩⟩, []⟩

theorem smallArena_start : OneChunk smallArena 0x100 :=
  ⟨by decide, ⟨by decide, by decide, by decide⟩, ⟨by decide, by decide⟩, by decide, rfl⟩

/-- A block is taken and given back. -/
theorem arena_stays_tiled_small : ∃ s', Run (arenaStep false) smallArena [.malloc 24, .free 0x1020] s' ∧
    ∃ xs, ArenaTiled s' 0x100 xs := by
  have served : ArenaCall.Allowed smallArena (.malloc 24) :=
    ⟨by decide, Or.inr ⟨0x1000, ⟨[0x1000], ⟨⟨rfl, rfl⟩, by decide⟩, List.mem_singleton_self _⟩, by decide⟩⟩
  obtain ⟨s₁, xs₁, first, ok⟩ := arena_step smallArena_start.ok served false
  have anyAddress : ArenaCall.Allowed s₁ (.free 0x1020) := trivial
  obtain ⟨s₂, _, second, _⟩ := arena_step ok anyAddress false
  have run : Run (arenaStep false) smallArena [.malloc 24, .free 0x1020] s₂ := .cons first (.cons second (.nil s₂))
  exact ⟨s₂, run, (arena_stays_tiled smallArena_start run).1⟩

end RealmVm
