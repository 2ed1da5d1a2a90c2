import RealmVm.Heap.ChunkList

/-! What `_malloc` and `_free` do to the list of a heap. -/
namespace RealmVm

open Lib

variable {m m' : HeapMemory} {heap : Heap} {head x size : Word} {lo hi : Nat} {xs pre post : List Word}

/-- The bytes a request takes from a chunk. -/
def allocSize (size : Word) : Word := align (size + sizeofMemChunk) 8

theorem allocSize_mod (size : Word) : (allocSize size).toNat = (size.toNat + 39) % 2 ^ 64 / 8 * 8 := by
  have sum : (size + sizeofMemChunk + 7).toNat = (size.toNat + 39) % 2 ^ 64 := by
    unfold sizeofMemChunk
    bv_omega
  have masked := Lib.Bits.toNat_and_not_mask (size + sizeofMemChunk + 7) 3
  rw [sum] at masked
  exact masked

theorem allocSize_toNat (small : size.toNat < 2 ^ 62) : (allocSize size).toNat = (size.toNat + 39) / 8 * 8 := by
  rw [allocSize_mod, Nat.mod_eq_of_lt (by omega)]

/-- The chunk `x` now stands for a block of `size` bytes; the list still has every chunk, a new one stands where
`x` ended, and nothing but the header of `x` changed for the others. -/
structure Allocated (m m' : HeapMemory) (head : Word) (lo hi : Nat) (xs : List Word) (x size : Word) : Prop where
  list : ∃ xs', ChunkList m' head lo hi xs' ∧ (∀ y ∈ xs, y ∈ xs') ∧
    ∀ y ∈ xs', y ∈ xs ∨ (m'.chunk y).next = (m.chunk x).next
  used : (m'.chunk x).used ≠ 0
  room : size.toNat + 32 ≤ (m'.chunk x).size.toNat
  others : ∀ y ∈ xs, y ≠ x → m'.chunk y = m.chunk y
  frame : ∀ d, Outside lo hi d → m'.chunk d = m.chunk d

theorem mallocSuccess_spec (m : HeapMemory) (heap : Heap) (x : Word) :
    ∃ m' tail, mallocSuccess m heap x = (x + sizeofMemChunk, m', { heap with tail := tail }) ∧
      m'.chunk x = { m.chunk x with used := 1, address := x + sizeofMemChunk } ∧
      ∀ d, HeadersApart x d → m'.chunk d = m.chunk d := by
  refine ⟨(m.setUsed x 1).setAddress x (x + sizeofMemChunk), (mallocSuccess m heap x).2.2.tail, ?_, ?_, ?_⟩
  · refine Prod.ext ?_ rfl
    simp [mallocSuccess]
  · simp
  · intro d apart
    rw [HeapMemory.chunk_setAddress_apart apart, HeapMemory.chunk_setUsed_apart apart]

/-- A chunk that is longer than needed is cut. -/
theorem split_spec (list : ChunkList m head lo hi (pre ++ x :: post)) (small : size.toNat < 2 ^ 62)
    (unused : (m.chunk x).used = 0) (long : (allocSize size).toNat + 40 < (m.chunk x).size.toNat) :
    ∃ m', split m x size = (1, m') ∧
      m'.chunk x = { m.chunk x with size := allocSize size, next := x + allocSize size } ∧
      m'.chunk (x + allocSize size) = { m.chunk (x + allocSize size) with
        size := (m.chunk x).size - allocSize size, used := 0, next := (m.chunk x).next } ∧
      ∀ d, HeadersApart x d → HeadersApart (x + allocSize size) d → m'.chunk d = m.chunk d := by
  have alloc := allocSize_toNat small
  have bound := (list.bounds List.mem_append_cons_self).2
  have below := list.below
  have apart : HeadersApart x (x + allocSize size) := headersApart_of_le (by bv_omega) (by bv_omega)
  have enough : ¬ (m.chunk x).size ≤ align (2 * sizeofMemChunk) 8 + size := by
    have twice : align (2 * sizeofMemChunk) 8 = 64 := by decide
    rw [twice]
    bv_omega
  simp only [split, unused, ne_eq, not_true_eq_false, if_false, if_neg enough]
  rw [← allocSize]
  refine ⟨_, rfl, ?_, ?_, fun d left right => ?_⟩
  · simpa [HeapMemory.chunk_setSize_apart apart.symm, HeapMemory.chunk_setNext_apart apart.symm,
      HeapMemory.chunk_setUsed_apart apart.symm] using unused
  · simp [HeapMemory.chunk_setSize_apart apart, HeapMemory.chunk_setNext_apart apart,
      HeapMemory.chunk_setSize_apart apart.symm]
  · rw [HeapMemory.chunk_setNext_apart left, HeapMemory.chunk_setSize_apart left, HeapMemory.chunk_setUsed_apart right,
      HeapMemory.chunk_setNext_apart right, HeapMemory.chunk_setSize_apart right]

/-- The chunk `x` became a block of `size` bytes, with `pre` and `post` around it: all of it, or its front where
the rest is long enough for a chunk. -/
structure Taken (m m' : HeapMemory) (head : Word) (lo hi : Nat) (pre : List Word) (x : Word) (post : List Word)
    (size : Word) : Prop where
  whole : ¬ allocSize size + minHeapAlloc < (m.chunk x).size → ChunkList m' head lo hi (pre ++ x :: post) ∧
    m'.chunk x = { m.chunk x with used := 1, address := x + sizeofMemChunk }
  cut : allocSize size + minHeapAlloc < (m.chunk x).size →
    ChunkList m' head lo hi (pre ++ x :: (x + allocSize size) :: post) ∧
      m'.chunk x = ⟨allocSize size, 1, x + sizeofMemChunk, x + allocSize size⟩ ∧
      m'.chunk (x + allocSize size) = { m.chunk (x + allocSize size) with
        size := (m.chunk x).size - allocSize size, used := 0, next := (m.chunk x).next }
  others : ∀ z ∈ pre ++ post, m'.chunk z = m.chunk z
  frame : ∀ d, Outside lo hi d → m'.chunk d = m.chunk d

/-- `heap->tail` after a request was served from `x`, by the header of `x` as it then is. -/
def tailAfter (m : HeapMemory) (heap : Heap) (x : Word) : Word :=
  if x = heap.tail then (if m.next x = 0 then x else m.next x) else heap.tail

theorem mallocSuccess_tail {m' : HeapMemory} {tail p : Word}
    (done : mallocSuccess m heap x = (p, m', { heap with tail := tail })) : tail = tailAfter m' heap x := by
  have result : (mallocSuccess m heap x).2.2.tail = tailAfter (mallocSuccess m heap x).2.1 heap x := rfl
  rwa [done] at result

theorem success_taken (list : ChunkList m head lo hi (pre ++ x :: post)) (heap : Heap) :
    ∃ m' tail, mallocSuccess m heap x = (x + sizeofMemChunk, m', { heap with tail := tail }) ∧
      ChunkList m' head lo hi (pre ++ x :: post) ∧
      m'.chunk x = { m.chunk x with used := 1, address := x + sizeofMemChunk } ∧
      (∀ z ∈ pre ++ post, m'.chunk z = m.chunk z) ∧ ∀ d, Outside lo hi d → m'.chunk d = m.chunk d := by
  obtain ⟨m', tail, done, marked, kept⟩ := mallocSuccess_spec m heap x
  have apart := list.apart
  refine ⟨m', tail, done, ?_, marked, fun z hz => kept z (apart.1 z hz), fun d out => kept d (apart.2 d out)⟩
  refine list.mark ?_ ?_ ?_ fun z hz => kept z (apart.1 z hz)
  all_goals rw [marked]

/-- Whether it is cut or not, the chunk that is taken has room and the list stays whole. -/
theorem taken_spec (list : ChunkList m head lo hi (pre ++ x :: post)) (small : size.toNat < 2 ^ 62)
    (unused : (m.chunk x).used = 0) (room : allocSize size ≤ (m.chunk x).size) (heap : Heap) :
    ∃ m' tail, (if allocSize size + minHeapAlloc < (m.chunk x).size then
        (if (split m x size).1 = 0 then some (0, (split m x size).2, heap)
          else some (mallocSuccess (split m x size).2 heap x))
        else some (mallocSuccess m heap x)) = some (x + sizeofMemChunk, m', { heap with tail := tail }) ∧
      tail = tailAfter m' heap x ∧ Taken m m' head lo hi pre x post size := by
  have alloc := allocSize_toNat small
  have forty : minHeapAlloc.toNat = 40 := by decide
  split
  · rename_i long
    obtain ⟨m₁, ran, atX, atY, same⟩ := split_spec list small unused (by bv_omega)
    have bound := (list.bounds List.mem_append_cons_self).2
    have below := list.below
    have inX := list.apart
    have inY := list.inside (d := x + allocSize size) (by bv_omega) (by bv_omega)
    have divided : ChunkList m₁ head lo hi (pre ++ x :: (x + allocSize size) :: post) := by
      refine list.divide ?_ ?_ ?_ ?_ ?_ ?_ ?_ ?_ fun z hz => same z (inX.1 z hz) (inY.1 z hz)
      all_goals simp only [atX, atY]
      · bv_omega
      · bv_omega
      · bv_omega
      · bv_omega
      · exact unused
    obtain ⟨m₂, tail, done, after, marked, kept, frame⟩ := success_taken divided heap
    have ok : (1 : Int) ≠ 0 := by decide
    have final : mallocSuccess (split m x size).2 heap x = (x + sizeofMemChunk, m₂, { heap with tail := tail }) := by
      rw [ran, done]
    refine ⟨m₂, tail, by rw [final, ran, if_neg ok], mallocSuccess_tail done, absurd long, fun _ => ⟨after, ?_, ?_⟩,
      fun z hz => ?_, fun d out => ?_⟩
    · rw [marked, atX]
    · rw [kept _ (List.mem_append_cons_self), atY]
    · rw [kept z (ChunkList.mem_around hz), same z (inX.1 z hz) (inY.1 z hz)]
    · rw [frame d out, same d (inX.2 d out) (inY.2 d out)]
  · rename_i short
    obtain ⟨m', tail, done, after, marked, kept, frame⟩ := success_taken list heap
    exact ⟨m', tail, congrArg some done, mallocSuccess_tail done, fun _ => ⟨after, marked⟩,
      fun long => absurd long short,
      kept, frame⟩

theorem Taken.allocated (taken : Taken m m' head lo hi pre x post size) (small : size.toNat < 2 ^ 62)
    (room : allocSize size ≤ (m.chunk x).size) : Allocated m m' head lo hi (pre ++ x :: post) x size := by
  obtain ⟨whole, cut, others, frame⟩ := taken
  have alloc := allocSize_toNat small
  have kept : ∀ y ∈ pre ++ x :: post, y ≠ x → m'.chunk y = m.chunk y := fun y hy other =>
    others y ((ChunkList.mem_middle.mp hy).resolve_left other)
  have marked : (1 : Word) ≠ 0 := by decide
  by_cases long : allocSize size + minHeapAlloc < (m.chunk x).size
  · obtain ⟨list, atX, atY⟩ := cut long
    refine ⟨⟨_, list, fun y hy => ?_, fun y hy => ?_⟩, by rwa [atX], ?_, kept, frame⟩
    · exact ChunkList.mem_middle.mpr ((ChunkList.mem_middle.mp hy).imp_right ChunkList.mem_around)
    · cases ChunkList.mem_middle.mp hy with
      | inl here => exact Or.inl (here ▸ List.mem_append_cons_self)
      | inr around =>
        cases ChunkList.mem_middle.mp around with
        | inl new =>
          rw [new, atY]
          exact Or.inr rfl
        | inr old => exact Or.inl (ChunkList.mem_around old)
    · rw [atX]
      simp only
      omega
  · obtain ⟨list, atX⟩ := whole long
    refine ⟨⟨_, list, fun y hy => hy, fun y hy => Or.inl hy⟩, by rwa [atX], ?_, kept, frame⟩
    rw [atX]
    bv_omega

/-- A chunk at the address that the break gave, not linked to the list. -/
def HeapMemory.fresh (m : HeapMemory) (c size : Word) : HeapMemory :=
  (((m.setSize c size).setNext c 0).setUsed c 0).setAddress c 0

theorem fresh_frame {c d : Word} (apart : HeadersApart c d) : (m.fresh c size).chunk d = m.chunk d := by
  rw [HeapMemory.fresh, HeapMemory.chunk_setAddress_apart apart, HeapMemory.chunk_setUsed_apart apart,
    HeapMemory.chunk_setNext_apart apart, HeapMemory.chunk_setSize_apart apart]

/-- The first chunk that fits is taken. -/
theorem malloc_taken (chain : Chain m.next 0 heap.head xs) (some : size ≠ 0)
    (found : xs.find? (fits m (allocSize size)) = Option.some x) (shared : Bool) {fuel : Nat}
    (more : xs.length < fuel) :
    malloc fuel shared m heap size =
      if allocSize size + minHeapAlloc < (m.chunk x).size then
        (if (split m x size).1 = 0 then Option.some (0, (split m x size).2, heap)
          else Option.some (mallocSuccess (split m x size).2 heap x))
      else Option.some (mallocSuccess m heap x) := by
  have proper : x ≠ 0 := fun null => chain.proper (null ▸ List.mem_of_find?_eq_some found)
  have search := follow_chain chain (fits m (allocSize size)) more
  have alloc : align (size + sizeofMemChunk) 8 = allocSize size := rfl
  rw [found] at search
  simp only [malloc, if_neg some, alloc, search, Option.getD_some, ne_eq, proper, not_false_eq_true, if_true]

/-- Without one the break is asked, and what it returns is taken for an address unless it is 0. -/
theorem malloc_asked (chain : Chain m.next 0 heap.head xs) (some : size ≠ 0)
    (none : ∀ x ∈ xs, fits m (allocSize size) x = false) (shared : Bool) {fuel : Nat} (more : xs.length < fuel) :
    malloc fuel shared m heap size =
      let out := sbrk shared heap.brk (allocSize size)
      if out.1 = 0 then Option.some (0, m, { heap with brk := out.2 })
      else
        Option.some (mallocSuccess (m.fresh out.1 (allocSize size)) { heap with tail := out.1, brk := out.2 }
            out.1) := by
  have search := follow_chain chain (fits m (allocSize size)) more
  have missing : xs.find? (fits m (allocSize size)) = Option.none :=
    List.find?_eq_none.mpr fun x hx => by simp [none x hx]
  have alloc : align (size + sizeofMemChunk) 8 = allocSize size := rfl
  rw [missing] at search
  simp only [malloc, if_neg some, alloc, search, Option.getD_none, ne_eq, not_true_eq_false, if_false]
  rfl

/-- The first chunk that can serve the request is taken. -/
theorem malloc_takes (list : ChunkList m heap.head lo hi xs) (positive : 0 < size.toNat) (small : size.toNat < 2 ^ 62)
    (served : ∃ x ∈ xs, fits m (allocSize size) x = true) (shared : Bool) :
    ∃ pre x post, xs = pre ++ x :: post ∧ (m.chunk x).used = 0 ∧ allocSize size ≤ (m.chunk x).size ∧ ∃ m' tail,
      (∀ fuel, xs.length < fuel →
        malloc fuel shared m heap size = some (x + sizeofMemChunk, m', { heap with tail := tail })) ∧
      tail = tailAfter m' heap x ∧ Taken m m' heap.head lo hi pre x post size := by
  obtain ⟨x, found⟩ := Option.isSome_iff_exists.mp (List.find?_isSome.mpr served)
  obtain ⟨fit, pre, post, rfl, _⟩ := List.find?_eq_some_iff_append.mp found
  have nonempty : size ≠ 0 := by bv_omega
  simp only [fits, Bool.and_eq_true, beq_iff_eq, decide_eq_true_eq] at fit
  obtain ⟨unused, room⟩ := fit
  obtain ⟨m', tail, ran, last, taken⟩ := taken_spec list small unused room heap
  exact ⟨pre, x, post, rfl, unused, room, m', tail,
    fun fuel more => (malloc_taken list.chain nonempty found shared more).trans ran, last, taken⟩

/-- A request that some chunk of the list can serve. -/
theorem malloc_served (list : ChunkList m heap.head lo hi xs) (positive : 0 < size.toNat) (small : size.toNat < 2 ^ 62)
    (served : ∃ x ∈ xs, fits m (allocSize size) x = true) (shared : Bool) :
    ∃ x ∈ xs, (m.chunk x).used = 0 ∧ ∃ m' tail,
      (∀ fuel, xs.length < fuel →
        malloc fuel shared m heap size = some (x + sizeofMemChunk, m', { heap with tail := tail })) ∧
      Allocated m m' heap.head lo hi xs x size := by
  obtain ⟨pre, x, post, rfl, unused, room, m', tail, ran, _, taken⟩ := malloc_takes list positive small served shared
  exact ⟨x, List.mem_append_cons_self, unused, m', tail, ran, taken.allocated small room⟩

/-- A request that no chunk of the list can serve: the new chunk starts at the new break. -/
theorem malloc_grown (list : ChunkList m heap.head lo hi xs) (positive : 0 < size.toNat) (small : size.toNat < 2 ^ 62)
    (none : ∀ x ∈ xs, fits m (allocSize size) x = false) (shared : Bool)
    (inside : heap.brk.heapStart ≤ heap.brk.sbrk)
    (room : heap.brk.sbrk.toNat + (allocSize size).toNat ≤ heap.brk.heapStart.toNat + heap.brk.heapSize.toNat)
    (noWrap : heap.brk.heapStart.toNat + heap.brk.heapSize.toNat < 2 ^ 64) :
    ∃ m' tail, (∀ fuel, xs.length < fuel → malloc fuel shared m heap size =
        some (heap.brk.sbrk + allocSize size + sizeofMemChunk, m',
          { heap with tail := tail, brk := { heap.brk with sbrk := heap.brk.sbrk + allocSize size } })) ∧
      ∀ d, HeadersApart (heap.brk.sbrk + allocSize size) d → m'.chunk d = m.chunk d := by
  have alloc := allocSize_toNat small
  have nonempty : size ≠ 0 := by bv_omega
  have grown := sbrk_up shared (allocSize size) (by omega) (by omega) inside room noWrap
  have proper : heap.brk.sbrk + allocSize size ≠ 0 := by bv_omega
  obtain ⟨m', tail, done, _, kept⟩ := mallocSuccess_spec
    (m.fresh (heap.brk.sbrk + allocSize size) (allocSize size))
    { heap with
      tail := heap.brk.sbrk + allocSize size
      brk := { heap.brk with sbrk := heap.brk.sbrk + allocSize size } } (heap.brk.sbrk + allocSize size)
  refine ⟨m', tail, fun fuel more => ?_, fun d apart => (kept d apart).trans (fresh_frame apart)⟩
  rw [malloc_asked list.chain nonempty none shared more, grown]
  simp only [if_neg proper, done]

/-- The scan stops at the first chunk that claims the address, with the chunk before it. -/
theorem freeScan_spec (addr : Word) (chain : Chain m.next 0 head xs) (prev : Word) :
    ((∀ y ∈ xs, (m.chunk y).address ≠ addr) ∧
      ∃ last, ∀ fuel, xs.length < fuel → freeScan m addr fuel prev head = some (last, 0)) ∨
    ∃ pre ptr post, xs = pre ++ ptr :: post ∧ (m.chunk ptr).address = addr ∧
      (∀ y ∈ pre, (m.chunk y).address ≠ addr) ∧
      ∀ fuel, xs.length < fuel → freeScan m addr fuel prev head = some (pre.getLastD prev, ptr) := by
  induction xs generalizing head prev with
  | nil =>
    left
    obtain rfl : head = 0 := chain.empty_iff.mpr rfl
    refine ⟨List.forall_mem_nil _, prev, fun fuel more => ?_⟩
    obtain ⟨spare, rfl⟩ : ∃ spare, fuel = spare + 1 := ⟨fuel - 1, by omega⟩
    rw [freeScan, if_pos (Or.inl rfl)]
  | cons x rest ih =>
    obtain rfl : head = x := chain.head_eq
    have proper : head ≠ 0 := fun null => chain.proper (null ▸ List.mem_cons_self)
    cases decEq (m.chunk head).address addr with
    | isTrue found =>
      right
      refine ⟨[], head, rest, rfl, found, List.forall_mem_nil _, fun fuel more => ?_⟩
      obtain ⟨spare, rfl⟩ : ∃ spare, fuel = spare + 1 := ⟨fuel - 1, by omega⟩
      rw [freeScan, if_pos (Or.inr found)]
      rfl
    | isFalse other =>
      have turn : ∀ fuel, freeScan m addr (fuel + 1) prev head = freeScan m addr fuel head (m.next head) := by
        intro fuel
        rw [freeScan, if_neg (not_or.mpr ⟨proper, other⟩)]
        rfl
      have first : ∀ ys : List Word, (∀ y ∈ ys, (m.chunk y).address ≠ addr) →
          ∀ y ∈ head :: ys, (m.chunk y).address ≠ addr := fun ys later => List.forall_mem_cons.mpr ⟨other, later⟩
      cases ih chain.tail head with
      | inl missing =>
        obtain ⟨unclaimed, last, ran⟩ := missing
        refine Or.inl ⟨first rest unclaimed, last, fun fuel more => ?_⟩
        obtain ⟨spare, rfl⟩ : ∃ spare, fuel = spare + 1 := ⟨fuel - 1, by omega⟩
        exact (turn spare).trans (ran spare (Nat.lt_of_succ_lt_succ more))
      | inr found =>
        obtain ⟨pre, ptr, post, rfl, claims, before, ran⟩ := found
        refine Or.inr ⟨head :: pre, ptr, post, rfl, claims, first pre before, fun fuel more => ?_⟩
        obtain ⟨spare, rfl⟩ : ∃ spare, fuel = spare + 1 := ⟨fuel - 1, by omega⟩
        rw [turn spare, ran spare (Nat.lt_of_succ_lt_succ more), List.getLastD_cons]

theorem absorbNext_spec (list : ChunkList m head lo hi (pre ++ x :: post)) :
    ∃ post', ChunkList (absorbNext m x) head lo hi (pre ++ x :: post') ∧
      ((absorbNext m x).chunk x).used = (m.chunk x).used ∧
      (∀ z ∈ post, (m.chunk z).used ≠ 0 → z ∈ post') ∧ post' ⊆ post ∧
      ∀ d, HeadersApart x d → (absorbNext m x).chunk d = m.chunk d := by
  unfold absorbNext
  simp only
  split
  · rename_i unusedNext
    obtain ⟨proper, unused⟩ := unusedNext
    cases post with
    | nil => exact absurd list.chain.next_last proper
    | cons y rest =>
      have here : (m.chunk x).next = y := list.chain.suffix.2.head_eq
      rw [here] at unused ⊢
      have apart := list.apart.1
      have next : HeadersApart x y := apart y (List.mem_append_right pre List.mem_cons_self)
      have after : ((m.setSize x ((m.chunk x).size + (m.chunk y).size)).chunk
          ((m.setSize x ((m.chunk x).size + (m.chunk y).size)).chunk x).next).next = (m.chunk y).next := by
        rw [HeapMemory.chunk_setSize]
        simp only [here, HeapMemory.chunk_setSize_apart next]
      rw [after]
      have same : ∀ d, HeadersApart x d →
          ((m.setSize x ((m.chunk x).size + (m.chunk y).size)).setNext x (m.chunk y).next).chunk d = m.chunk d := by
        intro d far
        rw [HeapMemory.chunk_setNext_apart far, HeapMemory.chunk_setSize_apart far]
      refine ⟨rest, list.join ?_ ?_ ?_ ?_, by simp, ?_, List.subset_cons_self y rest, same⟩
      · simp [list.joined_size]
      · simp
      · simpa using list.owned x (by simp)
      · exact fun z hz => same z (apart z (ChunkList.mem_around hz))
      · intro z hz used
        cases hz with
        | head => exact absurd unused used
        | tail _ later => exact later
  · exact ⟨post, list, rfl, fun z hz _ => hz, List.Subset.refl post, fun d _ => rfl⟩

/-- The chunk in front of `x` takes over `x`. -/
theorem joinPrev_spec {p : Word} (list : ChunkList m head lo hi (pre ++ p :: x :: post))
    (unused : (m.chunk p).used = 0) :
    let m' := (m.setSize p ((m.chunk p).size + (m.chunk x).size)).setAddress p 0
    ChunkList (m'.setNext p (m'.chunk x).next) head lo hi (pre ++ p :: post) ∧
      ∀ d, HeadersApart p d → (m'.setNext p (m'.chunk x).next).chunk d = m.chunk d := by
  intro m'
  have apart := list.apart.1
  have next : HeadersApart p x := apart x (by simp)
  have after : m'.chunk x = m.chunk x := by
    rw [HeapMemory.chunk_setAddress_apart next, HeapMemory.chunk_setSize_apart next]
  have same : ∀ d, HeadersApart p d → (m'.setNext p (m.chunk x).next).chunk d = m.chunk d := by
    intro d far
    rw [HeapMemory.chunk_setNext_apart far, HeapMemory.chunk_setAddress_apart far, HeapMemory.chunk_setSize_apart far]
  rw [after]
  refine ⟨list.join ?_ ?_ ?_ fun z hz => same z (apart z (ChunkList.mem_around hz)), same⟩
  · simp [m', list.joined_size]
  · simp
  · intro used
    rw [HeapMemory.chunk_setNext, HeapMemory.chunk_setAddress, HeapMemory.chunk_setSize] at used
    exact absurd unused used

/-- An unused chunk in front takes the freed one over, and with it an unused one behind. -/
theorem coalesce_joined {p : Word} (list : ChunkList m head lo hi (pre ++ p :: x :: post))
    (unused : (m.chunk p).used = 0) :
    ∃ post', ChunkList (coalesce m p x) head lo hi (pre ++ p :: post') ∧ ((coalesce m p x).chunk p).used = 0 ∧
      (∀ z ∈ post, (m.chunk z).used ≠ 0 → z ∈ post') ∧ post' ⊆ post ∧
      ∀ d, HeadersApart p d → HeadersApart x d → (coalesce m p x).chunk d = m.chunk d := by
  have regroup : pre ++ p :: x :: post = (pre ++ [p]) ++ x :: post := by simp
  obtain ⟨post', list₁, _, kept, fewer, same⟩ := absorbNext_spec (regroup ▸ list)
  have far : HeadersApart p x := list.apart.1 x (by simp)
  have other : x ≠ p := by
    rintro rfl
    exact absurd far.1 (by simp)
  have unused₁ : ((absorbNext m x).chunk p).used = 0 := by rw [same p far.symm, unused]
  have list₂ : ChunkList (absorbNext m x) head lo hi (pre ++ p :: x :: post') := by
    rwa [List.append_assoc] at list₁
  obtain ⟨list₃, same₃⟩ := joinPrev_spec list₂ unused₁
  have joins : x ≠ p ∧ ((absorbNext m x).chunk p).used = 0 := ⟨other, unused₁⟩
  have result : coalesce m p x = _ := if_pos joins
  rw [result]
  refine ⟨post', list₃, ?_, kept, fewer, fun d farP farX => (same₃ d farP).trans (same d farX)⟩
  rw [HeapMemory.chunk_setNext, HeapMemory.chunk_setAddress, HeapMemory.chunk_setSize]
  exact unused₁

theorem coalesce_alone {prev : Word} (alone : ¬ (x ≠ prev ∧ ((absorbNext m x).chunk prev).used = 0)) :
    coalesce m prev x = absorbNext m x := if_neg alone

/-- What the freed chunk is joined to is the chunk in front of it, and unused. -/
theorem joined_front (list : ChunkList m head lo hi (pre ++ x :: post)) {prev : Word} (before : pre.getLastD x = prev)
    (joins : x ≠ prev ∧ ((absorbNext m x).chunk prev).used = 0) :
    ∃ front, pre = front ++ [prev] ∧ (m.chunk prev).used = 0 ∧ ChunkList m head lo hi (front ++ prev :: x :: post) := by
  obtain ⟨other, unused⟩ := joins
  rcases List.eq_nil_or_concat' pre with rfl | ⟨front, p, rfl⟩
  · exact absurd before other
  · rw [List.getLastD_concat] at before
    subst before
    obtain ⟨_, _, _, _, _, same⟩ := absorbNext_spec list
    rw [same p (list.apart.1 p (by simp))] at unused
    exact ⟨front, rfl, unused, by rwa [List.append_assoc] at list⟩

/-- Freeing keeps the list whole and leaves every used chunk but the freed one alone. -/
theorem coalesce_spec (list : ChunkList m head lo hi (pre ++ x :: post)) {prev : Word}
    (before : pre.getLastD x = prev) :
    ∃ xs', ChunkList (coalesce m prev x) head lo hi xs' ∧
      (∀ z ∈ pre ++ post, (m.chunk z).used ≠ 0 → z ∈ xs' ∧ (coalesce m prev x).chunk z = m.chunk z) ∧
      ∀ d, Outside lo hi d → (coalesce m prev x).chunk d = m.chunk d := by
  have apart := list.apart
  by_cases joins : x ≠ prev ∧ ((absorbNext m x).chunk prev).used = 0
  · obtain ⟨front, rfl, unused, whole⟩ := joined_front list before joins
    obtain ⟨post', list', _, kept, _, same⟩ := coalesce_joined whole unused
    refine ⟨_, list', fun z hz used => ?_, fun d out => same d (whole.apart.2 d out) (apart.2 d out)⟩
    have other : z ≠ prev := fun here => used (here ▸ unused)
    have farX := apart.1 z hz
    have places : z ∈ front ∨ z ∈ post := by simpa [other] using hz
    refine ⟨?_, same z (whole.apart.1 z ?_) farX⟩
    · cases places with
      | inl early => exact List.mem_append_left _ early
      | inr late => exact List.mem_append_right front (List.mem_cons_of_mem prev (kept z late used))
    · cases places with
      | inl early => exact List.mem_append_left _ early
      | inr late => exact List.mem_append_right front (List.mem_cons_of_mem x late)
  · obtain ⟨post', list₁, _, kept, _, same⟩ := absorbNext_spec list
    rw [coalesce_alone joins]
    refine ⟨_, list₁, fun z hz used => ⟨?_, same z (apart.1 z hz)⟩, fun d out => same d (apart.2 d out)⟩
    cases List.mem_append.mp hz with
    | inl early => exact List.mem_append_left _ early
    | inr late => exact List.mem_append_right pre (List.mem_cons_of_mem x (kept z late used))

/-- The chunk at which the scan stops is freed, with the one in front of it, or itself where it is the first. -/
theorem free_found {addr : Word} (list : ChunkList m heap.head lo hi (pre ++ x :: post)) {prev : Word}
    (ran : ∀ fuel, (pre ++ x :: post).length < fuel → freeScan m addr fuel heap.head heap.head = some (prev, x))
    (before : prev = pre.getLastD heap.head) : pre.getLastD x = prev ∧
      ∀ fuel, (pre ++ x :: post).length < fuel → free fuel m heap addr = some (coalesce m prev x) := by
  have proper : x ≠ 0 := fun null => list.chain.proper (null ▸ List.mem_append_cons_self)
  refine ⟨?_, fun fuel more => by simp only [free, ran fuel more, if_neg proper]⟩
  rw [before]
  cases pre with
  | nil => exact list.chain.head_eq.symm
  | cons y rest => rw [List.getLastD_cons, List.getLastD_cons]

/-- `_free` ends. A used chunk whose block is not the freed one stays as it is. -/
theorem free_spec (list : ChunkList m heap.head lo hi xs) (addr : Word) :
    ∃ m' xs', (∀ fuel, xs.length < fuel → free fuel m heap addr = some m') ∧ ChunkList m' heap.head lo hi xs' ∧
      (∀ z ∈ xs, (m.chunk z).used ≠ 0 → z + sizeofMemChunk ≠ addr → z ∈ xs' ∧ m'.chunk z = m.chunk z) ∧
      ∀ d, Outside lo hi d → m'.chunk d = m.chunk d := by
  rcases freeScan_spec addr list.chain heap.head with ⟨_, last, ran⟩ | ⟨pre, x, post, rfl, claims, _, ran⟩
  · refine ⟨m, xs, fun fuel more => ?_, list, fun z hz _ _ => ⟨hz, rfl⟩, fun d _ => rfl⟩
    simp only [free, ran fuel more, if_true]
  · obtain ⟨first, freed⟩ := free_found list ran rfl
    obtain ⟨xs', after, kept, frame⟩ := coalesce_spec list first
    refine ⟨_, xs', freed, after, fun z hz used other => kept z ?_ used, frame⟩
    -- a used chunk that claims the address is the one in front of it
    have notX : z ≠ x := by
      rintro rfl
      exact other ((list.owned z hz used).symm.trans claims)
    simpa [notX] using hz

end RealmVm
