import RealmVm.Heap.HeapRuns

/-! What becomes of the memory that is freed. -/
namespace RealmVm

open Lib

/-- The byte belongs to an unused chunk of the list. -/
def InFree (m : HeapMemory) (head : Word) (a : Nat) : Prop :=
  ∃ xs, Chain m.next 0 head xs ∧ ∃ c ∈ xs, (m.chunk c).used = 0 ∧ c.toNat ≤ a ∧
    a < c.toNat + (m.chunk c).size.toNat

/-- The header, the block, and what else the chunk has by its size. -/
def Block.ChunkByte (b : Block) (m : HeapMemory) (a : Nat) : Prop :=
  b.start ≤ a + 32 ∧ (a < b.stop ∨ a + 32 < b.start + (m.chunk (b.address - sizeofMemChunk)).size.toNat)

/-- The bytes of the block's chunk are free, no other was lost, and a request of the same size
is served with the break where it is. -/
structure FreedAgain (s : HeapHistory) (b : Block) (m' : HeapMemory) : Prop where
  own : ∀ a, b.ChunkByte s.mem a → InFree m' (s.heap b.shared).head a
  older : ∀ a, InFree s.mem (s.heap b.shared).head a → InFree m' (s.heap b.shared).head a
  served : ∃ p m'' h', Returns (fun fuel => malloc fuel b.shared m' (s.heap b.shared) b.size) (p, m'', h') ∧ p ≠ 0 ∧
    h'.brk = (s.heap b.shared).brk

def ReturnsMemory (s : HeapHistory) (b : Block) : Prop :=
  ∃ m', Returns (fun fuel => free fuel s.mem (s.heap b.shared) b.address) m' ∧ FreedAgain s b m'

/-- Directly in front of the chunk that holds the block stands an unused one, and the scan passes it. -/
def UnusedInFront (s : HeapHistory) (b : Block) : Prop :=
  ∃ pre x c post, Chain s.mem.next 0 (s.heap b.shared).head (pre ++ x :: c :: post) ∧
    b.address = c + sizeofMemChunk ∧ b.stop ≤ c.toNat + (s.mem.chunk c).size.toNat ∧ (s.mem.chunk x).used = 0 ∧
      ∀ y ∈ pre ++ [x], (s.mem.chunk y).address ≠ b.address

section lists

variable {m m' : HeapMemory} {heap : Heap} {head c x : Word} {lo hi : Nat} {xs pre post : List Word}

theorem not_inFree_of_used (list : ChunkList m head lo hi xs) (member : c ∈ xs) (used : (m.chunk c).used ≠ 0) :
    ¬ InFree m head c.toNat := by
  rintro ⟨ys, chain, d, onList, unused, low, high⟩
  obtain rfl := list.chain.unique chain
  have other : d ≠ c := fun same => used (same ▸ unused)
  have header := list.header c member
  have extents := list.extents member onList other
  omega

theorem inFree_below (list : ChunkList m head lo hi xs) {a : Nat} (free : InFree m head a) : lo ≤ a ∧ a < hi := by
  obtain ⟨ys, chain, d, onList, _, low, high⟩ := free
  obtain rfl := list.chain.unique chain
  have bounds := list.bounds onList
  omega

/-- A used chunk without an unused one in front of it stays on the list, and stays used. -/
theorem free_stays_used (list : ChunkList m heap.head lo hi xs) (member : c ∈ xs) (used : (m.chunk c).used ≠ 0)
    (behindUsed : ∀ pre x post, xs = pre ++ x :: c :: post → (m.chunk x).used = 0 →
      ¬ ∀ y ∈ pre ++ [x], (m.chunk y).address ≠ c + sizeofMemChunk) :
    ∃ m' xs', Returns (fun fuel => free fuel m heap (c + sizeofMemChunk)) m' ∧
      ChunkList m' heap.head lo hi xs' ∧ c ∈ xs' ∧ (m'.chunk c).used ≠ 0 := by
  have claim := list.owned c member used
  rcases freeScan_spec (c + sizeofMemChunk) list.chain heap.head with
    ⟨nobody, _⟩ | ⟨pre, ptr, post, rfl, claims, before, ran⟩
  · exact absurd claim (nobody c member)
  · generalize start : pre.getLastD heap.head = prev at ran
    obtain ⟨first, freed⟩ := free_found list ran start.symm
    by_cases here : ptr = c
    · subst here
      obtain ⟨post', list', used', _, _, _⟩ := absorbNext_spec list
      have alone : ¬ (ptr ≠ prev ∧ ((absorbNext m ptr).chunk prev).used = 0) := by
        intro joins
        obtain ⟨front, rfl, unused, _⟩ := joined_front list first joins
        exact behindUsed front prev post (List.append_assoc ..) unused before
      have result := coalesce_alone alone
      rw [result] at freed
      exact ⟨_, _, ⟨_, freed⟩, list', List.mem_append_cons_self, by rwa [used']⟩
    · obtain ⟨xs', list', kept, _⟩ := coalesce_spec list first
      have around := (ChunkList.mem_middle.mp member).resolve_left (Ne.symm here)
      obtain ⟨stays, same⟩ := kept c around used
      exact ⟨_, _, ⟨_, freed⟩, list', stays, by rwa [same]⟩

/-- The scan finds the chunk when nothing in front of it claims the address. -/
theorem free_first (list : ChunkList m heap.head lo hi (pre ++ x :: c :: post))
    (claims : (m.chunk c).address = c + sizeofMemChunk)
    (unclaimed : ∀ y ∈ pre ++ [x], (m.chunk y).address ≠ c + sizeofMemChunk) :
    Returns (fun fuel => free fuel m heap (c + sizeofMemChunk)) (coalesce m x c) := by
  have regroup : pre ++ x :: c :: post = (pre ++ [x]) ++ c :: post := by simp
  rw [regroup] at list
  rcases freeScan_spec (c + sizeofMemChunk) list.chain heap.head with
    ⟨nobody, _⟩ | ⟨front, ptr, back, split, claimed, before, ran⟩
  · exact absurd claims (nobody c List.mem_append_cons_self)
  · have notFront : ptr ∉ pre ++ [x] := fun member => unclaimed ptr member claimed
    have same : ptr = c := by
      have search : ((pre ++ [x]) ++ c :: post).find? (fun y => decide ((m.chunk y).address = c + sizeofMemChunk)) =
          some c := List.find?_eq_some_iff_append.mpr
        ⟨decide_eq_true claims, _, _, rfl, fun y hy => by simpa using unclaimed y hy⟩
      have search' : ((pre ++ [x]) ++ c :: post).find? (fun y => decide ((m.chunk y).address = c + sizeofMemChunk)) =
          some ptr := List.find?_eq_some_iff_append.mpr
        ⟨decide_eq_true claimed, front, back, split, fun y hy => by simpa using before y hy⟩
      exact Option.some.inj (search'.symm.trans search)
    subst same
    have others := (List.nodup_cons.mp (List.nodup_middle.mp list.chain.nodup)).1
    have notAfter : ptr ∉ post := fun member => others (List.mem_append_right _ member)
    obtain ⟨rfl, _, rfl⟩ := (List.append_cons_inj_of_notMem notFront notAfter).mp split
    obtain ⟨_, freed⟩ := free_found list ran rfl
    rw [List.getLastD_concat] at freed
    exact ⟨_, freed⟩

end lists

variable {s s' : HeapHistory} {b : Block}

/-- Without an unused chunk in front the freed bytes are lost. -/
theorem ReturnsMemory.unusedInFront (ok : HeapsOk s) (member : b ∈ s.live) (returns : ReturnsMemory s b) :
    UnusedInFront s b := by
  obtain ⟨m', freed, own, _, _⟩ := returns
  obtain ⟨⟨xs, list, placed⟩, fits, noWrap, broken⟩ := ok.each b.shared
  have sized := ok.sized b member
  by_contra none
  cases placed b (mem_blocksOf member) with
  | inl inList =>
    obtain ⟨c, onList, address, used, room⟩ := inList
    have place : b.start = c.toNat + 32 := (congrArg BitVec.toNat address).trans (list.behind_header onList)
    have behindUsed : ∀ pre x post, xs = pre ++ x :: c :: post → (s.mem.chunk x).used = 0 →
        ¬ ∀ y ∈ pre ++ [x], (s.mem.chunk y).address ≠ c + sizeofMemChunk := by
      rintro pre x post rfl unused unclaimed
      refine none ⟨pre, x, c, post, list.chain, address, ?_, unused, address ▸ unclaimed⟩
      unfold Block.stop
      unfold Block.start at place
      omega
    obtain ⟨m₁, xs', freed', list', stays, used'⟩ := free_stays_used list onList used behindUsed
    rw [address] at freed
    obtain rfl := freed.unique freed'
    refine not_inFree_of_used list' stays used' (own c.toNat ⟨by omega, Or.inl ?_⟩)
    unfold Block.stop
    unfold Block.start at place
    omega
  | inr behind =>
    obtain ⟨m₁, xs', ran, list', _⟩ := free_spec list b.address
    obtain rfl := freed.unique ⟨_, ran⟩
    have inside := own b.start ⟨Nat.le_add_right _ _, Or.inl (Nat.lt_add_of_pos_right sized)⟩
    have bound := (inFree_below list' inside).2
    exact absurd behind.1 (Nat.not_le.mpr bound)

/-- Where a list is cut into chunks anew, a chunk that is not changed keeps its bytes. -/
theorem cut_anew {m m' : HeapMemory} {head : Word} {lo hi : Nat} {xs xs' : List Word} {x : Word}
    (list : ChunkList m head lo hi xs) (list' : ChunkList m' head lo hi xs')
    (same : ∀ z ∈ xs', z ≠ x → z ∈ xs ∧ m'.chunk z = m.chunk z) {d : Word} (member : d ∈ xs) {a : Nat}
    (low : d.toNat ≤ a) (high : a < d.toNat + (m.chunk d).size.toNat) :
    (x ∈ xs' ∧ x.toNat ≤ a ∧ a < x.toNat + (m'.chunk x).size.toNat) ∨ (d ∈ xs' ∧ m'.chunk d = m.chunk d) := by
  have bounds := list.bounds member
  obtain ⟨z, onList, below, above⟩ := list'.tiles.cover (n := a) (by omega) (by omega)
  by_cases here : z = x
  · exact Or.inl ⟨here ▸ onList, here ▸ below, here ▸ above⟩
  · obtain ⟨older, unchanged⟩ := same z onList here
    rw [unchanged] at above
    by_cases equal : z = d
    · exact Or.inr ⟨equal ▸ onList, equal ▸ unchanged⟩
    · have extents := list.extents member older equal
      omega

/-- After the joining the list is cut anew at `x`, and `c` is no chunk of its own. -/
theorem joined_anew (list : ChunkList m head lo hi (pre ++ x :: c :: post)) (unused : (m.chunk x).used = 0) :
    ∃ xs', ChunkList (coalesce m x c) head lo hi xs' ∧ x ∈ xs' ∧ ((coalesce m x c).chunk x).used = 0 ∧ c ∉ xs' ∧
      ∀ z ∈ xs', z ≠ x → z ∈ pre ++ x :: c :: post ∧ (coalesce m x c).chunk z = m.chunk z := by
  obtain ⟨post', list', unused', kept, fewer, same⟩ := coalesce_joined list unused
  have regroup : pre ++ x :: c :: post = (pre ++ [x]) ++ c :: post := by simp
  have whole : ChunkList m head lo hi ((pre ++ [x]) ++ c :: post) := regroup ▸ list
  refine ⟨_, list', List.mem_append_cons_self, unused', fun again => ?_, fun z onList other => ?_⟩
  · have once := (List.nodup_cons.mp (List.nodup_middle.mp whole.chain.nodup)).1
    apply once
    simp only [List.mem_append, List.mem_cons] at again ⊢
    rcases again with early | here | late
    · exact Or.inl (Or.inl early)
    · exact Or.inl (Or.inr (Or.inl here))
    · exact Or.inr (fewer late)
  · have old : z ∈ pre ++ post := by
      cases List.mem_append.mp ((ChunkList.mem_middle.mp onList).resolve_left other) with
      | inl early => exact List.mem_append_left post early
      | inr late => exact List.mem_append_right pre (fewer late)
    have farC := whole.apart.1 z (by
      simp only [List.mem_append, List.mem_singleton] at old ⊢
      tauto)
    have inX : z ∈ pre ++ c :: post := ChunkList.mem_around old
    exact ⟨ChunkList.mem_around inX, same z (list.apart.1 z inX) farC⟩

/-- With an unused chunk in front the freed bytes come back. -/
theorem UnusedInFront.returnsMemory (ok : HeapsOk s) (member : b ∈ s.live) (front : UnusedInFront s b) :
    ReturnsMemory s b := by
  obtain ⟨⟨xs, list, placed⟩, within, noWrap, broken⟩ := ok.each b.shared
  obtain ⟨pre, x, c, post, chain, address, room, unused, unclaimed⟩ := front
  obtain rfl := list.chain.unique chain
  have sized := ok.sized b member
  have inList : c ∈ pre ++ x :: c :: post := by simp
  have place : b.start = c.toNat + 32 := (congrArg BitVec.toNat address).trans (list.behind_header inList)
  have boundC := list.bounds inList
  have extent : b.stop = b.start + b.size.toNat := rfl
  have used : (s.mem.chunk c).used ≠ 0 := by
    cases placed b (mem_blocksOf member) with
    | inl held =>
      obtain ⟨d, _, other, used, _⟩ := held
      have same : c = d := by bv_omega
      exact same ▸ used
    | inr behind =>
      have start := behind.1
      omega
  have claims := list.owned c (by simp) used
  have freed := free_first list claims (address ▸ unclaimed)
  obtain ⟨xs', list', onList, unused', gone, anew⟩ := joined_anew list unused
  have taken : ∀ a, c.toNat ≤ a → a < c.toNat + (s.mem.chunk c).size.toNat →
      x.toNat ≤ a ∧ a < x.toNat + ((coalesce s.mem x c).chunk x).size.toNat := by
    intro a low high
    cases cut_anew list list' anew inList low high with
    | inl joined => exact joined.2
    | inr still => exact absurd still.1 gone
  have size := list.header c inList
  refine ⟨_, address ▸ freed, fun a byte => ?_, fun a free => ?_, ?_⟩
  · obtain ⟨low, high⟩ := byte
    have header : b.address - sizeofMemChunk = c := by bv_omega
    rw [header] at high
    obtain ⟨below, above⟩ := taken a (by omega) (by omega)
    exact ⟨_, list'.chain, x, onList, unused', below, above⟩
  · obtain ⟨ys, chain', d, member', free', low, high⟩ := free
    obtain rfl := list.chain.unique chain'
    rcases cut_anew list list' anew member' low high with ⟨_, below, above⟩ | ⟨still, unchanged⟩
    · exact ⟨_, list'.chain, x, onList, unused', below, above⟩
    · exact ⟨_, list'.chain, d, still, by rw [unchanged, free'], low, by rwa [unchanged]⟩
  · have other : x ≠ c := Ne.symm (list.chain.apart (by simp))
    have extents := list.extents inList List.mem_append_cons_self other
    have front := list.header x List.mem_append_cons_self
    have first := taken c.toNat (Nat.le_refl _) (by omega)
    have final := taken (c.toNat + (s.mem.chunk c).size.toNat - 1) (by omega) (by omega)
    have arena : (s.heap b.shared).listEnd = (s.heap b.shared).listStart + 0x5000 := rfl
    have small : b.size.toNat < 2 ^ 62 := by omega
    have alloc := allocSize_toNat small
    have fit : fits (coalesce s.mem x c) (allocSize b.size) x = true := by
      simp only [fits, Bool.and_eq_true, beq_iff_eq, decide_eq_true_eq]
      exact ⟨unused', BitVec.le_def.mpr (by omega)⟩
    obtain ⟨y, memberY, _, m'', tail, ran, _⟩ := malloc_served list' sized small ⟨x, onList, fit⟩ b.shared
    have proper := list'.behind_header memberY
    exact ⟨_, m'', _, ⟨_, ran⟩, by bv_omega, rfl⟩

/-- Exactly then the freed memory is available again. -/
theorem returnsMemory_iff (ok : HeapsOk s) (member : b ∈ s.live) : ReturnsMemory s b ↔ UnusedInFront s b :=
  ⟨ReturnsMemory.unusedInFront ok member, UnusedInFront.returnsMemory ok member⟩

/-- Unused chunks stand at the end of the list only. -/
def LastUnused (m : HeapMemory) (head : Word) : Prop :=
  ∀ xs, Chain m.next 0 head xs → ∀ c ∈ xs, (m.chunk c).used = 0 → m.next c = 0

section lists

variable {m m' : HeapMemory} {head x size : Word} {lo hi : Nat} {xs pre post : List Word}

theorem LastUnused.of_list (chain : Chain m.next 0 head xs)
    (last : ∀ c ∈ xs, (m.chunk c).used = 0 → m.next c = 0) : LastUnused m head := by
  intro ys chain' c member
  obtain rfl := chain.unique chain'
  exact last c member

theorem LastUnused.frame (last : LastUnused m head) (chain : Chain m.next 0 head xs)
    (same : ∀ c ∈ xs, m'.chunk c = m.chunk c) : LastUnused m' head := by
  refine .of_list (chain.frame fun c hc => congrArg Chunk.next (same c hc)) fun c member unused => ?_
  rw [same c member] at unused
  rw [HeapMemory.next, same c member]
  exact last xs chain c member unused

/-- A chunk that is cut leaves the end of the list unused. -/
theorem LastUnused.allocated (last : LastUnused m head) (list : ChunkList m head lo hi xs) (member : x ∈ xs)
    (unused : (m.chunk x).used = 0) (allocated : Allocated m m' head lo hi xs x size) : LastUnused m' head := by
  obtain ⟨⟨xs', list', all, back⟩, used, _, others, _⟩ := allocated
  have final := last xs list.chain x member unused
  refine .of_list list'.chain fun c onList free => ?_
  have other : c ≠ x := fun same => used (same ▸ free)
  cases back c onList with
  | inl older =>
    rw [others c older other] at free
    rw [HeapMemory.next, others c older other]
    exact last xs list.chain c older free
  | inr new => exact new.trans final

/-- Where unused chunks stand at the end only, no chunk is joined to one in front of it. -/
theorem LastUnused.alone (last : LastUnused m head) (list : ChunkList m head lo hi (pre ++ x :: post)) {prev : Word}
    (before : pre.getLastD x = prev) : ¬ (x ≠ prev ∧ ((absorbNext m x).chunk prev).used = 0) := by
  intro joins
  obtain ⟨front, _, unused, whole⟩ := joined_front list before joins
  have final := last _ whole.chain prev List.mem_append_cons_self unused
  have next : m.next prev = x := whole.chain.suffix.2.head_eq
  exact list.chain.proper (final.symm.trans next ▸ List.mem_append_cons_self)

theorem LastUnused.freed (last : LastUnused m head) (list : ChunkList m head lo hi (pre ++ x :: post)) {prev : Word}
    (before : pre.getLastD x = prev) : LastUnused (coalesce m prev x) head := by
  obtain ⟨post', list', used', _, fewer, same⟩ := absorbNext_spec list
  have apart := list.apart.1
  have alone := last.alone list before
  rw [coalesce_alone alone]
  refine .of_list list'.chain fun c onList free => ?_
  by_cases here : c = x
  · -- an unused chunk is the last and finds nothing to take over
    subst here
    rw [used'] at free
    have final := last _ list.chain c List.mem_append_cons_self free
    have stays : absorbNext m c = m := if_neg fun joins => joins.1 final
    rw [stays]
    exact final
  · have around := (ChunkList.mem_middle.mp onList).resolve_left here
    have old : c ∈ pre ++ post := by
      cases List.mem_append.mp around with
      | inl early => exact List.mem_append_left post early
      | inr late => exact List.mem_append_right pre (fewer late)
    rw [same c (apart c old)] at free
    rw [HeapMemory.next, same c (apart c old)]
    exact last _ list.chain c (ChunkList.mem_around old) free

end lists

/-- An operation on one heap that keeps to its own part of memory. -/
theorem lastUnused_change (ok : HeapsOk s) (last : ∀ shared, LastUnused s.mem (s.heap shared).head) {shared : Bool}
    {m' : HeapMemory} {h' : Heap} (head : h'.head = (s.heap shared).head) (own : LastUnused m' (s.heap shared).head)
    (frame : ∀ c, Outside (s.heap shared).listStart (s.heap shared).top c → m'.chunk c = s.mem.chunk c) (other : Bool) :
    LastUnused m' (Function.update s.heap shared h' other).head := by
  by_cases same : other = shared
  · subst same
    rwa [Function.update_self, head]
  · rw [Function.update_of_ne same]
    obtain ⟨xs, list, _⟩ := (ok.each other).list
    exact (last other).frame list.chain fun c member => frame c (ok.outside same list member)

theorem lastUnused_step {call : HeapCall} (ok : HeapsOk s) (last : ∀ shared, LastUnused s.mem (s.heap shared).head)
    (step : safeHeapStep s call s') : ∀ shared, LastUnused s'.mem (s'.heap shared).head := by
  obtain ⟨safe, allowed, performs⟩ := step
  cases call with
  | malloc shared size =>
    obtain ⟨p, m', h', returned, rfl⟩ := performs
    obtain ⟨⟨xs, list, _⟩, within, noWrap, broken⟩ := ok.each shared
    by_cases none : size = 0
    · subst none
      have nothing : Returns (fun fuel => malloc fuel shared s.mem (s.heap shared) 0) (0, s.mem, s.heap shared) :=
        ⟨0, fun fuel _ => rfl⟩
      obtain ⟨_, rest⟩ := Prod.mk.inj (returned.unique nothing)
      obtain ⟨rfl, rfl⟩ := Prod.mk.inj rest
      exact lastUnused_change ok last rfl (last shared) fun _ _ => rfl
    have positive : 0 < size.toNat := by bv_omega
    by_cases serves : s.Serves shared size
    · obtain ⟨ys, chain, served⟩ := serves
      obtain rfl := list.chain.unique chain
      obtain ⟨x, member, unused, m₁, tail, ran, allocated⟩ := malloc_served list positive allowed served shared
      obtain ⟨_, rest⟩ := Prod.mk.inj (returned.unique ⟨_, ran⟩)
      obtain ⟨rfl, rfl⟩ := Prod.mk.inj rest
      exact lastUnused_change ok last rfl ((last shared).allocated list member unused allocated) fun c out =>
        allocated.frame c ⟨out.1, out.2.imp_right (Nat.le_trans within)⟩
    · have grows := (safe.resolve_left none).resolve_left serves
      have unfit : ∀ x ∈ xs, fits s.mem (allocSize size) x = false := fun x hx =>
        Bool.eq_false_iff.mpr fun fit => serves ⟨xs, list.chain, x, hx, fit⟩
      have apart := grows.apart positive allowed noWrap list
      have room := grows.room
      obtain ⟨m₁, tail, ran, frame⟩ := malloc_grown list positive allowed unfit shared broken
        (show _ ≤ (s.heap shared).top by omega) noWrap
      obtain ⟨_, rest⟩ := Prod.mk.inj (returned.unique ⟨_, ran⟩)
      obtain ⟨rfl, rfl⟩ := Prod.mk.inj rest
      exact lastUnused_change ok last rfl ((last shared).frame list.chain fun x hx => frame x (apart.1 x hx))
        fun c out => frame c (apart.2 c out)
  | free b =>
    obtain ⟨m', returned, rfl⟩ := performs
    obtain ⟨⟨xs, list, _⟩, within, _, _⟩ := ok.each b.shared
    rcases freeScan_spec b.address list.chain (s.heap b.shared).head with
      ⟨_, prev, ran⟩ | ⟨pre, x, post, rfl, _, _, ran⟩
    · have nothing : Returns (fun fuel => free fuel s.mem (s.heap b.shared) b.address) s.mem :=
        ⟨xs.length, fun fuel more => by simp only [free, ran fuel more, if_true]⟩
      obtain rfl := returned.unique nothing
      exact last
    · obtain ⟨first, freed⟩ := free_found list ran rfl
      obtain rfl := returned.unique ⟨_, freed⟩
      obtain ⟨_, _, _, frame⟩ := coalesce_spec list first
      intro shared
      have change := lastUnused_change ok last rfl ((last b.shared).freed list first)
        (fun c out => frame c ⟨out.1, out.2.imp_right (Nat.le_trans within)⟩) shared
      rwa [Function.update_eq_self] at change
  | store b index v =>
    obtain rfl := performs
    intro shared
    obtain ⟨xs, list, _⟩ := (ok.each shared).list
    exact (last shared).frame list.chain fun c onList => ok.store_header allowed.1 allowed.2 v list onList

theorem lastUnused_init (m : HeapMemory) {p q : HeapBreak} (readyP : p.Ready) (readyQ : q.Ready)
    (arenas : p.heapStart.toNat + p.heapSize.toNat ≤ q.heapStart.toNat ∨
      q.heapStart.toNat + q.heapSize.toNat ≤ p.heapStart.toNat) (shared : Bool) :
    LastUnused (HeapHistory.init m p q).mem ((HeapHistory.init m p q).heap shared).head := by
  obtain ⟨m', state, ⟨c, headerP⟩, d, headerQ⟩ := init_state m readyP readyQ arenas
  have single : ∀ {b : HeapBreak} {c : Chunk}, b.Ready →
      m'.chunk b.sbrk = { c with size := 0x5000, used := 0, next := 0 } → LastUnused m' b.sbrk := by
    intro b c ready header
    have last : m'.next b.sbrk = 0 := congrArg Chunk.next header
    have proper : (0 : Word) ∉ [b.sbrk] := by
      intro null
      have positive := ready.proper
      rw [← List.mem_singleton.mp null] at positive
      exact absurd positive (Nat.lt_irrefl 0)
    have chain : Chain m'.next 0 b.sbrk [b.sbrk] := ⟨⟨rfl, last⟩, proper⟩
    refine .of_list chain fun x member _ => ?_
    rw [List.mem_singleton.mp member]
    exact last
  rw [state]
  cases shared with
  | true => exact single readyQ headerQ
  | false => exact single readyP headerP

/-- Where unused chunks stand at the end only, none is in front of a block. -/
theorem not_unusedInFront (last : LastUnused s.mem (s.heap b.shared).head) : ¬ UnusedInFront s b := by
  rintro ⟨pre, x, c, post, chain, _, _, unused, _⟩
  have final := last _ chain x List.mem_append_cons_self unused
  have next : s.mem.next x = c := chain.suffix.2.head_eq
  exact chain.proper (final.symm.trans next ▸ by simp)

/-- In no run of safe calls does freeing a block make its memory available again. -/
theorem free_returns_nothing {m : HeapMemory} {p q : HeapBreak} (readyP : p.Ready) (readyQ : q.Ready)
    (arenas : p.heapStart.toNat + p.heapSize.toNat ≤ q.heapStart.toNat ∨
      q.heapStart.toNat + q.heapSize.toNat ≤ p.heapStart.toNat)
    {calls : List HeapCall} (run : Run safeHeapStep (HeapHistory.init m p q) calls s) (member : b ∈ s.live) :
    ¬ ReturnsMemory s b := by
  obtain ⟨ok, last⟩ := run.invariant
    (fun _ _ _ kept step => And.intro (safe_step kept.1 step) (lastUnused_step kept.1 kept.2 step))
    ⟨init_ok m readyP readyQ arenas, lastUnused_init m readyP readyQ arenas⟩
  rw [returnsMemory_iff ok member]
  exact not_unusedInFront (last b.shared)

/-- The boot heaps with a first block of 24 bytes. -/
theorem first_block : ∃ s b, Run safeHeapStep bootHeaps [.malloc false 24] s ∧ HeapsOk s ∧
    (∀ shared, LastUnused s.mem (s.heap shared).head) ∧ b ∈ s.live := by
  have ok := init_ok (fun _ => 0) linkedLayout_ready.1 linkedLayout_ready.2 (by decide)
  have last := lastUnused_init (fun _ => 0) linkedLayout_ready.1 linkedLayout_ready.2 (by decide)
  obtain ⟨p, m', h', returned, proper, after⟩ := malloc_step ok (by decide) bootHeaps_allowed (Or.inl bootHeaps_serves)
  have step : safeHeapStep bootHeaps (.malloc false 24)
      ⟨m', Function.update bootHeaps.heap false h', ⟨false, p, 24⟩ :: bootHeaps.live⟩ :=
    ⟨Or.inr (Or.inl bootHeaps_serves), bootHeaps_allowed, p, m', h', returned, by rw [if_neg proper]⟩
  exact ⟨_, ⟨false, p, 24⟩, .cons step (.nil _), after, lastUnused_step ok last step, List.mem_cons_self⟩

/-- For heaps in order the freed memory is available again exactly for a block behind an unused
chunk, and no run of safe calls comes to one. -/
theorem freed_memory_returns_iff {m : HeapMemory} {p q : HeapBreak} (readyP : p.Ready) (readyQ : q.Ready)
    (arenas : p.heapStart.toNat + p.heapSize.toNat ≤ q.heapStart.toNat ∨
      q.heapStart.toNat + q.heapSize.toNat ≤ p.heapStart.toNat) :
    (∀ s b, HeapsOk s → b ∈ s.live → (ReturnsMemory s b ↔ UnusedInFront s b)) ∧
      ∀ calls s b, Run safeHeapStep (HeapHistory.init m p q) calls s → b ∈ s.live →
        HeapsOk s ∧ ¬ ReturnsMemory s b := by
  refine ⟨fun s b ok member => returnsMemory_iff ok member, fun calls s b run member => ⟨?_, ?_⟩⟩
  · exact run.invariant (fun _ _ _ ok step => safe_step ok step) (init_ok m readyP readyQ arenas)
  · exact free_returns_nothing readyP readyQ arenas run member

/- The boot heaps with an unused chunk of 64 bytes in front of the chunk that is used. -/
def heapsWithGap : HeapHistory where
  mem a := if a = privateBase then 0x40 else if a = privateBase + 24 then privateBase + 0x40 else
    if a = privateBase + 0x40 then 0x4FC0 else if a = privateBase + 0x48 then 1 else
    if a = privateBase + 0x50 then privateBase + 0x60 else if a = linkedLayout.sharedNsStart then 0x5000 else 0
  heap := bootHeaps.heap
  live := [⟨false, privateBase + 0x60, 24⟩]

theorem heapsWithGap_list : ChunkList heapsWithGap.mem privateBase privateBase.toNat (privateBase.toNat + 0x5000)
    [privateBase, privateBase + 0x40] := by
  have first : heapsWithGap.mem.chunk privateBase = ⟨0x40, 0, 0, privateBase + 0x40⟩ := by decide +kernel
  have second : heapsWithGap.mem.chunk (privateBase + 0x40) = ⟨0x4FC0, 1, privateBase + 0x60, 0⟩ := by
    decide +kernel
  refine ⟨⟨⟨rfl, congrArg Chunk.next first, congrArg Chunk.next second⟩, by decide⟩, ⟨rfl, ?_, ?_⟩, ?_, ?_, by decide⟩
  · show privateBase.toNat + 0x40 = privateBase.toNat + (heapsWithGap.mem.chunk privateBase).size.toNat
    rw [first]
    rfl
  · show privateBase.toNat + (heapsWithGap.mem.chunk privateBase).size.toNat +
      (heapsWithGap.mem.chunk (privateBase + 0x40)).size.toNat = privateBase.toNat + 0x5000
    rw [first, second]
    rfl
  all_goals
    intro x member
    obtain rfl | rfl := List.mem_pair.mp member
  · exact first ▸ by decide
  · exact second ▸ by decide
  · exact fun used => absurd (congrArg Chunk.used first) used
  · exact fun _ => congrArg Chunk.address second

theorem heapsWithGap_shared : ChunkList heapsWithGap.mem linkedLayout.sharedNsStart
    linkedLayout.sharedNsStart.toNat (linkedLayout.sharedNsStart.toNat + 0x5000) [linkedLayout.sharedNsStart] := by
  have only : heapsWithGap.mem.chunk linkedLayout.sharedNsStart = ⟨0x5000, 0, 0, 0⟩ := by decide +kernel
  refine ⟨⟨⟨rfl, congrArg Chunk.next only⟩, by decide⟩, ⟨rfl, ?_⟩, ?_, ?_, by decide⟩
  · show linkedLayout.sharedNsStart.toNat + (heapsWithGap.mem.chunk linkedLayout.sharedNsStart).size.toNat = _
    rw [only]
    rfl
  all_goals
    intro x member
    obtain rfl := List.mem_singleton.mp member
  · exact only ▸ by decide
  · exact fun used => absurd (congrArg Chunk.used only) used

theorem heapsWithGap_top : (heapsWithGap.heap true).top ≤ (heapsWithGap.heap false).listStart := by decide

theorem heapsWithGap_ok : HeapsOk heapsWithGap := by
  have second : heapsWithGap.mem.chunk (privateBase + 0x40) = ⟨0x4FC0, 1, privateBase + 0x60, 0⟩ := by
    decide +kernel
  have placed : Block.Placed heapsWithGap.mem (heapsWithGap.heap false) [privateBase, privateBase + 0x40]
      ⟨false, privateBase + 0x60, 24⟩ := by
    refine Or.inl ⟨privateBase + 0x40, by decide, by decide, ?_⟩
    rw [second]
    decide
  refine ⟨fun shared => ?_, Or.inr heapsWithGap_top, List.pairwise_singleton .., by decide⟩
  cases shared with
  | false =>
    refine ⟨⟨_, heapsWithGap_list, fun b member => ?_⟩, by decide, by decide, by decide⟩
    obtain rfl : b = ⟨false, privateBase + 0x60, 24⟩ := List.mem_singleton.mp (List.mem_filter.mp member).1
    exact placed
  | true =>
    refine ⟨⟨_, heapsWithGap_shared, fun b member => ?_⟩, by decide, by decide, by decide⟩
    obtain rfl : b = ⟨false, privateBase + 0x60, 24⟩ := List.mem_singleton.mp (List.mem_filter.mp member).1
    exact absurd (List.mem_filter.mp member).2 (by decide)

theorem freed_memory_returns_iff_gap : (∀ b ∈ heapsWithGap.live, ReturnsMemory heapsWithGap b) ∧
    ∃ s b, Run safeHeapStep bootHeaps [.malloc false 24] s ∧ b ∈ s.live ∧ ¬ ReturnsMemory s b := by
  obtain ⟨returns, lost⟩ :=
    freed_memory_returns_iff (m := fun _ => 0) linkedLayout_ready.1 linkedLayout_ready.2 (by decide)
  obtain ⟨s, b, run, _, _, member⟩ := first_block
  refine ⟨fun b inGap => (returns _ b heapsWithGap_ok inGap).mpr ?_, s, b, run, member, (lost _ s b run member).2⟩
  obtain rfl := List.mem_singleton.mp inGap
  have unused : (heapsWithGap.mem.chunk privateBase).used = 0 := by decide
  have unclaimed : (heapsWithGap.mem.chunk privateBase).address ≠ privateBase + 0x60 := by decide
  have size : (heapsWithGap.mem.chunk (privateBase + 0x40)).size = 0x4FC0 := by decide +kernel
  refine ⟨[], privateBase, privateBase + 0x40, [], heapsWithGap_list.chain, by decide, ?_, unused, fun y onList => ?_⟩
  · rw [size]
    decide
  · obtain rfl := List.mem_singleton.mp onList
    exact unclaimed

/-- The first block is freed, and its chunk stays used. -/
theorem freed_block_lost : ∃ s b, Run heapStep bootHeaps [.malloc false 24] s ∧ b ∈ s.live ∧ ¬ ReturnsMemory s b := by
  obtain ⟨s, b, run, ok, last, member⟩ := first_block
  refine ⟨s, b, run.mono fun _ _ _ step => step.2, member, fun returns => ?_⟩
  exact not_unusedInFront (last b.shared) (returns.unusedInFront ok member)

end RealmVm
