import RealmVm.Heap.Blocks

/-! One `_malloc`, one `_free`, one store of a client. -/
namespace RealmVm

open Lib

variable {s : HeapHistory} {shared : Bool} {size : Word}

/-- Some chunk on the list is unused and long enough. -/
def HeapHistory.Serves (s : HeapHistory) (shared : Bool) (size : Word) : Prop :=
  ∃ xs, Chain s.mem.next 0 (s.heap shared).head xs ∧ ∃ x ∈ xs, fits s.mem (allocSize size) x = true

/-- The break, moved up by the request, is not below the end of the list's part or of a
live block, and as much again fits into the heap. -/
structure HeapHistory.Grows (s : HeapHistory) (shared : Bool) (size : Word) : Prop where
  pastList : (s.heap shared).listEnd ≤ (s.heap shared).brk.sbrk.toNat + (allocSize size).toNat
  pastLive : ∀ b ∈ s.live, b.shared = shared → b.stop ≤ (s.heap shared).brk.sbrk.toNat + (allocSize size).toNat
  room : (s.heap shared).brk.sbrk.toNat + 2 * (allocSize size).toNat ≤ (s.heap shared).top

/-- A block of one heap that is apart from that heap's blocks joins the live ones. -/
theorem HeapsOk.join (ok : HeapsOk s) {m' : HeapMemory} {h' : Heap} {p : Word} (head : h'.head = (s.heap shared).head)
    (top : h'.top = (s.heap shared).top) (positive : 0 < size.toNat)
    (own : HeapOk m' h' (⟨shared, p, size⟩ :: blocksOf s.live shared))
    (apart : ∀ b ∈ blocksOf s.live shared, Block.Apart ⟨shared, p, size⟩ b)
    (frame : ∀ c, Outside (s.heap shared).listStart (s.heap shared).top c → m'.chunk c = s.mem.chunk c) :
    HeapsOk ⟨m', Function.update s.heap shared h', ⟨shared, p, size⟩ :: s.live⟩ := by
  have start : h'.listStart = (s.heap shared).listStart := congrArg BitVec.toNat head
  have bounds := own.bounds List.mem_cons_self
  rw [start, top] at bounds
  apply ok.change head top
  · rwa [blocksOf_cons ⟨shared, p, size⟩]
  · exact frame
  · exact fun b member different => Block.older member different
  · refine List.pairwise_cons.mpr ⟨fun b member => ?_, ok.apart⟩
    cases decEq b.shared shared with
    | isTrue same => exact apart b (List.mem_filter.mpr ⟨member, decide_eq_true same⟩)
    | isFalse different => exact ok.apart_of_ne member different bounds.1 bounds.2
  · intro b member
    cases List.mem_cons.mp member with
    | inl new => exact new ▸ positive
    | inr old => exact ok.sized b old

theorem malloc_step_served (ok : HeapsOk s) (positive : 0 < size.toNat) (small : size.toNat < 2 ^ 62)
    (serves : s.Serves shared size) :
    ∃ p m' h', Returns (fun fuel => malloc fuel shared s.mem (s.heap shared) size) (p, m', h') ∧ p ≠ 0 ∧
      HeapsOk ⟨m', Function.update s.heap shared h', ⟨shared, p, size⟩ :: s.live⟩ := by
  obtain ⟨⟨xs, list, placed⟩, fits, noWrap, broken⟩ := ok.each shared
  obtain ⟨xs', chain, served⟩ := serves
  obtain rfl := list.chain.unique chain
  obtain ⟨x, member, unused, m', tail, ran, allocated⟩ := malloc_served list positive small served shared
  obtain ⟨⟨ys, after, all, _⟩, used, room, others, frame⟩ := allocated
  have bounds := list.bounds member
  have header := list.header x member
  have below := list.below
  have kept := after.bounds (all x member)
  have place := list.behind_header member
  -- the blocks of this heap stand in other chunks, or behind the list
  have older : ∀ b ∈ blocksOf s.live shared,
      b.Placed m' { s.heap shared with tail := tail } ys ∧ Block.Apart ⟨shared, x + sizeofMemChunk, size⟩ b := by
    intro b hb
    cases placed b hb with
    | inl inList =>
      obtain ⟨c, memberC, address, usedC, roomC⟩ := inList
      have other : c ≠ x := fun same => usedC (same ▸ unused)
      have same := others c memberC other
      have extents := after.extents (all x member) (all c memberC) other
      have boundC := (list.bounds memberC).2
      have placeC : b.address.toNat = c.toNat + 32 := address ▸ list.behind_header memberC
      rw [same] at extents
      refine ⟨Or.inl ⟨c, all c memberC, address, by rw [same]; exact ⟨usedC, roomC⟩⟩, ?_⟩
      simp only [Block.Apart, Block.start, Block.stop, place, placeC]
      omega
    | inr behind =>
      have start := behind.1
      refine ⟨Or.inr behind, Or.inl ?_⟩
      simp only [Block.stop, place]
      exact Nat.le_trans (by omega) (Nat.le_trans kept.2 start)
  refine ⟨x + sizeofMemChunk, m', { s.heap shared with tail := tail }, ⟨xs.length, fun fuel more => ran fuel more⟩,
    by bv_omega, ok.join rfl rfl positive ⟨⟨ys, after, fun b hb => ?_⟩, fits, noWrap, broken⟩
      (fun b hb => (older b hb).2) fun c out => frame c ⟨out.1, ?_⟩⟩
  · cases List.mem_cons.mp hb with
    | inl new => exact new ▸ Or.inl ⟨x, all x member, rfl, used, room⟩
    | inr old => exact (older b old).1
  · exact out.2.imp_right fun behind => Nat.le_trans fits behind

/-- The header that the break gives is behind the list and inside the heap. -/
theorem HeapHistory.Grows.header (grows : s.Grows shared size) (positive : 0 < size.toNat) (small : size.toNat < 2 ^ 62)
    (noWrap : (s.heap shared).top < 2 ^ 64) :
    ((s.heap shared).brk.sbrk + allocSize size).toNat = (s.heap shared).brk.sbrk.toNat + (allocSize size).toNat ∧
      (s.heap shared).listEnd ≤ ((s.heap shared).brk.sbrk + allocSize size).toNat ∧
      ((s.heap shared).brk.sbrk + allocSize size).toNat + (allocSize size).toNat ≤ (s.heap shared).top ∧
      40 ≤ (allocSize size).toNat := by
  have alloc := allocSize_toNat small
  have past := grows.pastList
  have room := grows.room
  have place : ((s.heap shared).brk.sbrk + allocSize size).toNat =
      (s.heap shared).brk.sbrk.toNat + (allocSize size).toNat := by
    bv_omega
  exact ⟨place, by omega, by omega, by omega⟩

theorem HeapHistory.Grows.apart (grows : s.Grows shared size) (positive : 0 < size.toNat) (small : size.toNat < 2 ^ 62)
    (noWrap : (s.heap shared).top < 2 ^ 64) {xs : List Word}
    (list : ChunkList s.mem (s.heap shared).head (s.heap shared).listStart (s.heap shared).listEnd xs) :
    (∀ x ∈ xs, HeadersApart ((s.heap shared).brk.sbrk + allocSize size) x) ∧
      ∀ c, Outside (s.heap shared).listStart (s.heap shared).top c →
        HeadersApart ((s.heap shared).brk.sbrk + allocSize size) c := by
  obtain ⟨_, past, room, long⟩ := grows.header positive small noWrap
  constructor
  · intro x hx
    have bounds := (list.bounds hx).2
    have header := list.header x hx
    exact (headersApart_of_le (by omega) (by omega)).symm
  · rintro c ⟨fits, before | after⟩
    · have start : (s.heap shared).listStart ≤ (s.heap shared).listEnd := Nat.le_add_right _ _
      exact (headersApart_of_le (by omega) (by omega)).symm
    · exact headersApart_of_le (by omega) fits

theorem malloc_step_grown (ok : HeapsOk s) (positive : 0 < size.toNat) (small : size.toNat < 2 ^ 62)
    (unserved : ¬ s.Serves shared size) (grows : s.Grows shared size) :
    ∃ p m' h', Returns (fun fuel => malloc fuel shared s.mem (s.heap shared) size) (p, m', h') ∧ p ≠ 0 ∧
      HeapsOk ⟨m', Function.update s.heap shared h', ⟨shared, p, size⟩ :: s.live⟩ := by
  obtain ⟨⟨xs, list, placed⟩, fits, noWrap, broken⟩ := ok.each shared
  obtain ⟨header, _, _, _⟩ := grows.header positive small noWrap
  have apart := grows.apart positive small noWrap list
  obtain ⟨pastList, pastLive, room⟩ := grows
  have alloc := allocSize_toNat small
  have none : ∀ x ∈ xs, RealmVm.fits s.mem (allocSize size) x = false := fun x hx =>
    Bool.eq_false_iff.mpr fun fit => unserved ⟨xs, list.chain, x, hx, fit⟩
  have within : (s.heap shared).brk.sbrk.toNat + (allocSize size).toNat ≤ (s.heap shared).top := by omega
  obtain ⟨m', tail, ran, frame⟩ := malloc_grown list positive small none shared broken within noWrap
  -- the header is behind the list, the block behind the header
  have place : ((s.heap shared).brk.sbrk + allocSize size + sizeofMemChunk).toNat =
      (s.heap shared).brk.sbrk.toNat + (allocSize size).toNat + 32 := by
    unfold sizeofMemChunk
    bv_omega
  have same : ∀ x ∈ xs, m'.chunk x = s.mem.chunk x := fun x hx => frame x (apart.1 x hx)
  refine ⟨_, m', _, ⟨xs.length, ran⟩, by bv_omega,
    ok.join rfl rfl positive ⟨⟨xs, list.frame same, fun b hb => ?_⟩, fits, noWrap, ?_⟩ (fun b hb => ?_) fun c out => ?_⟩
  · cases List.mem_cons.mp hb with
    | inl new =>
      refine new ▸ Or.inr ?_
      simp only [Block.start, Block.stop, place]
      exact ⟨Nat.le_trans pastList (Nat.le_add_right _ _), Nat.le_trans (by omega) room⟩
    | inr old =>
      cases placed b old with
      | inl inList =>
        obtain ⟨c, member, rest⟩ := inList
        exact Or.inl ⟨c, member, by rwa [same c member]⟩
      | inr behind => exact Or.inr behind
  · bv_omega
  · obtain ⟨inLive, mine⟩ := List.mem_filter.mp hb
    have before := pastLive b inLive (of_decide_eq_true mine)
    refine Or.inr ?_
    simp only [Block.start, place]
    omega
  · exact frame c (apart.2 c out)

/-- `_malloc` where the list or the break can serve. -/
theorem malloc_step (ok : HeapsOk s) (positive : 0 < size.toNat) (small : size.toNat < 2 ^ 62)
    (safe : s.Serves shared size ∨ s.Grows shared size) :
    ∃ p m' h', Returns (fun fuel => malloc fuel shared s.mem (s.heap shared) size) (p, m', h') ∧ p ≠ 0 ∧
      HeapsOk ⟨m', Function.update s.heap shared h', ⟨shared, p, size⟩ :: s.live⟩ := by
  cases Classical.em (s.Serves shared size) with
  | inl serves => exact malloc_step_served ok positive small serves
  | inr unserved => exact malloc_step_grown ok positive small unserved (safe.resolve_left unserved)

theorem Block.Apart.symm {b c : Block} (apart : b.Apart c) : c.Apart b := Or.symm apart

theorem Block.Apart.ne {b c : Block} (apart : b.Apart c) (left : 0 < b.size.toNat) (right : 0 < c.size.toNat) :
    b.address ≠ c.address := by
  intro same
  unfold Block.Apart Block.start Block.stop at apart
  rw [same] at apart
  omega

/-- `_free` of a live block, with the heap it came from. -/
theorem free_step (ok : HeapsOk s) {b : Block} (member : b ∈ s.live) :
    ∃ m', Returns (fun fuel => free fuel s.mem (s.heap b.shared) b.address) m' ∧
      HeapsOk ⟨m', s.heap, s.live.erase b⟩ := by
  obtain ⟨⟨xs, list, placed⟩, fits, noWrap, broken⟩ := ok.each b.shared
  obtain ⟨m', xs', ran, after, kept, frame⟩ := free_spec list b.address
  have perm := List.perm_cons_erase member
  have apart := (perm.pairwise_iff Block.Apart.symm).mp ok.apart
  obtain ⟨fromB, rest⟩ := List.pairwise_cons.mp apart
  have old : ∀ c ∈ s.live.erase b, c ∈ s.live := fun c hc => List.mem_of_mem_erase hc
  have changed : HeapsOk ⟨m', Function.update s.heap b.shared (s.heap b.shared), s.live.erase b⟩ := by
    refine ok.change rfl rfl ⟨⟨xs', after, fun c hc => ?_⟩, fits, noWrap, broken⟩
      (fun c out => frame c ⟨out.1, out.2.imp_right (Nat.le_trans fits)⟩) (fun c hc _ => old c hc) rest
      fun c hc => ok.sized c (old c hc)
    obtain ⟨left, mine⟩ := List.mem_filter.mp hc
    have others := (fromB c left).symm.ne (ok.sized c (old c left)) (ok.sized b member)
    cases placed c (List.mem_filter.mpr ⟨old c left, mine⟩) with
    | inl inList =>
      obtain ⟨z, memberZ, address, used, room⟩ := inList
      obtain ⟨stays, same⟩ := kept z memberZ used (address ▸ others)
      exact Or.inl ⟨z, stays, address, by rw [same]; exact ⟨used, room⟩⟩
    | inr behind => exact Or.inr behind
  rw [Function.update_eq_self] at changed
  exact ⟨m', ⟨xs.length, ran⟩, changed⟩

/-- A live block has no byte in common with a header on one of the lists. -/
theorem HeapsOk.clear (ok : HeapsOk s) {b : Block} (member : b ∈ s.live) {shared : Bool} {xs : List Word}
    (chain : Chain s.mem.next 0 (s.heap shared).head xs) {c : Word} (onList : c ∈ xs) :
    b.stop ≤ c.toNat ∨ c.toNat + 32 ≤ b.start := by
  obtain ⟨⟨ys, list, placed⟩, fits, noWrap, broken⟩ := ok.each shared
  obtain rfl := chain.unique list.chain
  have bounds := list.bounds onList
  have header := list.header c onList
  cases decEq b.shared shared with
  | isTrue same =>
    cases placed b (List.mem_filter.mpr ⟨member, decide_eq_true same⟩) with
    | inl inList =>
      obtain ⟨z, memberZ, address, used, room⟩ := inList
      have boundZ := list.bounds memberZ
      have below := list.below
      have place : b.address.toNat = z.toNat + 32 := address ▸ list.behind_header memberZ
      unfold Block.stop Block.start
      cases decEq c z with
      | isTrue here =>
        rw [here]
        omega
      | isFalse other =>
        have extents := list.extents memberZ onList other
        omega
    | inr behind => omega
  | isFalse different =>
    have own := (ok.each b.shared).bounds (mem_blocksOf member)
    have separate := ok.separate different
    omega

end RealmVm
