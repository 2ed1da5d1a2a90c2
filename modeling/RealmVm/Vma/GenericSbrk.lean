import Mathlib.Order.Bounds.Defs
import Mathlib.Order.Interval.Finset.Nat
import RealmVm.Vma.MmapRuns
import RealmVm.Vma.SplitRegions
import RealmVm.Vma.UserPages

/-! `generic_sbrk`: the break of a region moves up, and pages are mapped behind the end of the region. -/
namespace RealmVm

open Lib

/-- The test of the search: the break lies in the region or at its end. -/
def MemRegion.reaches (r : MemRegion) (sbrk : Word) : Bool := r.vaBase ≤ sbrk ∧ sbrk ≤ r.range

abbrev Mapper := Memory → TranslationTables → Word → Word → CInt → Option (CInt × Memory)

/-- The loop at page `i`, with `n` turns left. `false` when it returns `MAP_FAILED`. -/
def growPages (mapper : Mapper) (t : TranslationTables) (ptr curEnd : Word) :
    Nat → Word → AddressSpace → Option (Bool × AddressSpace)
  | 0, _, s => some (true, s)
  | n + 1, i, s =>
    let frame := kframeAllocateRange s.frames 1
    let s := { s with frames := frame.2 }
    if frame.1 = mapFailed then some (false, s)
    else
      match mapper s.memory t (curEnd + i * pageSize4KB) frame.1 (protR ||| protW) with
      | none => none
      | some (ret, memory) =>
        let s := { s with memory := memory }
        if ret.signExtend 64 ≠ mapFailed then
          let region := s.regions ptr
          let regions := s.regions.set ptr { region with vaSize := region.vaSize + pageSize4KB }
          growPages mapper t ptr curEnd n (i + 1) { s with regions := regions }
        else growPages mapper t ptr curEnd n (i + 1) s

/- The value returned, `*sbrk` and the address space. -/
structure SbrkOutcome where
  result : Word
  sbrk : Word
  space : AddressSpace

def genericSbrk (fuel : Nat) (s : AddressSpace) (t : TranslationTables) (head sbrk length : Word) (kernel : CInt) :
    Option SbrkOutcome :=
  let mapper := if kernel ≠ 0 then pageTableMapKernel else pageTableMapUser
  match follow s.regions.next (fun ptr => ptr == 0 || (s.regions ptr).reaches sbrk) fuel head with
  | none => none
  | some ptr =>
    if ptr = 0 then some ⟨-1, sbrk, s⟩
    else
      let newEnd := sbrk + length
      let curEnd := (s.regions ptr).range
      if newEnd < curEnd then some ⟨newEnd, newEnd, s⟩
      else
        let unusedSpace := curEnd - sbrk
        let newEnd := pageUp (length - unusedSpace)
        -- the bound of the loop is itself a turn
        match growPages mapper t ptr curEnd ((newEnd / pageSize4KB).toNat + 1) 0 s with
        | none => none
        | some (done, s) => some (if done then ⟨sbrk + length, sbrk + length, s⟩ else ⟨mapFailed, sbrk, s⟩)

/-- The numbers of the pages between two ends of a region. -/
def pagesBetween (lo hi : Nat) : Finset Nat := Finset.Ico (lo / 4096) (hi / 4096)

/-- What a call that succeeds should leave, when the break lies in the region `r` and `p` are the frames before. -/
structure GrownExactly (t : TranslationTables) (ptrs : List Word) (r sbrk length : Word) (p : Pool Word)
    (s : AddressSpace) (out : SbrkOutcome) (new : Finset Nat) (frame : Nat → Word) : Prop where
  sbrk : out.sbrk = sbrk + length
  limit : IsLeast {e | 4096 ∣ e ∧ max (s.regions r).limit out.sbrk.toNat ≤ e} (out.space.regions r).limit
  pages : new = pagesBetween (s.regions r).limit (out.space.regions r).limit
  mapped : ∀ va, pageNumber va ∈ new →
    walk out.space.memory.word t.pgd va = some (frame (pageNumber va) + BitVec.ofNat 64 (va.toNat % 4096))
  kept : ∀ va, pageNumber va ∉ new → walk out.space.memory.word t.pgd va = walk s.memory.word t.pgd va
  distinct : Set.InjOn frame new
  taken : ∃ q, Tracks out.space.frames q ∧ q.held = p.held ∪ new.image frame ∧ Disjoint p.held (new.image frame)
  others : ∀ q ∈ ptrs, q ≠ r → ∀ va : Word, (s.regions q).vaBase ≤ va → va.toNat < (s.regions q).limit →
    walk out.space.memory.word t.pgd va = walk s.memory.word t.pgd va

/-- What a call that fails should leave. -/
structure NothingGrown (t : TranslationTables) (ptrs : List Word) (sbrk : Word) (p : Pool Word) (s : AddressSpace)
    (out : SbrkOutcome) : Prop where
  sbrk : out.sbrk = sbrk
  sizes : ∀ q ∈ ptrs, (out.space.regions q).vaSize = (s.regions q).vaSize
  mappings : ∀ va, walk out.space.memory.word t.pgd va = walk s.memory.word t.pgd va
  frames : Tracks out.space.frames p

/-- The call returns, and it grows the region exactly or changes nothing. -/
def GrowsExactly (s : AddressSpace) (t : TranslationTables) (head : Word) (ptrs : List Word) (r sbrk length : Word)
    (kernel : CInt) (p : Pool Word) : Prop :=
  ∃ out, Returns (fun fuel => genericSbrk fuel s t head sbrk length kernel) out ∧
    (out.result ≠ mapFailed → ∃ new frame, GrownExactly t ptrs r sbrk length p s out new frame) ∧
    (out.result = mapFailed → NothingGrown t ptrs sbrk p s out)

/-- No page is needed, because the new break lies below the end of the first region that the break lies in;
or there is no frame for the first page. -/
def NoPageTaken (regions : Regions) (ptrs : List Word) (sbrk length : Word) (p : Pool Word) : Prop :=
  (∀ ptr, ptrs.find? (fun q => (regions q).reaches sbrk) = some ptr → sbrk + length < (regions ptr).range) ∨
    p.free = ∅

/-- The end of a region that a break reaches does not wrap. -/
theorem MemRegion.range_of_reaches {r : MemRegion} {sbrk : Word} (short : r.limit ≤ 2 ^ 64)
    (reached : r.reaches sbrk = true) : r.range.toNat = r.limit := by
  have inside := of_decide_eq_true reached
  unfold MemRegion.range at inside ⊢
  unfold MemRegion.limit at short ⊢
  bv_omega

theorem mapper_total (kernel : CInt) (m : Memory) (t : TranslationTables) (va pa : Word) (flags : CInt) :
    ∃ m', (if kernel ≠ 0 then pageTableMapKernel else pageTableMapUser) m t va pa flags = some (0, m') := by
  obtain ⟨near, inside⟩ := tests_pass t va
  split
  · exact ⟨_, by simp only [pageTableMapKernel, pageTableMap, if_neg near, if_neg inside]; rfl⟩
  · exact ⟨_, by simp only [pageTableMapUser, pageTableMap, if_neg near, if_neg inside]; rfl⟩

/-- Every turn takes a frame, until there is none; no region moves. -/
theorem growPages_takes {mapper : Mapper} {t : TranslationTables} (ptr curEnd : Word)
    (total : ∀ m va pa flags, ∃ m', mapper m t va pa flags = some (0, m')) (n : Nat) (i : Word) {s : AddressSpace}
    {p : Pool Word} (tracks : Tracks s.frames p) :
    ∃ done s' q taken, growPages mapper t ptr curEnd n i s = some (done, s') ∧ Tracks s'.frames q ∧
      q.all = p.all ∧ q.free.card + taken = p.free.card ∧ (done = true → taken = n) ∧ (done = false → q.free = ∅) ∧
      ∀ x, (s'.regions x).vaBase = (s.regions x).vaBase := by
  induction n generalizing i s p with
  | zero =>
    exact ⟨true, s, p, 0, rfl, tracks, rfl, rfl, fun _ => rfl, fun again => absurd again (by decide), fun _ => rfl⟩
  | succ n ih =>
    rcases tracks.kframeAllocateRange_one _ rfl with ⟨_, available, after⟩ | ⟨none, empty⟩
    · obtain ⟨m', mapped⟩ := total s.memory (curEnd + i * pageSize4KB) (kframeAllocateRange s.frames 1).1
        (protR ||| protW)
      have given : (kframeAllocateRange s.frames 1).1 ≠ mapFailed := by
        have free := Finset.card_pos.mpr ⟨_, available (Finset.mem_singleton_self _)⟩
        exact (frame_available tracks free).1
      have card := p.card_free_take _ available
      rw [Finset.card_singleton] at card
      have grown : (0 : CInt).signExtend 64 ≠ mapFailed := by decide
      obtain ⟨done, s', q, taken, ran, tracks', all, count, whole, short, bases⟩ :=
        ih (i + 1) (s := ⟨m', (kframeAllocateRange s.frames 1).2,
          s.regions.set ptr { s.regions ptr with vaSize := (s.regions ptr).vaSize + pageSize4KB }⟩) after
      refine ⟨done, s', q, taken + 1, ?_, tracks', all, by omega, fun last => by rw [whole last], short, fun x => ?_⟩
      · simp only [growPages, if_neg given, mapped, if_pos grown]
        exact ran
      · refine (bases x).trans ?_
        cases decEq x ptr with
        | isTrue same => simp [Regions.set, same]
        | isFalse other => simp [Regions.set, other]
    · refine ⟨false, s, p, 0, ?_, tracks, rfl, rfl, fun again => absurd again (by decide), fun _ => empty, fun _ => rfl⟩
      simp only [growPages, none, if_true]

section growing

variable {s : AddressSpace} {head ptr r sbrk length : Word} {ptrs : List Word} {p : Pool Word}

theorem genericSbrk_search (chain : RegionChain s.regions head ptrs) {fuel : Nat} (enough : ptrs.length < fuel) :
    follow s.regions.next (fun ptr => ptr == 0 || (s.regions ptr).reaches sbrk) fuel head =
      some ((ptrs.find? fun q => (s.regions q).reaches sbrk).getD 0) :=
  follow_chain chain _ enough

/-- Of the regions that the break touches the search finds the lowest. -/
theorem found_lowest (order : RegionsInOrder s.regions ptrs) (ends : ∀ q ∈ ptrs, (s.regions q).limit ≤ 2 ^ 64)
    (found : ptrs.find? (fun q => (s.regions q).reaches sbrk) = some ptr) (member : r ∈ ptrs)
    (inside : (s.regions r).vaBase ≤ sbrk ∧ sbrk.toNat ≤ (s.regions r).limit) :
    ptr = r ∨ (s.regions ptr).limit ≤ (s.regions r).vaBase.toNat := by
  obtain ⟨_, pre, post, rfl, before⟩ := List.find?_eq_some_iff_append.mp found
  have parts := List.pairwise_append.mp order
  rcases List.mem_append.mp member with front | rest
  · -- a region in front of the one found would have been found
    have missed := before r front
    have below : (s.regions r).limit ≤ (s.regions ptr).vaBase.toNat := parts.2.2 r front ptr List.mem_cons_self
    have reached : (s.regions r).reaches sbrk = true := by
      unfold MemRegion.limit at below inside
      refine decide_eq_true ⟨inside.1, ?_⟩
      unfold MemRegion.range
      bv_omega
    rw [reached] at missed
    exact absurd missed (by decide)
  · cases List.mem_cons.mp rest with
    | inl same => exact .inl same.symm
    | inr back => exact .inr ((List.pairwise_cons.mp parts.2.1).1 r back)

/-- Below the end of the region the break moves, and nothing else happens. -/
theorem genericSbrk_inside (chain : RegionChain s.regions head ptrs)
    (found : ptrs.find? (fun q => (s.regions q).reaches sbrk) = some ptr)
    (near : sbrk + length < (s.regions ptr).range) (t : TranslationTables) (kernel : CInt) :
    Returns (fun fuel => genericSbrk fuel s t head sbrk length kernel) ⟨sbrk + length, sbrk + length, s⟩ := by
  refine ⟨ptrs.length, fun fuel enough => ?_⟩
  have proper : ptr ≠ 0 := fun null => chain.proper (null ▸ List.mem_of_find?_eq_some found)
  simp only [genericSbrk, genericSbrk_search chain enough, found, Option.getD_some, if_neg proper, if_pos near]

theorem grown_inside (aligned : 4096 ∣ (s.regions ptr).limit) (near : (sbrk + length).toNat < (s.regions ptr).limit)
    (tracks : Tracks s.frames p) (t : TranslationTables) :
    GrownExactly t ptrs ptr sbrk length p s ⟨sbrk + length, sbrk + length, s⟩ ∅ fun _ => 0 where
  sbrk := rfl
  limit := by
    refine ⟨⟨aligned, max_le (Nat.le_refl _) (Nat.le_of_lt near)⟩, ?_⟩
    rintro e ⟨_, covers⟩
    exact (max_le_iff.mp covers).1
  pages := by simp [pagesBetween]
  mapped := fun _ new => absurd new (Finset.notMem_empty _)
  kept := fun _ _ => rfl
  distinct := by simp
  taken := ⟨p, tracks, by simp, by simp⟩
  others := fun _ _ _ _ _ _ => rfl

theorem genericSbrk_outside (chain : RegionChain s.regions head ptrs)
    (found : ptrs.find? (fun q => (s.regions q).reaches sbrk) = none) (t : TranslationTables) (kernel : CInt) :
    Returns (fun fuel => genericSbrk fuel s t head sbrk length kernel) ⟨-1, sbrk, s⟩ := by
  refine ⟨ptrs.length, fun fuel enough => ?_⟩
  simp only [genericSbrk, genericSbrk_search chain enough, found, Option.getD_none, if_true]

/-- Without a frame for the first page nothing changes. -/
theorem genericSbrk_refused (chain : RegionChain s.regions head ptrs)
    (found : ptrs.find? (fun q => (s.regions q).reaches sbrk) = some ptr)
    (far : ¬ sbrk + length < (s.regions ptr).range) (tracks : Tracks s.frames p) (empty : p.free = ∅)
    (t : TranslationTables) (kernel : CInt) :
    Returns (fun fuel => genericSbrk fuel s t head sbrk length kernel) ⟨mapFailed, sbrk, s⟩ := by
  refine ⟨ptrs.length, fun fuel enough => ?_⟩
  have proper : ptr ≠ 0 := fun null => chain.proper (null ▸ List.mem_of_find?_eq_some found)
  have none : kframeAllocateRange s.frames 1 = (mapFailed, s.frames) := by
    rcases tracks.kframeAllocateRange_one _ rfl with ⟨free, _⟩ | ⟨failed, _⟩
    · exact absurd (empty ▸ free) (Finset.notMem_empty _)
    · exact failed
  simp only [genericSbrk, genericSbrk_search chain enough, found, Option.getD_some, if_neg proper, if_neg far,
    growPages, none, if_true]
  rfl

/-- Otherwise the call takes at least one frame, and one more than there are pages when it succeeds. -/
theorem genericSbrk_takes (chain : RegionChain s.regions head ptrs)
    (found : ptrs.find? (fun q => (s.regions q).reaches sbrk) = some ptr)
    (far : ¬ sbrk + length < (s.regions ptr).range) (tracks : Tracks s.frames p) (free : p.free ≠ ∅)
    (t : TranslationTables) (kernel : CInt) :
    ∃ out q taken, Returns (fun fuel => genericSbrk fuel s t head sbrk length kernel) out ∧
      Tracks out.space.frames q ∧ q.all = p.all ∧ q.free.card + taken = p.free.card ∧ 0 < taken ∧
      (out.result ≠ mapFailed → out.sbrk = sbrk + length ∧
        taken = (pageUp (length - ((s.regions ptr).range - sbrk)) / pageSize4KB).toNat + 1) ∧
      ∀ x, (out.space.regions x).vaBase = (s.regions x).vaBase := by
  have proper : ptr ≠ 0 := fun null => chain.proper (null ▸ List.mem_of_find?_eq_some found)
  have some := Finset.card_pos.mpr (Finset.nonempty_iff_ne_empty.mpr free)
  obtain ⟨done, s', q, taken, ran, tracks', all, count, whole, short, bases⟩ :=
    growPages_takes ptr (s.regions ptr).range (mapper_total kernel · t)
      ((pageUp (length - ((s.regions ptr).range - sbrk)) / pageSize4KB).toNat + 1) 0 tracks
  refine ⟨if done then ⟨sbrk + length, sbrk + length, s'⟩ else ⟨mapFailed, sbrk, s'⟩, q, taken,
    ⟨ptrs.length, fun fuel enough => ?_⟩, ?_⟩
  · simp only [genericSbrk, genericSbrk_search chain enough, found, Option.getD_some, if_neg proper, if_neg far, ran]
  · cases done with
    | true => exact ⟨tracks', all, count, by rw [whole rfl]; omega, fun _ => ⟨rfl, whole rfl⟩, bases⟩
    | false =>
      have none : q.free.card = 0 := Finset.card_eq_zero.mpr (short rfl)
      exact ⟨tracks', all, count, by omega, fun success => absurd rfl success, bases⟩

/-- The frames of the new pages are as many as the allocator has lost. -/
theorem GrownExactly.count {t : TranslationTables} {out : SbrkOutcome} {new : Finset Nat} {frame : Nat → Word}
    (grown : GrownExactly t ptrs r sbrk length p s out new frame) {q : Pool Word} (tracks : Tracks out.space.frames q)
    (all : q.all = p.all) {taken : Nat} (count : q.free.card + taken = p.free.card) :
    taken = (out.space.regions r).limit / 4096 - (s.regions r).limit / 4096 := by
  obtain ⟨q', tracks', held, apart⟩ := grown.taken
  have pages : new.card = (out.space.regions r).limit / 4096 - (s.regions r).limit / 4096 := by
    rw [grown.pages, pagesBetween, Nat.card_Ico]
  have frames : q'.held.card = p.held.card + new.card := by
    rw [held, Finset.card_union_of_disjoint apart, Finset.card_image_of_injOn grown.distinct]
  have before := p.card_free_add_held
  have after := q'.card_free_add_held
  have same : q'.all = p.all := by rw [tracks'.all_eq, ← tracks.all_eq, all]
  have free : q'.free.card = q.free.card := by rw [← tracks'.counted, ← tracks.counted]
  rw [same] at after
  omega

/-- From the end of the lowest region the pages of the loop, without the last, are enough. -/
theorem pages_enough (aligned : (s.regions ptr).limit % 4096 = 0) (short : (s.regions ptr).limit ≤ 2 ^ 64)
    (reached : (s.regions ptr).reaches sbrk = true) (far : ¬ sbrk + length < (s.regions ptr).range)
    (fits : sbrk.toNat + length.toNat < 2 ^ 64) {lo hi : Nat} (above : (s.regions ptr).limit ≤ lo)
    (multiple : lo % 4096 = 0) (least : IsLeast {e | 4096 ∣ e ∧ max lo (sbrk + length).toNat ≤ e} hi)
    (small : (s.regions ptr).limit = 0 → hi < 2 ^ 64) :
    hi / 4096 - lo / 4096 ≤ (pageUp (length - ((s.regions ptr).range - sbrk)) / pageSize4KB).toNat := by
  have inside := of_decide_eq_true reached
  have limit := MemRegion.range_of_reaches short reached
  have grown : (length - ((s.regions ptr).range - sbrk)).toNat =
      sbrk.toNat + length.toNat - (s.regions ptr).limit := by bv_omega
  have sum : (sbrk + length).toNat = sbrk.toNat + length.toNat := by bv_omega
  have beyond : (s.regions ptr).limit ≤ sbrk.toNat + length.toNat := by bv_omega
  obtain ⟨⟨whole, covers⟩, lowest⟩ := least
  rw [sum] at covers
  cases Nat.lt_or_ge ((length - ((s.regions ptr).range - sbrk)).toNat + 4095) (2 ^ 64) with
  | inl room =>
    rw [pageUp_count _ room, grown]
    have highest : hi ≤ max lo ((s.regions ptr).limit +
        (sbrk.toNat + length.toNat - (s.regions ptr).limit + 4095) / 4096 * 4096) := by
      refine lowest ⟨?_, ?_⟩
      · omega
      · omega
    omega
  | inr wrapped =>
    -- the region ends at 0, and a page boundary at or above the new break is no 64-bit number
    have nothing : (s.regions ptr).limit = 0 := by omega
    have bounded := small nothing
    omega

end growing

/-- A call that takes a page is not exact: it takes one too many, or keeps those it has when the frames run out. -/
theorem not_growsExactly {s : AddressSpace} {head : Word} {ptrs : List Word} {p : Pool Word}
    (chain : RegionChain s.regions head ptrs) (order : RegionsInOrder s.regions ptrs)
    (ends : ∀ q ∈ ptrs, (s.regions q).limit % 4096 = 0 ∧ (s.regions q).limit ≤ 2 ^ 64) (tracks : Tracks s.frames p)
    {ptr r sbrk length : Word} (found : ptrs.find? (fun q => (s.regions q).reaches sbrk) = some ptr) (member : r ∈ ptrs)
    (inside : (s.regions r).vaBase ≤ sbrk ∧ sbrk.toNat ≤ (s.regions r).limit)
    (fits : sbrk.toNat + length.toNat < 2 ^ 64) (far : ¬ sbrk + length < (s.regions ptr).range) (free : p.free ≠ ∅)
    (t : TranslationTables) (kernel : CInt) : ¬ GrowsExactly s t head ptrs r sbrk length kernel p := by
  obtain ⟨reached, _⟩ := List.find?_eq_some_iff_append.mp found
  obtain ⟨aligned, short⟩ := ends ptr (List.mem_of_find?_eq_some found)
  have lowest := found_lowest order (fun q hq => (ends q hq).2) found member inside
  have limit := MemRegion.range_of_reaches short reached
  rintro ⟨out, returned, success, failure⟩
  obtain ⟨out', q, taken, returned', tracks', all, count, some, grows, bases⟩ :=
    genericSbrk_takes chain found far tracks free t kernel
  obtain rfl := returned.unique returned'
  by_cases failed : out.result = mapFailed
  · have same := (failure failed).frames.counted.symm.trans tracks'.counted
    omega
  · obtain ⟨new, frame, grown⟩ := success failed
    obtain ⟨moved, pages⟩ := grows failed
    have number := grown.count tracks' all count
    have least := grown.limit
    rw [moved] at least
    have above : (s.regions ptr).limit ≤ (s.regions r).limit := by
      rcases lowest with rfl | below
      · exact Nat.le_refl _
      · exact Nat.le_trans below (Nat.le_add_right _ _)
    have enough := pages_enough aligned short reached far fits above (ends r member).1 least fun nothing => by
      have touched := (of_decide_eq_true reached).2
      have low := inside.1
      have first : (s.regions r).vaBase.toNat = 0 := by bv_omega
      rw [MemRegion.limit, bases r, first, Nat.zero_add]
      exact (out.space.regions r).vaSize.isLt
    omega

/-- A call is exact only as long as it takes no page. -/
theorem genericSbrk_exact_iff {s : AddressSpace} {head : Word} {ptrs : List Word} {p : Pool Word}
    (chain : RegionChain s.regions head ptrs) (order : RegionsInOrder s.regions ptrs)
    (ends : ∀ q ∈ ptrs, (s.regions q).limit % 4096 = 0 ∧ (s.regions q).limit ≤ 2 ^ 64) (tracks : Tracks s.frames p)
    {r sbrk length : Word} (member : r ∈ ptrs)
    (inside : (s.regions r).vaBase ≤ sbrk ∧ sbrk.toNat ≤ (s.regions r).limit)
    (fits : sbrk.toNat + length.toNat < 2 ^ 64) (t : TranslationTables) (kernel : CInt) :
    GrowsExactly s t head ptrs r sbrk length kernel p ↔ NoPageTaken s.regions ptrs sbrk length p := by
  have unchanged : ∀ result, NothingGrown t ptrs sbrk p s ⟨result, sbrk, s⟩ :=
    fun result => ⟨rfl, fun _ _ => rfl, fun _ => rfl, tracks⟩
  cases found : ptrs.find? fun q => (s.regions q).reaches sbrk with
  | none =>
    refine iff_of_true ⟨_, genericSbrk_outside chain found t kernel, fun success => absurd rfl success,
      fun _ => unchanged _⟩ (.inl fun ptr hit => ?_)
    rw [found] at hit
    cases hit
  | some ptr =>
    obtain ⟨reached, _⟩ := List.find?_eq_some_iff_append.mp found
    obtain ⟨aligned, short⟩ := ends ptr (List.mem_of_find?_eq_some found)
    have lowest := found_lowest order (fun q hq => (ends q hq).2) found member inside
    have limit := MemRegion.range_of_reaches short reached
    have only : NoPageTaken s.regions ptrs sbrk length p ↔ sbrk + length < (s.regions ptr).range ∨ p.free = ∅ := by
      rw [NoPageTaken, found]
      simp
    rw [only]
    by_cases near : sbrk + length < (s.regions ptr).range
    · obtain rfl : ptr = r := by
        refine lowest.resolve_right fun above => ?_
        have low := inside.1
        bv_omega
      refine iff_of_true ⟨_, genericSbrk_inside chain found near t kernel, fun _ => ⟨∅, fun _ => 0, ?_⟩, ?_⟩ (.inl near)
      · exact grown_inside (Nat.dvd_of_mod_eq_zero aligned) (by bv_omega) tracks t
      · intro failed
        have top : sbrk + length = mapFailed := failed
        rw [top] at near
        have most : mapFailed.toNat = 2 ^ 64 - 1 := rfl
        bv_omega
    · cases decEq p.free ∅ with
      | isTrue empty =>
        exact iff_of_true ⟨_, genericSbrk_refused chain found near tracks empty t kernel,
          fun success => absurd rfl success, fun _ => unchanged _⟩ (.inr empty)
      | isFalse free =>
        exact iff_of_false (not_growsExactly chain order ends tracks found member inside fits near free t kernel)
          (not_or.mpr ⟨near, free⟩)

/- One region of two pages, with the break at its second page, and two free frames. -/
def heapSpace : AddressSpace := ⟨bareMemory, bareFramesInit, fun _ => ⟨0x400000, 0x2000, 3, 1, 0, 1, 0⟩⟩

def heapFrames : Pool Word := Pool.empty (arena bareFramesInit)

theorem heapSpace_tracks : Tracks heapSpace.frames heapFrames :=
  kframeAllocatorInit_tracks bareFrames _ 2 0x40000000 0x2000 (by decide) (by decide) (by decide) (by decide)

theorem heapSpace_chain : RegionChain heapSpace.regions 0x10 [0x10] := ⟨⟨rfl, rfl⟩, by decide⟩

theorem heapSpace_limit (q : Word) : (heapSpace.regions q).limit = 0x402000 := by
  simp [MemRegion.limit, heapSpace]

/-- Half a page of the two: no page is needed. -/
theorem genericSbrk_exact_iff_half : GrowsExactly heapSpace bareTables 0x10 [0x10] 0x10 0x401000 0x800 0 heapFrames ↔
    NoPageTaken heapSpace.regions [0x10] 0x401000 0x800 heapFrames :=
  genericSbrk_exact_iff heapSpace_chain (List.pairwise_singleton _ _)
    (fun q _ => by rw [heapSpace_limit q]; decide) heapSpace_tracks List.mem_cons_self (by decide) (by decide)
    bareTables 0

/-- The rest of the region exactly: a page is mapped behind it all the same. -/
theorem genericSbrk_exact_fit :
    ¬ GrowsExactly heapSpace bareTables 0x10 [0x10] 0x10 0x401000 0x1000 0 heapFrames := by
  have some : heapFrames.free ≠ ∅ := by
    have count := heapSpace_tracks.counted
    intro none
    rw [none] at count
    exact absurd count (by decide)
  have found : [0x10].find? (fun q => (heapSpace.regions q).reaches 0x401000) = Option.some 0x10 := rfl
  have far : ¬ (0x401000 : Word) + 0x1000 < (heapSpace.regions 0x10).range := by decide
  exact not_growsExactly heapSpace_chain (List.pairwise_singleton _ _) (fun q _ => by rw [heapSpace_limit q]; decide)
    heapSpace_tracks found List.mem_cons_self (by decide) (by decide) far some bareTables 0

end RealmVm
