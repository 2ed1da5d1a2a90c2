import RealmVm.Lib.Tiling
import RealmVm.Vma.RegionLists

/-! Regions split, joined and extended in place. What `kmalloc` returns for a new region is an argument; the
region that `coalesce_vma` gives back to the heap stays as it is here. -/
namespace RealmVm

open Lib

def Regions.set (regions : Regions) (p : Word) (r : MemRegion) : Regions := Function.update regions p r

/-- The rest of the region from `address` on as a region of its own, which nothing links to. -/
def splitMmapRegion (regions : Regions) (src address new : Word) : Word × Regions :=
  if src = 0 then (0, regions)
  else if new = 0 then (0, regions)
  else
    let size := address - (regions src).vaBase
    let copied := regions.set new { regions src with vaSize := size, vaBase := address }
    (new, copied.set src { copied src with vaSize := (copied src).vaSize - size })

def canExtendVma (regions : Regions) (src finalSize : Word) : Bool :=
  if src = 0 then false
  else
    let here := regions src
    if here.next = 0 then true
    else if (regions here.next).isMapped = 1 then false
    else if finalSize + here.vaBase = 0 then true
    else here.vaBase + finalSize ≤ (regions here.next).range

def extendVma (regions : Regions) (target finalSize : Word) : Word × Regions :=
  if target = 0 then (0, regions)
  else
    let here := regions target
    if finalSize ≤ here.vaSize then (target, regions)
    else if here.next ≠ 0 then
      let next := regions here.next
      if next.vaSize + here.vaSize ≤ finalSize then
        let extension := finalSize - here.vaSize
        let moved := regions.set here.next
          { next with vaSize := next.vaSize - extension, vaBase := next.vaBase + extension }
        (0, moved.set target { moved target with vaSize := (moved target).vaSize + extension })
      -- what was extended is not returned
      else (0, regions)
    else (target, regions.set target { here with vaSize := finalSize })

def coalesceVma (regions : Regions) (start : Word) : Word × Regions :=
  if start = 0 then (0, regions)
  else
    let here := regions start
    if here.next = 0 then (start, regions)
    else
      let next := regions here.next
      (start, regions.set start { here with vaSize := next.range - here.vaBase, next := next.next })

/-- `second` and `third` are the regions that `kmalloc` gives, where it is called. -/
def splitVma (regions : Regions) (cwr address finalSize second third : Word) : Word × Regions :=
  if cwr = 0 then (0, regions)
  else
    let here := regions cwr
    if address < here.vaBase then (0, regions)
    else if here.vaSize ≤ finalSize then (cwr, regions)
    else if here.vaBase = address then
      if second = 0 then (0, regions)
      else
        let front := regions.set cwr { here with next := second, vaSize := finalSize }
        (cwr, front.set second { here with vaSize := here.vaSize - finalSize, vaBase := address + finalSize })
    else if address + finalSize = here.range then
      if second = 0 then (0, regions)
      else
        let front := regions.set cwr { here with next := second, vaSize := here.vaSize - finalSize }
        (second, front.set second { here with vaSize := finalSize, vaBase := address })
    else
      let first := splitMmapRegion regions cwr address second
      if first.1 = 0 then (0, first.2)
      else
        let last := splitMmapRegion first.2 first.1 (address + finalSize) third
        if last.1 = 0 then (0, (coalesceVma last.2 cwr).2) else last

/-- The pieces lie in the place of `cwr`, fill its addresses, and one of them is the request. -/
structure Partitioned (regions : Regions) (head : Word) (pre : List Word) (cwr : Word) (post : List Word)
    (address finalSize : Word) (result : Word × Regions) (pieces : List Word) : Prop where
  few : pieces.length ≤ 3
  found : result.1 ∈ pieces
  requested : (result.2 result.1).vaBase = address ∧ (result.2 result.1).vaSize = finalSize
  list : RegionChain result.2 head (pre ++ pieces ++ post)
  tiles : Tiles (fun p => (result.2 p).vaBase.toNat) (fun p => (result.2 p).vaSize.toNat)
    (regions cwr).vaBase.toNat pieces (regions cwr).limit
  others : ∀ x ∈ pre ++ post, result.2 x = { regions x with next := (result.2 x).next }

section splitting

variable {regions : Regions} {head cwr address finalSize second third : Word} {pre post : List Word}

/-- The region keeps its front, and what is linked in behind it has the rest. -/
theorem partitioned_two (chain : RegionChain regions head (pre ++ cwr :: post)) (fresh : second ∉ pre ++ cwr :: post)
    (proper : second ≠ 0) {size : Word} (inside : size.toNat ≤ (regions cwr).vaSize.toNat) {base : Word}
    (behind : base.toNat = (regions cwr).vaBase.toNat + size.toNat) {result : Word} (found : result ∈ [cwr, second])
    {split : Regions} (made : split = (regions.set cwr { regions cwr with next := second, vaSize := size }).set second
      { regions cwr with vaSize := (regions cwr).vaSize - size, vaBase := base })
    (requested : (split result).vaBase = address ∧ (split result).vaSize = finalSize) :
    Partitioned regions head pre cwr post address finalSize (result, split) [cwr, second] := by
  have other : second ≠ cwr := fun same => fresh (same ▸ by simp)
  have front : split cwr = { regions cwr with next := second, vaSize := size } := by
    rw [made]
    simp [Regions.set, Ne.symm other]
  have back : split second = { regions cwr with vaSize := (regions cwr).vaSize - size, vaBase := base } := by
    rw [made]
    simp [Regions.set]
  have kept : ∀ x ∈ pre ++ post, split x = regions x := by
    intro x member
    have notNew : x ≠ second := by
      rintro rfl
      apply fresh
      simp only [List.mem_append, List.mem_cons] at member ⊢
      tauto
    have notHere : x ≠ cwr := chain.apart member
    rw [made]
    simp [Regions.set, notNew, notHere]
  have linked : RegionChain split head (pre ++ cwr :: second :: post) := by
    refine chain.insertAfter fresh proper ?_ ?_ fun x member => ?_
    · simp [Regions.next, back]
    · simp [Regions.next, front]
    · simp [Regions.next, kept x member]
  have whole : ((regions cwr).vaSize - size).toNat = (regions cwr).vaSize.toNat - size.toNat := by bv_omega
  refine ⟨Nat.le_succ 2, found, requested, by simpa using linked, ?_, fun x member => ?_⟩
  · simp only [Tiles, front, back, behind, whole, MemRegion.limit, true_and]
    omega
  · exact kept x member ▸ rfl

/-- In the middle of a region the third piece, which starts behind the request, is returned. -/
theorem splitVma_middle (null : cwr ≠ 0) (proper : second ≠ 0) (proper' : third ≠ 0)
    (apart : third ≠ second) (low : (regions cwr).vaBase.toNat < address.toNat)
    (high : address.toNat + finalSize.toNat < (regions cwr).limit) (fits : (regions cwr).limit ≤ 2 ^ 64) :
    (splitVma regions cwr address finalSize second third).1 = third ∧
      ((splitVma regions cwr address finalSize second third).2 third).vaBase = address + finalSize := by
  unfold MemRegion.limit at high fits
  have notBelow : ¬ address < (regions cwr).vaBase := by bv_omega
  have notWhole : ¬ (regions cwr).vaSize ≤ finalSize := by bv_omega
  have notFront : (regions cwr).vaBase ≠ address := by bv_omega
  have notBack : address + finalSize ≠ (regions cwr).range := by
    unfold MemRegion.range
    bv_omega
  simp only [splitVma, splitMmapRegion, if_neg null, if_neg notBelow, if_neg notWhole, if_neg notFront,
    if_neg notBack, if_neg proper, if_neg proper', true_and]
  simp [Regions.set, apart]

/-- The request is the front of the region. -/
theorem splitVma_front (chain : RegionChain regions head (pre ++ cwr :: post)) (fits : (regions cwr).limit ≤ 2 ^ 64)
    (room : finalSize.toNat < (regions cwr).vaSize.toNat) (front : (regions cwr).vaBase = address)
    (fresh : second ∉ pre ++ cwr :: post) (proper : second ≠ 0) (third : Word) :
    Partitioned regions head pre cwr post address finalSize (splitVma regions cwr address finalSize second third)
      [cwr, second] := by
  have null : cwr ≠ 0 := fun same => chain.proper (same ▸ by simp)
  have other : second ≠ cwr := fun same => fresh (same ▸ by simp)
  have notBelow : ¬ address < (regions cwr).vaBase := by bv_omega
  have notWhole : ¬ (regions cwr).vaSize ≤ finalSize := by bv_omega
  obtain ⟨split, made⟩ : ∃ split, split =
      (regions.set cwr { regions cwr with next := second, vaSize := finalSize }).set second
        { regions cwr with vaSize := (regions cwr).vaSize - finalSize, vaBase := address + finalSize } := ⟨_, rfl⟩
  have result : splitVma regions cwr address finalSize second third = (cwr, split) := by
    simp only [splitVma, if_neg null, if_neg notBelow, if_neg notWhole, if_pos front, if_neg proper, made]
  have behind : (address + finalSize).toNat = (regions cwr).vaBase.toNat + finalSize.toNat := by
    unfold MemRegion.limit at fits
    bv_omega
  have requested : (split cwr).vaBase = address ∧ (split cwr).vaSize = finalSize := by
    rw [made]
    simp [Regions.set, Ne.symm other, front]
  rw [result]
  exact partitioned_two chain fresh proper (Nat.le_of_lt room) behind List.mem_cons_self made requested

/-- The request is the end of the region. -/
theorem splitVma_back (chain : RegionChain regions head (pre ++ cwr :: post)) (low : (regions cwr).vaBase ≤ address)
    (room : finalSize.toNat < (regions cwr).vaSize.toNat) (front : (regions cwr).vaBase ≠ address)
    (ends : address.toNat + finalSize.toNat = (regions cwr).limit) (fresh : second ∉ pre ++ cwr :: post)
    (proper : second ≠ 0) (third : Word) :
    Partitioned regions head pre cwr post address finalSize (splitVma regions cwr address finalSize second third)
      [cwr, second] := by
  have null : cwr ≠ 0 := fun same => chain.proper (same ▸ by simp)
  have notBelow : ¬ address < (regions cwr).vaBase := BitVec.not_lt.mpr low
  have notWhole : ¬ (regions cwr).vaSize ≤ finalSize := by bv_omega
  have back : address + finalSize = (regions cwr).range := by
    unfold MemRegion.range
    unfold MemRegion.limit at ends
    bv_omega
  obtain ⟨split, made⟩ : ∃ split, split = (regions.set cwr
      { regions cwr with next := second, vaSize := (regions cwr).vaSize - finalSize }).set second
        { regions cwr with vaSize := (regions cwr).vaSize - ((regions cwr).vaSize - finalSize), vaBase := address } :=
    ⟨_, rfl⟩
  have rest : (regions cwr).vaSize - ((regions cwr).vaSize - finalSize) = finalSize := by bv_omega
  have result : splitVma regions cwr address finalSize second third = (second, split) := by
    simp only [splitVma, if_neg null, if_neg notBelow, if_neg notWhole, if_neg front, if_pos back, if_neg proper, made,
      rest]
  have behind : address.toNat = (regions cwr).vaBase.toNat + ((regions cwr).vaSize - finalSize).toNat := by
    unfold MemRegion.limit at ends
    bv_omega
  have requested : (split second).vaBase = address ∧ (split second).vaSize = finalSize := by
    rw [made]
    simp [Regions.set, rest]
  rw [result]
  exact partitioned_two chain fresh proper (by bv_omega) behind (by simp) made requested

theorem splitVma_partitions_iff (chain : RegionChain regions head (pre ++ cwr :: post))
    (fits : (regions cwr).limit ≤ 2 ^ 64) (positive : finalSize ≠ 0) (low : (regions cwr).vaBase ≤ address)
    (high : address.toNat + finalSize.toNat ≤ (regions cwr).limit) (fresh : second ∉ pre ++ cwr :: post)
    (proper : second ≠ 0) (proper' : third ≠ 0) (apart : third ≠ second) :
    (∃ pieces, Partitioned regions head pre cwr post address finalSize
        (splitVma regions cwr address finalSize second third) pieces) ↔
      address = (regions cwr).vaBase ∨ address.toNat + finalSize.toNat = (regions cwr).limit := by
  have null : cwr ≠ 0 := fun same => chain.proper (same ▸ by simp)
  have size : 0 < finalSize.toNat := by bv_omega
  by_cases whole : (regions cwr).vaSize ≤ finalSize
  · have same : address = (regions cwr).vaBase ∧ finalSize = (regions cwr).vaSize := by
      unfold MemRegion.limit at high
      constructor <;> bv_omega
    have notBelow : ¬ address < (regions cwr).vaBase := BitVec.not_lt.mpr low
    have result : splitVma regions cwr address finalSize second third = (cwr, regions) := by
      simp only [splitVma, if_neg null, if_neg notBelow, if_pos whole]
    refine iff_of_true ⟨[cwr], ?_⟩ (Or.inl same.1)
    rw [result]
    exact ⟨by simp, List.mem_cons_self, ⟨same.1.symm, same.2.symm⟩, by simpa using chain, ⟨rfl, rfl⟩, fun _ _ => rfl⟩
  have room : finalSize.toNat < (regions cwr).vaSize.toNat := by bv_omega
  by_cases front : (regions cwr).vaBase = address
  · exact iff_of_true ⟨_, splitVma_front chain fits room front fresh proper third⟩ (Or.inl front.symm)
  by_cases ends : address.toNat + finalSize.toNat = (regions cwr).limit
  · exact iff_of_true ⟨_, splitVma_back chain low room front ends fresh proper third⟩ (Or.inr ends)
  have before : (regions cwr).vaBase.toNat < address.toNat := by bv_omega
  have middle := splitVma_middle null proper proper' apart before (Nat.lt_of_le_of_ne high ends) fits
  refine iff_of_false ?_ ?_
  · rintro ⟨pieces, partitioned⟩
    have base := partitioned.requested.1
    rw [middle.1, middle.2] at base
    bv_omega
  · rintro (same | last)
    · exact front same.symm
    · exact ends last

end splitting

theorem lowFit_cwr : RegionChain lowFit 0x1000 ([] ++ 0x1000 :: []) := lowFit_chain

/-- The first half of the only region. -/
theorem splitVma_partitions_iff_front :
    (∃ pieces, Partitioned lowFit 0x1000 [] 0x1000 [] 0x8000 0x800 (splitVma lowFit 0x1000 0x8000 0x800 0x5000 0x6000)
        pieces) ↔
      (0x8000 : Word) = (lowFit 0x1000).vaBase ∨
        (0x8000 : Word).toNat + (0x800 : Word).toNat = (lowFit 0x1000).limit :=
  splitVma_partitions_iff lowFit_cwr (by simp [lowFit, MemRegion.limit]) (by decide) (by decide)
    (by simp [lowFit, MemRegion.limit]) (by decide) (by decide) (by decide) (by decide)

/-- From the middle the piece behind the request is returned. -/
theorem splitVma_returns_rest : ¬ ∃ pieces, Partitioned lowFit 0x1000 [] 0x1000 [] 0x8400 0x800
    (splitVma lowFit 0x1000 0x8400 0x800 0x5000 0x6000) pieces := by
  rintro ⟨pieces, partitioned⟩
  have before : (lowFit 0x1000).vaBase.toNat < (0x8400 : Word).toNat := by simp [lowFit]
  have behind : (0x8400 : Word).toNat + (0x800 : Word).toNat < (lowFit 0x1000).limit := by
    simp [lowFit, MemRegion.limit]
  have middle := splitVma_middle (by decide) (by decide : (0x5000 : Word) ≠ 0) (by decide)
    (by decide : (0x6000 : Word) ≠ 0x5000) before behind (by simp [lowFit, MemRegion.limit])
  have base := partitioned.requested.1
  rw [middle.1, middle.2] at base
  exact absurd base (by decide)

/-- The region has the new size and its base, and the region behind it gives up its front. -/
structure Extended (regions : Regions) (src finalSize : Word) (result : Word × Regions) : Prop where
  returned : result.1 = src
  here : (result.2 src).vaSize = finalSize ∧ (result.2 src).vaBase = (regions src).vaBase
  next : (regions src).next ≠ 0 → (result.2 (regions src).next).limit = (regions (regions src).next).limit ∧
    (result.2 (regions src).next).vaBase.toNat = (result.2 src).limit ∧
    (result.2 (regions src).next).vaSize ≤ (regions (regions src).next).vaSize

/-- Where a region follows, `extend_vma` returns 0. -/
theorem extendVma_next {regions : Regions} {src finalSize : Word} (proper : src ≠ 0)
    (grows : (regions src).vaSize < finalSize) (some : (regions src).next ≠ 0) :
    (extendVma regions src finalSize).1 = 0 := by
  have larger : ¬ finalSize ≤ (regions src).vaSize := BitVec.not_le.mpr grows
  simp only [extendVma, if_neg proper, if_neg larger, ne_eq, some, not_false_eq_true, if_true]
  split <;> rfl

theorem extendVma_extends_iff {regions : Regions} {src finalSize : Word} (proper : src ≠ 0)
    (grows : (regions src).vaSize < finalSize) :
    Extended regions src finalSize (extendVma regions src finalSize) ↔ (regions src).next = 0 := by
  constructor
  · intro extended
    by_contra some
    have returned := extended.returned
    rw [extendVma_next proper grows some] at returned
    exact proper returned.symm
  · intro last
    have larger : ¬ finalSize ≤ (regions src).vaSize := BitVec.not_le.mpr grows
    have result : extendVma regions src finalSize =
        (src, regions.set src { regions src with vaSize := finalSize }) := by
      simp only [extendVma, if_neg proper, if_neg larger, last, ne_eq, not_true_eq_false, if_false]
    rw [result]
    exact ⟨rfl, by simp [Regions.set], fun some => absurd last some⟩

def roomBehind : Regions := fun p =>
  if p = 0x1000 then ⟨0x8000, 0x1000, 0, 1, 0, 0, 0x2000⟩ else ⟨0x9000, 0x3000, 0, 0, 0, 0, 0⟩

/-- The last region of a list. -/
theorem extendVma_extends_iff_last :
    Extended roomBehind 0x2000 0x4000 (extendVma roomBehind 0x2000 0x4000) ↔ (roomBehind 0x2000).next = 0 :=
  extendVma_extends_iff (by decide) (by decide)

/-- The next region is adjacent, unmapped and large enough; `can_extend_vma` agrees and `extend_vma` returns 0. -/
theorem extendVma_refuses_allowed : canExtendVma roomBehind 0x1000 0x2000 = true ∧
    ¬ Extended roomBehind 0x1000 0x2000 (extendVma roomBehind 0x1000 0x2000) := by
  refine ⟨by decide, fun extended => ?_⟩
  have returned := extended.returned
  rw [extendVma_next (by decide) (by decide) (by decide)] at returned
  exact absurd returned (by decide)

end RealmVm
