import RealmVm.Vma.Regions

/-! The searches and the insertion over a whole list: which region is found, and where a new one goes. -/
namespace RealmVm

open Lib

/-- The first region of the list that is large enough, or 0. -/
def FindsFirstFit (regions : Regions) (head : Word) (ptrs : List Word) (size : Word) : Prop :=
  Returns (fun fuel => searchMmapRegion fuel regions head size)
    ((ptrs.find? fun p => size ≤ (regions p).vaSize).getD 0)

/-- A region before the last fits, or the last fits exactly when it is the only one. -/
def LastDecides (regions : Regions) (ptrs : List Word) (size : Word) : Prop :=
  ∀ pre last, ptrs = pre ++ [last] →
    (∃ p ∈ pre, size ≤ (regions p).vaSize) ∨ (size ≤ (regions last).vaSize ↔ pre = [])

theorem lastDecides_snoc {regions : Regions} {pre : List Word} {last size : Word} :
    LastDecides regions (pre ++ [last]) size ↔
      (∃ p ∈ pre, size ≤ (regions p).vaSize) ∨ (size ≤ (regions last).vaSize ↔ pre = []) := by
  constructor
  · intro decides
    exact decides pre last rfl
  · intro here front back same
    obtain ⟨rfl, one⟩ := List.append_inj' same rfl
    cases one
    exact here

theorem searchMmapRegion_first_iff {regions : Regions} {head : Word} {ptrs : List Word}
    (chain : RegionChain regions head ptrs) (size : Word) :
    FindsFirstFit regions head ptrs size ↔ LastDecides regions ptrs size := by
  cases List.eq_nil_or_concat' ptrs with
  | inl none =>
    subst none
    have null : head = 0 := chain.empty_iff.mpr rfl
    have found : FindsFirstFit regions head [] size := ⟨0, fun fuel _ => by simp [searchMmapRegion, null]⟩
    have vacuous : LastDecides regions [] size := fun pre last same => by simp at same
    exact iff_of_true found vacuous
  | inr some =>
    obtain ⟨pre, last, rfl⟩ := some
    have proper : last ≠ 0 := fun null => chain.proper (null ▸ by simp)
    have given : Returns (fun fuel => searchMmapRegion fuel regions head size)
        (if pre = [] then last else (pre.find? fun q => size ≤ (regions q).vaSize).getD 0) :=
      ⟨pre.length, fun fuel enough => searchMmapRegion_spec chain enough⟩
    rw [lastDecides_snoc]
    have same : FindsFirstFit regions head (pre ++ [last]) size ↔
        (if pre = [] then last else (pre.find? fun q => size ≤ (regions q).vaSize).getD 0) =
          ((pre ++ [last]).find? fun q => size ≤ (regions q).vaSize).getD 0 := by
      constructor
      · intro found
        exact given.unique found
      · intro equal
        rw [FindsFirstFit, ← equal]
        exact given
    rw [same, List.find?_append]
    cases front : pre.find? fun q => decide (size ≤ (regions q).vaSize) with
    | some p =>
      have member := List.mem_of_find?_eq_some front
      have found := List.find?_some front
      have fits : size ≤ (regions p).vaSize := of_decide_eq_true found
      have longer : pre ≠ [] := List.ne_nil_of_mem member
      simp only [if_neg longer, Option.getD_some, Option.some_or, true_iff]
      exact Or.inl ⟨p, member, fits⟩
    | none =>
      have small : ¬ ∃ p ∈ pre, size ≤ (regions p).vaSize := by
        rintro ⟨p, member, fits⟩
        exact List.find?_eq_none.mp front p member (decide_eq_true fits)
      simp only [small, false_or, Option.none_or, Option.getD_none]
      by_cases lone : pre = []
      · by_cases fits : size ≤ (regions last).vaSize
        · simp [lone, fits]
        · simpa [lone, fits] using proper
      · by_cases fits : size ≤ (regions last).vaSize
        · simpa [lone, fits] using Ne.symm proper
        · simp [lone, fits]

def farFit : Regions := fun p =>
  if p = 0x1000 then ⟨0x4000, 0x1000, 0, 1, 0, 0, 0x2000⟩ else ⟨0x8000, 0x4000, 0, 1, 0, 0, 0⟩

theorem farFit_chain : RegionChain farFit 0x1000 [0x1000, 0x2000] :=
  ⟨⟨rfl, rfl, rfl⟩, by decide⟩

/-- A small request: the first region is large enough. -/
theorem searchMmapRegion_first_iff_front :
    FindsFirstFit farFit 0x1000 [0x1000, 0x2000] 0x800 ↔ LastDecides farFit [0x1000, 0x2000] 0x800 :=
  searchMmapRegion_first_iff farFit_chain 0x800

/-- The only large region is the last of two, and the search returns 0. -/
theorem searchMmapRegion_skips_last : ¬ FindsFirstFit farFit 0x1000 [0x1000, 0x2000] 0x4000 := by
  intro found
  have split : RegionChain farFit 0x1000 ([0x1000] ++ [0x2000]) := farFit_chain
  have given : Returns (fun fuel => searchMmapRegion fuel farFit 0x1000 0x4000) 0 :=
    ⟨1, fun fuel enough => searchMmapRegion_spec split enough⟩
  exact absurd (given.unique found) (by decide)

/-- One past the last address of the region, without wrapping. -/
def MemRegion.limit (r : MemRegion) : Nat := r.vaBase.toNat + r.vaSize.toNat

/- Regions that touch do not overlap. An empty one overlaps those that it lies strictly inside of. -/
def MemRegion.Overlap (r q : MemRegion) : Prop := r.vaBase.toNat < q.limit ∧ q.vaBase.toNat < r.limit

/-- Sorted by address and pairwise disjoint. -/
def RegionsInOrder (regions : Regions) (ptrs : List Word) : Prop :=
  ptrs.Pairwise fun p q => (regions p).limit ≤ (regions q).vaBase.toNat

/-- `linked` differs from `regions` in the links alone. -/
def Regions.SameButLinks (regions linked : Regions) : Prop :=
  ∀ x, linked x = { regions x with next := linked.next x }

/-- The call returns 1 and the list has the new region between `below` and `above`. -/
def Inserted (regions : Regions) (head toInsert : Word) (below above : List Word) : Prop :=
  ∃ start linked, Returns (fun fuel => mmapRegionInsert fuel regions head toInsert) (1, start, linked) ∧
    RegionChain linked start (below ++ toInsert :: above) ∧ regions.SameButLinks linked

/-- Exact sorted insertion: the region is added in its place, or refused because it overlaps another. -/
def InsertsExactly (regions : Regions) (head : Word) (ptrs : List Word) (toInsert : Word) : Prop :=
  ((∀ p ∈ ptrs, ¬ (regions p).Overlap (regions toInsert)) →
    ∃ below above, ptrs = below ++ above ∧ Inserted regions head toInsert below above ∧
      RegionsInOrder regions (below ++ toInsert :: above)) ∧
  ((∃ p ∈ ptrs, (regions p).Overlap (regions toInsert)) →
    Returns (fun fuel => mmapRegionInsert fuel regions head toInsert) (0, head, regions))

/- `wrap`: an end that wraps to 0 is not taken for the end of a region that fits into a gap. `apart`: a region
that belongs directly in front of the last has another in front of itself and a gap behind. `overlap`: one that
overlaps another starts at or behind all regions but the last, and the last does not end at the top. -/
structure InsertHandled (regions : Regions) (pre : List Word) (last toInsert : Word) : Prop where
  wrap : ∀ p ∈ pre, (regions p).limit ≤ (regions toInsert).vaBase.toNat →
    (regions toInsert).range < (regions (regions p).next).vaBase →
    (regions toInsert).limit ≤ (regions (regions p).next).vaBase.toNat
  apart : (regions toInsert).limit ≤ (regions last).vaBase.toNat →
    (∀ p ∈ pre, (regions p).limit ≤ (regions toInsert).vaBase.toNat) →
    pre ≠ [] ∧ (regions toInsert).limit ≠ (regions last).vaBase.toNat
  overlap : (∃ p ∈ pre ++ [last], (regions p).Overlap (regions toInsert)) →
    (regions last).limit < 2 ^ 64 ∧ ∀ p ∈ pre, (regions p).vaBase ≤ (regions toInsert).vaBase

section insertion

variable {regions : Regions} {head p last toInsert : Word} {ptrs pre post below above : List Word}

theorem sameButLinks_setNext {linked : Regions} (same : regions.SameButLinks linked) (p q : Word) :
    regions.SameButLinks (linked.setNext p q) := by
  intro x
  by_cases here : x = p
  · subst here
    have old := same x
    simp only [Regions.setNext, Regions.next, Function.update_self]
    rw [old]
  · have old := same x
    simpa [Regions.setNext, Regions.next, Function.update_of_ne here] using old

theorem sameButLinks_refl (regions : Regions) : regions.SameButLinks regions := fun _ => rfl

/-- Linking the new region in behind `p`. -/
theorem linkAfter_chain (chain : RegionChain regions head (pre ++ p :: post)) (fresh : toInsert ∉ pre ++ p :: post)
    (proper : toInsert ≠ 0) : RegionChain ((regions.setNext toInsert (regions.next p)).setNext p toInsert) head
      (pre ++ p :: toInsert :: post) := by
  have other : toInsert ≠ p := fun same => fresh (same ▸ by simp)
  refine chain.insertAfter fresh proper ?_ ?_ ?_
  · simp [other]
  · simp
  · intro x member
    have notNew : x ≠ toInsert := by
      rintro rfl
      apply fresh
      simp only [List.mem_append, List.mem_cons] at member ⊢
      tauto
    have notHere : x ≠ p := chain.apart member
    simp [notNew, notHere]

theorem linkFirst_chain (chain : RegionChain regions head ptrs) (fresh : toInsert ∉ ptrs) (proper : toInsert ≠ 0) :
    RegionChain (regions.setNext toInsert head) toInsert (toInsert :: ptrs) := by
  have same : ∀ x ∈ ptrs, (regions.setNext toInsert head).next x = regions.next x := by
    intro x member
    have other : x ≠ toInsert := fun equal => fresh (equal ▸ member)
    simp [other]
  have start : (regions.setNext toInsert head).next toInsert = head := by simp
  have rest := (chain.frame same).segment
  have segment : Segment (regions.setNext toInsert head).next toInsert (toInsert :: ptrs) 0 := by
    refine ⟨rfl, ?_⟩
    rw [start]
    exact rest
  refine ⟨segment, fun member => ?_⟩
  cases List.mem_cons.mp member with
  | inl null => exact proper null.symm
  | inr old => exact chain.proper old

theorem mmapRegionInsert_loop (chain : RegionChain regions head (pre ++ p :: post)) (fuel : Nat) :
    mmapRegionInsert fuel regions head toInsert = insertLoop regions head toInsert fuel head head := by
  have nonempty : head ≠ 0 := fun null => by simpa using chain.empty_iff.mp null
  rw [mmapRegionInsert, if_neg nonempty]

section loop

variable (chain : RegionChain regions head (pre ++ p :: post)) (skip : ∀ x ∈ pre, ¬ InsertStops regions toInsert x)
include chain skip

/-- What the loop does at the first region where it stops decides the call. -/
theorem insert_returns {result : CInt × Word × Regions}
    (here : ∀ fuel, insertLoop regions head toInsert (fuel + 1) (pre.getLastD head) p = some result) :
    Returns (fun fuel => mmapRegionInsert fuel regions head toInsert) result := by
  refine ⟨pre.length, fun fuel enough => ?_⟩
  obtain ⟨spare, rfl⟩ : ∃ spare, fuel = pre.length + (spare + 1) := ⟨fuel - pre.length - 1, by omega⟩
  simp only [mmapRegionInsert_loop chain]
  rw [insertLoop_skip chain skip]
  exact here spare

theorem inserted_before (more : post ≠ []) (fresh : toInsert ∉ pre ++ p :: post) (proper : toInsert ≠ 0)
    (lower : (regions toInsert).vaBase < (regions p).vaBase) :
    Inserted regions head toInsert pre (p :: post) := by
  have follows : (regions p).next ≠ 0 := fun stops => more (chain.suffix.2.empty_iff.mp stops)
  cases List.eq_nil_or_concat' pre with
  | inl none =>
    subst none
    obtain rfl : head = p := chain.head_eq
    refine ⟨toInsert, regions.setNext toInsert head, insert_returns chain skip fun fuel => ?_,
      linkFirst_chain chain fresh proper, sameButLinks_setNext (sameButLinks_refl regions) _ _⟩
    simp only [insertLoop, ne_eq, follows, not_false_eq_true, if_true, if_pos lower]
  | inr some =>
    obtain ⟨front, prev, rfl⟩ := some
    have whole : front ++ [prev] ++ p :: post = front ++ prev :: p :: post := by simp
    rw [whole] at fresh
    have list : RegionChain regions head (front ++ prev :: p :: post) := whole ▸ chain
    have other : head ≠ p := list.head_ne
    have linked := linkAfter_chain list fresh proper
    refine ⟨head, (regions.setNext toInsert (regions.next prev)).setNext prev toInsert,
      insert_returns chain skip fun fuel => ?_, by simpa using linked,
      sameButLinks_setNext (sameButLinks_setNext (sameButLinks_refl regions) _ _) _ _⟩
    simp only [insertLoop, ne_eq, follows, not_false_eq_true, if_true, if_pos lower, if_neg other,
      List.getLastD_concat]
    rfl

theorem inserted_behind (more : post ≠ []) (fresh : toInsert ∉ pre ++ p :: post) (proper : toInsert ≠ 0)
    (upper : ¬ (regions toInsert).vaBase < (regions p).vaBase)
    (gap : (regions p).range ≤ (regions toInsert).vaBase ∧
      (regions toInsert).range < (regions (regions p).next).vaBase) :
    Inserted regions head toInsert (pre ++ [p]) post := by
  have follows : (regions p).next ≠ 0 := fun stops => more (chain.suffix.2.empty_iff.mp stops)
  have linked := linkAfter_chain chain fresh proper
  refine ⟨head, (regions.setNext toInsert (regions.next p)).setNext p toInsert,
    insert_returns chain skip fun fuel => ?_, by simpa using linked,
    sameButLinks_setNext (sameButLinks_setNext (sameButLinks_refl regions) _ _) _ _⟩
  simp only [insertLoop, ne_eq, follows, not_false_eq_true, if_true, if_neg upper, if_pos gap]
  rfl

end loop

theorem inserted_end (chain : RegionChain regions head (pre ++ [last]))
    (skip : ∀ x ∈ pre, ¬ InsertStops regions toInsert x) (fresh : toInsert ∉ pre ++ [last]) (proper : toInsert ≠ 0)
    (alone : (regions toInsert).next = 0) (short : (regions last).range ≤ (regions toInsert).vaBase) :
    Inserted regions head toInsert (pre ++ [last]) [] := by
  have final : regions.next last = 0 := chain.next_last
  have unchanged : regions.setNext toInsert (regions.next last) = regions := by
    have same : regions.next last = regions.next toInsert := final.trans alone.symm
    rw [same, setNext_self]
  have linked := linkAfter_chain chain fresh proper
  rw [unchanged] at linked
  refine ⟨head, regions.setNext last toInsert, ⟨pre.length, fun fuel enough => ?_⟩, by simpa using linked,
    sameButLinks_setNext (sameButLinks_refl regions) _ _⟩
  simp only [mmapRegionInsert_loop chain]
  rw [insertLoop_last chain skip enough, if_pos short]

theorem insert_refused (chain : RegionChain regions head (pre ++ [last]))
    (skip : ∀ x ∈ pre, ¬ InsertStops regions toInsert x)
    (long : ¬ (regions last).range ≤ (regions toInsert).vaBase) :
    Returns (fun fuel => mmapRegionInsert fuel regions head toInsert) (0, head, regions) := by
  refine ⟨pre.length, fun fuel enough => ?_⟩
  simp only [mmapRegionInsert_loop chain]
  rw [insertLoop_last chain skip enough, if_neg long]

/-- Where the loop stops before the last region, the first region that stops it is where the new one goes. -/
theorem inserted_at_stop (chain : RegionChain regions head (pre ++ [last])) (fresh : toInsert ∉ pre ++ [last])
    (proper : toInsert ≠ 0) {x : Word} (member : x ∈ pre) (stops : InsertStops regions toInsert x) :
    ∃ front q back, pre = front ++ q :: back ∧ (∀ y ∈ front, ¬ InsertStops regions toInsert y) ∧
      ((regions toInsert).vaBase < (regions q).vaBase ∧
          Inserted regions head toInsert front (q :: (back ++ [last])) ∨
        ((regions q).vaBase ≤ (regions toInsert).vaBase ∧ (regions q).range ≤ (regions toInsert).vaBase ∧
            (regions toInsert).range < (regions (regions q).next).vaBase) ∧
          Inserted regions head toInsert (front ++ [q]) (back ++ [last])) := by
  obtain ⟨q, found⟩ : ∃ q, pre.find? (fun y => decide (InsertStops regions toInsert y)) = some q := by
    rw [← Option.isSome_iff_exists, List.find?_isSome]
    exact ⟨x, member, decide_eq_true stops⟩
  obtain ⟨here, front, back, rfl, before⟩ := List.find?_eq_some_iff_append.mp found
  have skip : ∀ y ∈ front, ¬ InsertStops regions toInsert y := fun y hy => by simpa using before y hy
  have whole : front ++ q :: back ++ [last] = front ++ q :: (back ++ [last]) := by simp
  rw [whole] at chain fresh
  have more : back ++ [last] ≠ [] := by simp
  refine ⟨front, q, back, rfl, skip, ?_⟩
  by_cases lower : (regions toInsert).vaBase < (regions q).vaBase
  · exact Or.inl ⟨lower, inserted_before chain skip more fresh proper lower⟩
  · have gap := (of_decide_eq_true here).resolve_left lower
    exact Or.inr ⟨⟨BitVec.not_lt.mp lower, gap⟩, inserted_behind chain skip more fresh proper lower gap⟩

theorem Inserted.unique {below' above' : List Word} (first : Inserted regions head toInsert below above)
    (second : Inserted regions head toInsert below' above') (fresh : toInsert ∉ below ++ above) :
    below = below' ∧ above = above' := by
  obtain ⟨start, linked, gives, list, _⟩ := first
  obtain ⟨start', linked', gives', list', _⟩ := second
  have same := gives.unique gives'
  obtain ⟨rfl, rfl⟩ := (Prod.mk.inj (Prod.mk.inj same).2)
  have equal := list.unique list'
  have notBelow : toInsert ∉ below := fun member => fresh (List.mem_append_left above member)
  have notAbove : toInsert ∉ above := fun member => fresh (List.mem_append_right below member)
  obtain ⟨left, _, right⟩ := (List.append_cons_inj_of_notMem notBelow notAbove).mp equal
  exact ⟨left, right⟩

theorem Inserted.not_refused (inserted : Inserted regions head toInsert below above) :
    ¬ Returns (fun fuel => mmapRegionInsert fuel regions head toInsert) (0, head, regions) := by
  obtain ⟨start, linked, gives, _⟩ := inserted
  intro refused
  have same := (Prod.mk.inj (gives.unique refused)).1
  exact absurd same (by decide)

theorem range_toNat {r : MemRegion} (fits : r.limit < 2 ^ 64) : r.range.toNat = r.limit := by
  unfold MemRegion.limit at *
  rw [MemRegion.range, BitVec.toNat_add, Nat.mod_eq_of_lt fits]

/-- An end at the top of the address space wraps to 0. -/
theorem range_top {r : MemRegion} (top : r.limit = 2 ^ 64) : r.range = 0 := by
  unfold MemRegion.limit at top
  unfold MemRegion.range
  bv_omega

theorem sides {r q : MemRegion} (apart : ¬ r.Overlap q) : r.limit ≤ q.vaBase.toNat ∨ q.limit ≤ r.vaBase.toNat := by
  unfold MemRegion.Overlap at apart
  omega

namespace RegionsInOrder

/-- What lies in front of a region ends below it. -/
theorem split (sorted : RegionsInOrder regions (pre ++ p :: post)) :
    (∀ x ∈ pre, (regions x).limit ≤ (regions p).vaBase.toNat) ∧
      (∀ x ∈ post, (regions p).limit ≤ (regions x).vaBase.toNat) := by
  obtain ⟨_, rest, across⟩ := List.pairwise_append.mp sorted
  exact ⟨fun x member => across x member p List.mem_cons_self, (List.pairwise_cons.mp rest).1⟩

theorem insert (sorted : RegionsInOrder regions (below ++ above))
    (lower : ∀ x ∈ below, (regions x).limit ≤ (regions toInsert).vaBase.toNat)
    (upper : ∀ x ∈ above, (regions toInsert).limit ≤ (regions x).vaBase.toNat) :
    RegionsInOrder regions (below ++ toInsert :: above) := by
  obtain ⟨first, second, across⟩ := List.pairwise_append.mp sorted
  refine List.pairwise_append.mpr ⟨first, List.pairwise_cons.mpr ⟨upper, second⟩, fun x hx y hy => ?_⟩
  cases List.mem_cons.mp hy with
  | inl new => exact new ▸ lower x hx
  | inr old => exact across x hx y old

/-- The region that follows `p` starts no later than any other behind `p`. -/
theorem next_le (sorted : RegionsInOrder regions (pre ++ p :: post))
    (chain : RegionChain regions head (pre ++ p :: post)) {x : Word} (member : x ∈ post) :
    (regions (regions p).next).vaBase.toNat ≤ (regions x).vaBase.toNat := by
  cases post with
  | nil => cases member
  | cons q rest =>
    obtain rfl : (regions p).next = q := chain.suffix.2.head_eq
    have behind : RegionsInOrder regions ((regions p).next :: rest) :=
      (List.pairwise_cons.mp (List.pairwise_append.mp sorted).2.1).2
    cases List.mem_cons.mp member with
    | inl here => rw [here]
    | inr later =>
      have ends := (List.pairwise_cons.mp behind).1 x later
      unfold MemRegion.limit at ends
      omega

end RegionsInOrder

variable (chain : RegionChain regions head (pre ++ [last])) (sorted : RegionsInOrder regions (pre ++ [last]))
  (fits : ∀ p ∈ toInsert :: (pre ++ [last]), (regions p).limit ≤ 2 ^ 64) (fresh : toInsert ∉ pre ++ [last])
  (proper : toInsert ≠ 0) (alone : (regions toInsert).next = 0) (nonempty : (regions toInsert).vaSize ≠ 0)

include sorted in
/-- All regions but the last end below the top. -/
theorem inner_fits {x : Word} (member : x ∈ pre) : (regions x).limit < 2 ^ 64 := by
  have below := sorted.split.1 x member
  have bound := (regions last).vaBase.isLt
  omega

include nonempty in
theorem nonempty_lt : (regions toInsert).vaBase.toNat < (regions toInsert).limit := by
  have size : 0 < (regions toInsert).vaSize.toNat := by bv_omega
  unfold MemRegion.limit
  omega

include nonempty in
/-- A region that does not overlap the new one and does not start above it ends below it. -/
theorem ends_below {x : Word} (apart : ¬ (regions x).Overlap (regions toInsert))
    (low : (regions x).vaBase.toNat ≤ (regions toInsert).vaBase.toNat) :
    (regions x).limit ≤ (regions toInsert).vaBase.toNat := by
  have size := nonempty_lt nonempty
  cases sides apart with
  | inl below => exact below
  | inr above => omega

/-- A region where the loop does not stop starts no later than the new one. -/
theorem not_stops_low {x : Word} (going : ¬ InsertStops regions toInsert x) :
    (regions x).vaBase.toNat ≤ (regions toInsert).vaBase.toNat := by
  have low := (not_or.mp going).1
  bv_omega

include chain sorted fresh proper nonempty in
/-- Where the loop stops, a region that overlaps none goes between its neighbours. -/
theorem inserts_stopped (handled : InsertHandled regions pre last toInsert)
    (apart : ∀ p ∈ pre ++ [last], ¬ (regions p).Overlap (regions toInsert))
    (stop : ∃ x ∈ pre, InsertStops regions toInsert x) :
    ∃ below above, pre ++ [last] = below ++ above ∧ Inserted regions head toInsert below above ∧
      RegionsInOrder regions (below ++ toInsert :: above) := by
  have size := nonempty_lt nonempty
  obtain ⟨x, member, stops⟩ := stop
  obtain ⟨front, q, back, rfl, skip, place⟩ := inserted_at_stop chain fresh proper member stops
  have whole : front ++ q :: back ++ [last] = front ++ q :: (back ++ [last]) := by simp
  have bound := inner_fits sorted (x := q) (by simp)
  rw [whole] at chain sorted apart ⊢
  have lower : ∀ y ∈ front, (regions y).limit ≤ (regions toInsert).vaBase.toNat := fun y hy =>
    ends_below nonempty (apart y (List.mem_append_left _ hy)) (not_stops_low (skip y hy))
  rcases place with ⟨higher, inserted⟩ | ⟨⟨low, short, gap⟩, inserted⟩
  · have above : (regions toInsert).limit ≤ (regions q).vaBase.toNat := by
      cases sides (apart q (by simp)) with
      | inl below =>
        unfold MemRegion.limit at below
        bv_omega
      | inr above => exact above
    have upper : ∀ y ∈ q :: (back ++ [last]), (regions toInsert).limit ≤ (regions y).vaBase.toNat := by
      intro y hy
      cases List.mem_cons.mp hy with
      | inl here => exact here ▸ above
      | inr later =>
        have ends := sorted.split.2 y later
        unfold MemRegion.limit at ends above ⊢
        omega
    exact ⟨front, _, rfl, inserted, sorted.insert lower upper⟩
  · have ends : (regions q).limit ≤ (regions toInsert).vaBase.toNat := by
      rw [← range_toNat bound]
      exact short
    have next := handled.wrap q (by simp) ends gap
    have upper : ∀ y ∈ back ++ [last], (regions toInsert).limit ≤ (regions y).vaBase.toNat := fun y hy =>
      Nat.le_trans next (sorted.next_le chain hy)
    have lower' : ∀ y ∈ front ++ [q], (regions y).limit ≤ (regions toInsert).vaBase.toNat :=
      List.forall_mem_append.mpr ⟨lower, List.forall_mem_singleton.mpr ends⟩
    have regroup : front ++ q :: (back ++ [last]) = (front ++ [q]) ++ (back ++ [last]) := by simp
    exact ⟨front ++ [q], back ++ [last], regroup, inserted, RegionsInOrder.insert (regroup ▸ sorted) lower' upper⟩

include chain sorted fresh proper alone nonempty in
/-- When it stops nowhere the region goes to the end. -/
theorem inserts_last (handled : InsertHandled regions pre last toInsert)
    (apart : ∀ p ∈ pre ++ [last], ¬ (regions p).Overlap (regions toInsert))
    (skip : ∀ x ∈ pre, ¬ InsertStops regions toInsert x) :
    Inserted regions head toInsert (pre ++ [last]) [] ∧ RegionsInOrder regions (pre ++ [last] ++ [toInsert]) := by
  have lower : ∀ x ∈ pre, (regions x).limit ≤ (regions toInsert).vaBase.toNat := fun x hx =>
    ends_below nonempty (apart x (List.mem_append_left _ hx)) (not_stops_low (skip x hx))
  cases sides (apart last (by simp)) with
  | inl below =>
    have bound := (regions toInsert).vaBase.isLt
    have short : (regions last).range ≤ (regions toInsert).vaBase := by
      have same := range_toNat (r := regions last) (by omega)
      exact BitVec.le_def.mpr (same ▸ below)
    have lower' : ∀ x ∈ pre ++ [last], (regions x).limit ≤ (regions toInsert).vaBase.toNat :=
      List.forall_mem_append.mpr ⟨lower, List.forall_mem_singleton.mpr below⟩
    refine ⟨inserted_end chain skip fresh proper alone short, ?_⟩
    exact RegionsInOrder.insert (by simpa using sorted) lower' (List.forall_mem_nil _)
  | inr above =>
    -- the last region but one would have stopped the loop
    obtain ⟨some, gap⟩ := handled.apart above lower
    obtain ⟨front, q, split⟩ : ∃ front q, pre = front ++ [q] :=
      ⟨_, _, (List.dropLast_append_getLast some).symm⟩
    subst split
    have regroup : front ++ [q] ++ [last] = front ++ q :: [last] := by simp
    have next : (regions q).next = last := by
      rw [regroup] at chain
      exact chain.suffix.2.head_eq
    have ends := lower q (by simp)
    have inside := range_toNat (inner_fits sorted (x := q) (by simp))
    have bound := (regions last).vaBase.isLt
    have top := range_toNat (r := regions toInsert) (by omega)
    refine absurd (Or.inr ⟨BitVec.le_def.mpr (inside ▸ ends), ?_⟩) (skip q (by simp))
    rw [next]
    exact BitVec.lt_def.mpr (by omega)

include chain sorted fresh proper alone nonempty in
theorem inserts_apart (handled : InsertHandled regions pre last toInsert)
    (apart : ∀ p ∈ pre ++ [last], ¬ (regions p).Overlap (regions toInsert)) :
    ∃ below above, pre ++ [last] = below ++ above ∧ Inserted regions head toInsert below above ∧
      RegionsInOrder regions (below ++ toInsert :: above) := by
  by_cases stop : ∃ x ∈ pre, InsertStops regions toInsert x
  · exact inserts_stopped chain sorted fresh proper nonempty handled apart stop
  · have skip : ∀ x ∈ pre, ¬ InsertStops regions toInsert x := fun x hx stops => stop ⟨x, hx, stops⟩
    exact ⟨pre ++ [last], [], by simp, inserts_last chain sorted fresh proper alone nonempty handled apart skip⟩

include chain sorted nonempty in
theorem inserts_overlapping (handled : InsertHandled regions pre last toInsert)
    (overlap : ∃ p ∈ pre ++ [last], (regions p).Overlap (regions toInsert)) :
    Returns (fun fuel => mmapRegionInsert fuel regions head toInsert) (0, head, regions) := by
  obtain ⟨bound, low⟩ := handled.overlap overlap
  have size := nonempty_lt nonempty
  have skip : ∀ x ∈ pre, ¬ InsertStops regions toInsert x := by
    intro x member stops
    obtain ⟨short, gap⟩ := stops.resolve_left (BitVec.not_lt.mpr (low x member))
    have ends : (regions x).limit ≤ (regions toInsert).vaBase.toNat := by
      rw [← range_toNat (inner_fits sorted member)]
      exact short
    have next := handled.wrap x member ends gap
    -- the new region lies in a gap of the list and overlaps none
    obtain ⟨front, back, rfl⟩ := List.append_of_mem member
    have whole : front ++ x :: back ++ [last] = front ++ x :: (back ++ [last]) := by simp
    rw [whole] at chain sorted overlap
    obtain ⟨q, inside, left, right⟩ := overlap
    rcases List.mem_append.mp inside with before | after
    · have below := sorted.split.1 q before
      unfold MemRegion.limit at *
      omega
    · cases List.mem_cons.mp after with
      | inl here =>
        subst here
        omega
      | inr later =>
        have above := sorted.next_le chain later
        omega
  refine insert_refused chain skip fun short => ?_
  have ends : (regions last).limit ≤ (regions toInsert).vaBase.toNat := by
    rw [← range_toNat bound]
    exact short
  obtain ⟨q, inside, left, right⟩ := overlap
  cases List.mem_append.mp inside with
  | inl before =>
    have below := sorted.split.1 q before
    unfold MemRegion.limit at *
    omega
  | inr here =>
    rw [List.mem_singleton.mp here] at right
    omega

include chain sorted fits fresh proper nonempty in
theorem handled_wrap (exact : InsertsExactly regions head (pre ++ [last]) toInsert) {x : Word} (member : x ∈ pre)
    (ends : (regions x).limit ≤ (regions toInsert).vaBase.toNat)
    (gap : (regions toInsert).range < (regions (regions x).next).vaBase) :
    (regions toInsert).limit ≤ (regions (regions x).next).vaBase.toNat := by
  have size := nonempty_lt nonempty
  cases Nat.lt_or_eq_of_le (fits toInsert List.mem_cons_self) with
  | inl bound =>
    rw [← range_toNat bound]
    exact Nat.le_of_lt (BitVec.lt_def.mp gap)
  | inr top =>
    -- the end wraps, the loop stops at `x` or before it, and leaves a region behind the new one
    have short : (regions x).range ≤ (regions toInsert).vaBase := by
      rw [BitVec.le_def, range_toNat (inner_fits sorted member)]
      exact ends
    obtain ⟨front, q, back, rfl, _, place⟩ := inserted_at_stop chain fresh proper member (Or.inr ⟨short, gap⟩)
    have whole : front ++ q :: back ++ [last] = front ++ q :: (back ++ [last]) := by simp
    have regroup : front ++ q :: (back ++ [last]) = (front ++ [q]) ++ (back ++ [last]) := by simp
    obtain ⟨below, above, split, inserted, behind⟩ : ∃ below above, front ++ q :: back ++ [last] = below ++ above ∧
        Inserted regions head toInsert below above ∧ last ∈ above := by
      rcases place with ⟨_, inserted⟩ | ⟨_, inserted⟩
      · exact ⟨front, _, whole, inserted, by simp⟩
      · exact ⟨front ++ [q], _, whole.trans regroup, inserted, by simp⟩
    have apart : ∀ p ∈ front ++ q :: back ++ [last], ¬ (regions p).Overlap (regions toInsert) := fun p hp overlap =>
      inserted.not_refused (exact.2 ⟨p, hp, overlap⟩)
    obtain ⟨below', above', split', inserted', order⟩ := exact.1 apart
    obtain ⟨rfl, rfl⟩ := inserted.unique inserted' (split ▸ fresh)
    have higher := order.split.2 last behind
    have bound := (regions last).vaBase.isLt
    omega

include chain fresh proper alone nonempty in
theorem handled_apart (exact : InsertsExactly regions head (pre ++ [last]) toInsert)
    (above : (regions toInsert).limit ≤ (regions last).vaBase.toNat)
    (below : ∀ p ∈ pre, (regions p).limit ≤ (regions toInsert).vaBase.toNat) :
    pre ≠ [] ∧ (regions toInsert).limit ≠ (regions last).vaBase.toNat := by
  have size := nonempty_lt nonempty
  by_contra slips
  have touching : pre ≠ [] → (regions toInsert).limit = (regions last).vaBase.toNat := fun longer => by
    by_contra gap
    exact slips ⟨longer, gap⟩
  have bound := (regions last).vaBase.isLt
  have top := range_toNat (r := regions toInsert) (by omega)
  have skip : ∀ x ∈ pre, ¬ InsertStops regions toInsert x := by
    intro x member stops
    have equal := touching (List.ne_nil_of_mem member)
    have low := below x member
    rcases stops with lower | ⟨_, gap⟩
    · unfold MemRegion.limit at low
      bv_omega
    · rw [BitVec.lt_def, top] at gap
      rcases List.mem_append.mp (chain.next_mem member) with inner | final
      · have next := below _ inner
        simp only [Regions.next, MemRegion.limit] at next gap size
        omega
      · rw [← List.mem_singleton.mp final] at equal
        simp only [Regions.next] at equal
        omega
  have apart : ∀ p ∈ pre ++ [last], ¬ (regions p).Overlap (regions toInsert) := by
    rintro p member ⟨left, right⟩
    cases List.mem_append.mp member with
    | inl before =>
      have low := below p before
      omega
    | inr here =>
      rw [List.mem_singleton.mp here] at left
      omega
  obtain ⟨front, back, split, inserted, order⟩ := exact.1 apart
  by_cases short : (regions last).range ≤ (regions toInsert).vaBase
  · have ended := inserted_end chain skip fresh proper alone short
    obtain ⟨rfl, rfl⟩ := inserted.unique ended (split ▸ fresh)
    have ends := order.split.1 last (by simp)
    unfold MemRegion.limit at *
    omega
  · exact inserted.not_refused (insert_refused chain skip short)

include chain fits fresh proper alone in
theorem handled_overlap (exact : InsertsExactly regions head (pre ++ [last]) toInsert)
    (overlap : ∃ p ∈ pre ++ [last], (regions p).Overlap (regions toInsert)) :
    (regions last).limit < 2 ^ 64 ∧ ∀ p ∈ pre, (regions p).vaBase ≤ (regions toInsert).vaBase := by
  have refused := exact.2 overlap
  have skip : ∀ x ∈ pre, ¬ InsertStops regions toInsert x := by
    intro x member stops
    obtain ⟨front, q, back, _, _, place⟩ := inserted_at_stop chain fresh proper member stops
    rcases place with ⟨_, inserted⟩ | ⟨_, inserted⟩ <;> exact inserted.not_refused refused
  refine ⟨?_, fun p member => BitVec.not_lt.mp (not_or.mp (skip p member)).1⟩
  have bound : (regions last).limit ≤ 2 ^ 64 := fits last (by simp)
  refine Nat.lt_of_le_of_ne bound fun top => ?_
  have short : (regions last).range ≤ (regions toInsert).vaBase := by
    rw [range_top top]
    bv_omega
  exact (inserted_end chain skip fresh proper alone short).not_refused refused

include chain sorted fits fresh proper alone nonempty in
theorem mmapRegionInsert_exact_iff :
    InsertsExactly regions head (pre ++ [last]) toInsert ↔ InsertHandled regions pre last toInsert := by
  constructor
  · intro exact
    exact ⟨fun p member ends gap => handled_wrap chain sorted fits fresh proper nonempty exact member ends gap,
      handled_apart chain fresh proper alone nonempty exact,
      handled_overlap chain fits fresh proper alone exact⟩
  · intro handled
    exact ⟨inserts_apart chain sorted fresh proper alone nonempty handled,
      inserts_overlapping chain sorted nonempty handled⟩

end insertion

def lowFit : Regions := fun p =>
  if p = 0x1000 then ⟨0x8000, 0x1000, 0, 1, 0, 0, 0⟩
  else if p = 0x2000 then ⟨0x9000, 0x1000, 0, 0, 0, 0, 0⟩ else ⟨0x4000, 0x1000, 0, 0, 0, 0, 0⟩

theorem lowFit_chain : RegionChain lowFit 0x1000 ([] ++ [0x1000]) := ⟨⟨rfl, rfl⟩, by decide⟩

/- Three regions, and one that fits between the last two. -/
def threeRegions : Regions := fun p =>
  if p = 0x1000 then ⟨0x4000, 0x1000, 0, 1, 0, 0, 0x1100⟩
  else if p = 0x1100 then ⟨0x6000, 0x1000, 0, 1, 0, 0, 0x1200⟩
  else if p = 0x1200 then ⟨0xA000, 0x1000, 0, 1, 0, 0, 0⟩ else ⟨0x8000, 0x1000, 0, 0, 0, 0, 0⟩

theorem threeRegions_handled : InsertHandled threeRegions [0x1000, 0x1100] 0x1200 0x2000 where
  wrap p member _ gap := by
    obtain rfl | rfl := List.mem_pair.mp member
    · exact absurd gap (by decide)
    · decide
  apart _ _ := by decide
  overlap _ := by
    refine ⟨by decide, fun p member => ?_⟩
    obtain rfl | rfl := List.mem_pair.mp member
    · decide
    · decide

theorem mmapRegionInsert_exact_iff_between :
    InsertsExactly threeRegions 0x1000 ([0x1000, 0x1100] ++ [0x1200]) 0x2000 := by
  have chain : RegionChain threeRegions 0x1000 ([0x1000, 0x1100] ++ [0x1200]) := ⟨⟨rfl, rfl, rfl, rfl⟩, by decide⟩
  have sorted : RegionsInOrder threeRegions ([0x1000, 0x1100] ++ [0x1200]) := by
    simp [RegionsInOrder, threeRegions, MemRegion.limit]
  have fits : ∀ p ∈ 0x2000 :: ([0x1000, 0x1100] ++ [0x1200]), (threeRegions p).limit ≤ 2 ^ 64 := by
    simp [threeRegions, MemRegion.limit]
  exact (mmapRegionInsert_exact_iff chain sorted fits (by decide) (by decide) rfl (by decide)).mpr threeRegions_handled

/-- A free region below the only one of the list: the call returns 0 and the region is not added. -/
theorem mmapRegionInsert_drops_lower : ¬ InsertsExactly lowFit 0x1000 [0x1000] 0x3000 := by
  intro exact
  have long : ¬ (lowFit 0x1000).range ≤ (lowFit 0x3000).vaBase := by decide
  have refused := insert_refused lowFit_chain (List.forall_mem_nil _) long
  have apart : ∀ p ∈ [0x1000], ¬ (lowFit p).Overlap (lowFit 0x3000) := by
    intro p member
    rw [List.mem_singleton.mp member]
    rintro ⟨left, right⟩
    exact absurd left (by decide)
  obtain ⟨below, above, _, inserted, _⟩ := exact.1 apart
  exact inserted.not_refused refused

end RealmVm
