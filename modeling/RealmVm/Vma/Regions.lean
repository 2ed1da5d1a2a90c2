import RealmVm.Vma.Descriptors
import RealmVm.Lib.Loop

/-! The list of memory regions of an address space: the two searches and the insertion. -/
namespace RealmVm

open Lib

/- `mem_region_t`; the members left out are read by nothing here. -/
structure MemRegion where
  vaBase : Word
  vaSize : Word
  perm : CInt
  isMapped : CInt
  isKernel : CInt
  isSecure : CInt
  next : Word

/- The regions by address; 0 is the null pointer. -/
abbrev Regions := Word → MemRegion

def Regions.next (regions : Regions) (p : Word) : Word := (regions p).next

def Regions.setNext (regions : Regions) (p q : Word) : Regions :=
  Function.update regions p { regions p with next := q }

/-- The last address of the region and one, as the source computes it: it may wrap. -/
def MemRegion.range (r : MemRegion) : Word := r.vaBase + r.vaSize

def searchLoop (regions : Regions) (size : Word) : Nat → Word → Word → Option Word
  | 0, _, _ => none
  | fuel + 1, head, next =>
    if next = 0 then some 0
    else if size ≤ (regions head).vaSize then some head
    else searchLoop regions size fuel next (regions next).next

/-- A pointer to a region, or 0. A list of one region is not asked for its size. -/
def searchMmapRegion (fuel : Nat) (regions : Regions) (region size : Word) : Option Word :=
  if region = 0 then some 0
  else if (regions region).next = 0 then some region
  else searchLoop regions size fuel region (regions region).next

def searchFixedLoop (regions : Regions) (address requestEnd : Word) : Nat → Word → Option Word
  | 0, _ => none
  | fuel + 1, head =>
    let here := regions head
    if here.next ≠ 0 then
      -- whether the request fits between the two regions makes no difference
      if here.range ≤ address ∧ address < (regions here.next).vaBase then some head
      else searchFixedLoop regions address requestEnd fuel here.next
    else if requestEnd ≤ here.range then some head
    else some 0

def searchMmapRegionFixed (fuel : Nat) (regions : Regions) (region address size : Word) : Option Word :=
  let requestEnd := address + size
  if region = 0 then some 0
  else
    let here := regions region
    if requestEnd ≤ here.range ∨ (address < here.range ∧ here.vaBase ≤ address) then some region
    else searchFixedLoop regions address requestEnd fuel region

/- The result, the list's head and the regions afterwards. -/
def insertLoop (regions : Regions) (head toInsert : Word) : Nat → Word → Word → Option (CInt × Word × Regions)
  | 0, _, _ => none
  | fuel + 1, prev, cptr =>
    let new := regions toInsert
    let here := regions cptr
    if here.next ≠ 0 then
      if new.vaBase < here.vaBase then
        if head = cptr then some (1, toInsert, regions.setNext toInsert cptr)
        else some (1, head, (regions.setNext toInsert (regions prev).next).setNext prev toInsert)
      else if here.range ≤ new.vaBase ∧ new.range < (regions here.next).vaBase then
        some (1, head, (regions.setNext toInsert here.next).setNext cptr toInsert)
      else insertLoop regions head toInsert fuel cptr here.next
    else if here.range ≤ new.vaBase then some (1, head, regions.setNext cptr toInsert)
    else some (0, head, regions)

/-- `mmap_region_insert`, with the value of `*head` before and after. -/
def mmapRegionInsert (fuel : Nat) (regions : Regions) (head toInsert : Word) : Option (CInt × Word × Regions) :=
  if head = 0 then some (1, toInsert, regions)
  else insertLoop regions head toInsert fuel head head

def RegionChain (regions : Regions) (head : Word) (ptrs : List Word) : Prop :=
  Chain regions.next 0 head ptrs

/-- Every region of the list ends at `address` or before, and none of the ends wraps. -/
def Below (regions : Regions) (ptrs : List Word) (address : Word) : Prop :=
  ∀ p ∈ ptrs, (regions p).vaBase.toNat + (regions p).vaSize.toNat ≤ address.toNat

@[simp] theorem setNext_next (regions : Regions) (p q : Word) :
    (regions.setNext p q).next = Function.update regions.next p q := by
  funext x
  cases decEq x p with
  | isTrue same =>
    subst same
    simp [Regions.next, Regions.setNext]
  | isFalse other => simp [Regions.next, Regions.setNext, other]

theorem setNext_self (regions : Regions) (p : Word) : regions.setNext p (regions.next p) = regions :=
  Function.update_eq_self p regions

/-- Linking changes no other member of a region. -/
theorem setNext_members (regions : Regions) (p q x : Word) :
    (regions.setNext p q x).vaBase = (regions x).vaBase ∧ (regions.setNext p q x).vaSize = (regions x).vaSize ∧
      (regions.setNext p q x).isMapped = (regions x).isMapped := by
  unfold Regions.setNext
  cases decEq x p with
  | isTrue same =>
    subst same
    simp
  | isFalse other => simp [other]

variable {regions : Regions} {head p : Word} {ptrs pre : List Word} {address : Word}

theorem Below.first (below : Below regions (p :: ptrs) address) :
    (regions p).vaBase ≤ address ∧ (regions p).range ≤ address := by
  have here := below p List.mem_cons_self
  unfold MemRegion.range
  constructor <;> bv_omega

theorem Below.tail (below : Below regions (p :: ptrs) address) : Below regions ptrs address :=
  fun q hq => below q (List.mem_cons_of_mem p hq)

theorem searchFixedLoop_past {requestEnd : Word} (chain : RegionChain regions head (p :: ptrs))
    (below : Below regions (p :: ptrs) address) (past : address < requestEnd) {fuel : Nat}
    (enough : ptrs.length < fuel) : searchFixedLoop regions address requestEnd fuel p = some 0 := by
  induction ptrs generalizing p head fuel with
  | nil =>
    have last : (regions p).next = 0 := chain.next_single
    have short := below.first.2
    have outside : ¬ requestEnd ≤ (regions p).range := by bv_omega
    cases fuel with
    | zero => cases enough
    | succ fuel => simp only [searchFixedLoop, last, ne_eq, not_true_eq_false, if_false, if_neg outside]
  | cons q rest ih =>
    have onward : (regions p).next = q := chain.tail.head_eq
    have proper : q ≠ 0 := fun same => chain.proper (same ▸ List.mem_cons_of_mem p List.mem_cons_self)
    have low := below.tail.first.1
    have notBetween : ¬ ((regions p).range ≤ address ∧ address < (regions q).vaBase) := by
      intro between
      have high := between.2
      bv_omega
    cases fuel with
    | zero => cases enough
    | succ fuel =>
      simp only [searchFixedLoop, onward, ne_eq, proper, not_false_eq_true, if_true, if_neg notBetween]
      exact ih chain.tail below.tail (Nat.lt_of_succ_lt_succ enough)

/-- Past the end of every region the fixed search finds nothing. -/
theorem searchMmapRegionFixed_past {size : Word} (chain : RegionChain regions head (head :: ptrs))
    (below : Below regions (head :: ptrs) address) (positive : 0 < size.toNat)
    (fits : address.toNat + size.toNat < 2 ^ 64) {fuel : Nat} (enough : ptrs.length < fuel) :
    searchMmapRegionFixed fuel regions head address size = some 0 := by
  have proper : head ≠ 0 := fun same => chain.proper (same ▸ List.mem_cons_self)
  have past : address < address + size := by bv_omega
  have short := below.first.2
  have outside : ¬ (address + size ≤ (regions head).range ∨
      (address < (regions head).range ∧ (regions head).vaBase ≤ address)) := by
    rintro (high | ⟨inside, _⟩) <;> bv_omega
  simp only [searchMmapRegionFixed, if_neg proper, if_neg outside]
  exact searchFixedLoop_past chain below past enough

/-- The loop asks every region but the last for its size. -/
theorem searchLoop_spec {size last : Word} (chain : RegionChain regions p (pre ++ [last])) {fuel : Nat}
    (enough : pre.length < fuel) : searchLoop regions size fuel p (regions p).next =
      some ((pre.find? fun q => size ≤ (regions q).vaSize).getD 0) := by
  induction pre generalizing p fuel with
  | nil =>
    obtain rfl : p = last := chain.head_eq
    have final : (regions p).next = 0 := chain.next_single
    cases fuel with
    | zero => cases enough
    | succ fuel => simp [searchLoop, final]
  | cons q rest ih =>
    obtain rfl : p = q := chain.head_eq
    have more : RegionChain regions (regions p).next (rest ++ [last]) := chain.tail
    have onward : (regions p).next ≠ 0 := fun stops => by simpa using more.empty_iff.mp stops
    cases fuel with
    | zero => cases enough
    | succ fuel =>
      cases fits : decide (size ≤ (regions p).vaSize) with
      | true =>
        have enough := of_decide_eq_true fits
        simp only [searchLoop, if_neg onward, if_pos enough, List.find?_cons, fits, Option.getD_some]
      | false =>
        have short := of_decide_eq_false fits
        have later := ih more (Nat.lt_of_succ_lt_succ enough)
        simp only [searchLoop, if_neg onward, if_neg short, List.find?_cons, fits]
        exact later

theorem searchMmapRegion_spec {size last : Word} (chain : RegionChain regions head (pre ++ [last])) {fuel : Nat}
    (enough : pre.length < fuel) : searchMmapRegion fuel regions head size =
      some (if pre = [] then last else (pre.find? fun q => size ≤ (regions q).vaSize).getD 0) := by
  have proper : head ≠ 0 := fun null => by simpa using chain.empty_iff.mp null
  cases pre with
  | nil =>
    obtain rfl : head = last := chain.head_eq
    have final : (regions head).next = 0 := chain.next_single
    simp only [searchMmapRegion, if_neg proper, if_pos final, if_true]
  | cons q rest =>
    obtain rfl : head = q := chain.head_eq
    have more : RegionChain regions (regions head).next (rest ++ [last]) := chain.tail
    have onward : (regions head).next ≠ 0 := fun stops => by simpa using more.empty_iff.mp stops
    simp only [searchMmapRegion, if_neg proper, if_neg onward, reduceCtorEq, if_false]
    exact searchLoop_spec chain enough

/-- The size search finds nothing in a longer list whose regions but the last are too small. -/
theorem searchMmapRegion_none {size last : Word} (chain : RegionChain regions head (head :: pre ++ [last]))
    (small : ∀ q ∈ head :: pre, (regions q).vaSize < size) {fuel : Nat} (enough : pre.length + 1 < fuel) :
    searchMmapRegion fuel regions head size = some 0 := by
  have missed : (head :: pre).find? (fun q => size ≤ (regions q).vaSize) = none := by
    rw [List.find?_eq_none]
    intro q member large
    have few := small q member
    have many := of_decide_eq_true large
    bv_omega
  rw [searchMmapRegion_spec chain enough, missed]
  rfl

/-- The loop puts the new region before or behind `p`, where a region follows `p`. -/
def InsertStops (regions : Regions) (toInsert p : Word) : Prop :=
  (regions toInsert).vaBase < (regions p).vaBase ∨
    (regions p).range ≤ (regions toInsert).vaBase ∧ (regions toInsert).range < (regions (regions p).next).vaBase

instance {toInsert : Word} : DecidablePred (InsertStops regions toInsert) :=
  fun _ => inferInstanceAs (Decidable (_ ∨ _))

theorem insertLoop_skip {toInsert q prev : Word} {post : List Word} (chain : RegionChain regions p (pre ++ q :: post))
    (skip : ∀ x ∈ pre, ¬ InsertStops regions toInsert x) (fuel : Nat) :
    insertLoop regions head toInsert (pre.length + fuel) prev p =
      insertLoop regions head toInsert fuel (pre.getLastD prev) q := by
  induction pre generalizing p prev with
  | nil =>
    obtain rfl : p = q := chain.head_eq
    rw [List.length_nil, Nat.zero_add, List.getLastD_nil]
  | cons x rest ih =>
    obtain rfl : p = x := chain.head_eq
    have more : RegionChain regions (regions p).next (rest ++ q :: post) := chain.tail
    have proper : (regions p).next ≠ 0 := fun stops => by simpa using more.empty_iff.mp stops
    obtain ⟨notFirst, notBetween⟩ := not_or.mp (skip p List.mem_cons_self)
    have shorter : (p :: rest).length + fuel = rest.length + fuel + 1 := by
      rw [List.length_cons]
      omega
    rw [shorter, List.getLastD_cons]
    simp only [insertLoop, ne_eq, proper, not_false_eq_true, if_true, if_neg notFirst, if_neg notBetween]
    exact ih more fun y member => skip y (List.mem_cons_of_mem p member)

theorem insertLoop_last {toInsert last prev : Word} (chain : RegionChain regions p (pre ++ [last]))
    (skip : ∀ x ∈ pre, ¬ InsertStops regions toInsert x) {fuel : Nat} (enough : pre.length < fuel) :
    insertLoop regions head toInsert fuel prev p =
      some (if (regions last).range ≤ (regions toInsert).vaBase then (1, head, regions.setNext last toInsert)
        else (0, head, regions)) := by
  obtain ⟨spare, rfl⟩ : ∃ spare, fuel = pre.length + (spare + 1) := ⟨fuel - pre.length - 1, by omega⟩
  have final : (regions last).next = 0 := chain.next_last
  rw [insertLoop_skip chain skip, insertLoop]
  simp only [final, ne_eq, not_true_eq_false, if_false]
  split <;> rfl

theorem insertLoop_past {toInsert last prev : Word} (chain : RegionChain regions p (pre ++ [last]))
    (below : Below regions (pre ++ [last]) (regions toInsert).vaBase)
    (fits : (regions toInsert).vaBase.toNat + (regions toInsert).vaSize.toNat < 2 ^ 64)
    {fuel : Nat} (enough : pre.length < fuel) :
    insertLoop regions head toInsert fuel prev p = some (1, head, regions.setNext last toInsert) := by
  have low : ∀ x ∈ pre ++ [last], (regions x).vaBase ≤ (regions toInsert).vaBase := by
    intro x member
    have here := below x member
    bv_omega
  have skip : ∀ x ∈ pre, ¬ InsertStops regions toInsert x := by
    intro x member stops
    have here := low x (List.mem_append_left [last] member)
    have next := low _ (chain.next_mem member)
    unfold InsertStops MemRegion.range at stops
    rcases stops with first | ⟨_, high⟩
    · bv_omega
    · simp only [Regions.next] at next
      bv_omega
  have short : (regions last).range ≤ (regions toInsert).vaBase := by
    have here := below last (List.mem_append_right pre List.mem_cons_self)
    unfold MemRegion.range
    bv_omega
  rw [insertLoop_last chain skip enough, if_pos short]

/-- A region above all others goes to the end of the list that starts behind `head`. -/
theorem mmapRegionInsert_past {toInsert last : Word} (chain : RegionChain regions head (pre ++ [last]))
    (below : Below regions (pre ++ [last]) (regions toInsert).vaBase)
    (fits : (regions toInsert).vaBase.toNat + (regions toInsert).vaSize.toNat < 2 ^ 64)
    {fuel : Nat} (enough : pre.length < fuel) :
    ∃ start linked, mmapRegionInsert fuel regions (regions.next head) toInsert = some (1, start, linked) ∧
      linked.setNext head start = regions.setNext last toInsert := by
  cases pre with
  | nil =>
    obtain rfl : head = last := chain.head_eq
    have final : regions.next head = 0 := chain.next_single
    exact ⟨toInsert, regions, by rw [mmapRegionInsert, if_pos final], rfl⟩
  | cons q rest =>
    obtain rfl : head = q := chain.head_eq
    have more : RegionChain regions (regions.next head) (rest ++ [last]) := chain.tail
    have proper : regions.next head ≠ 0 := by
      intro stops
      have nothing := (stops ▸ more : RegionChain regions 0 (rest ++ [last])).empty_iff.mp rfl
      simp at nothing
    have whole : RegionChain regions head ((head :: rest) ++ last :: []) := chain
    have other : head ≠ last := whole.apart List.mem_cons_self
    have same : (regions.setNext last toInsert).next head = regions.next head := by
      rw [setNext_next, Function.update_of_ne other]
    refine ⟨regions.next head, regions.setNext last toInsert, ?_, ?_⟩
    · rw [mmapRegionInsert, if_neg proper]
      exact insertLoop_past more below.tail fits (Nat.lt_of_succ_lt enough)
    · rw [← same, setNext_self]

end RealmVm
