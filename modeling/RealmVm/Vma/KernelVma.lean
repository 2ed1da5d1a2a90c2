import RealmVm.Vma.Mmap
import Mathlib.Data.Set.Lattice
import Mathlib.Order.CompletePartialOrder
import Mathlib.Order.Interval.Set.Disjoint

/-! `kernel_vma_alloc`: kernel addresses from `kernel_struct.mmap_region_head`. -/
namespace RealmVm

def initMemRegion (region : MemRegion) (va size : Word) (perm secure : CInt) : MemRegion :=
  let region := { region with vaBase := va, vaSize := size, perm := perm }
  if secure ≠ 0 then { region with isSecure := 1 } else region

def zeroedRegion : MemRegion := ⟨0, 0, 0, 0, 0, 0, 0⟩

/-- What `kernel_vma_regions_alloc` leaves in the head: a copy of the `mmap` region, alone. -/
def kernelVmaRegionsAlloc (regions : Regions) (regionHead mmapStart mmapSize : Word) : Regions :=
  Function.update regions regionHead { initMemRegion zeroedRegion mmapStart mmapSize protRw 1 with next := 0 }

/-- The common end of the branches that chose a target. -/
def kernelVmaRegion (regions : Regions) (block target requestSize : Word) : Word × Regions :=
  if block = 0 then (0, regions)
  else (block, Function.update regions block { zeroedRegion with
    isMapped := 1, isKernel := 1, vaBase := target, vaSize := requestSize, perm := protR ||| protW })

/- `copy` and `block` are what the two `kcalloc` return, `garbage` is the value of the local
variable that one branch reads without having set it. -/
def kernelVmaAlloc (fuel : Nat) (regions : Regions) (regionHead garbage copy block address pageCount : Word)
    (flags : CInt) : Option (Word × Regions) :=
  let requestSize := pageCount * pageSize4KB
  let head := regions regionHead
  if head.isMapped ≠ 0 then
    (if flags = mapFixed then searchMmapRegionFixed fuel regions regionHead address requestSize
      else searchMmapRegion fuel regions regionHead requestSize).map fun target =>
        if target = 0 ∨ target = mapFailed then (0, regions)
        else kernelVmaRegion regions block target requestSize
  else if copy = 0 then some (0, regions)
  else
    let linked := { head with next := copy }
    let put (atHead behind : MemRegion) : Regions :=
      Function.update (Function.update regions copy behind) regionHead atHead
    if flags = mapFixed then
      if head.vaBase < address then
        some (kernelVmaRegion (put { linked with vaSize := head.vaSize - requestSize }
          { head with vaBase := address, vaSize := requestSize }) block garbage requestSize)
      else if address = head.vaBase then
        some (regionHead, put { linked with vaSize := requestSize } { head with vaSize := head.vaSize - requestSize })
      else some (0, put linked head)
    else
      some (regionHead, put { linked with vaSize := requestSize }
        { head with vaSize := head.vaSize - requestSize, vaBase := head.vaBase + requestSize })

/- `kernel_vma_alloc(0, page_count, 0)`, with the blocks `kcalloc` returns in it. -/
structure VmaRequest where
  pageCount : Word
  copy : Word
  block : Word
  garbage : Word

structure AddressRange where
  base : Word
  length : Nat

def AddressRange.addresses (r : AddressRange) : Set Nat := Set.Ico r.base.toNat (r.base.toNat + r.length)

def AddressRange.Apart (r q : AddressRange) : Prop := Disjoint r.addresses q.addresses

/-- The ranges of the calls that return a region, as they are returned. -/
def handedOut (fuel : Nat) (regionHead : Word) : Regions → List VmaRequest → Option (List AddressRange)
  | _, [] => some []
  | regions, request :: later =>
    match kernelVmaAlloc fuel regions regionHead request.garbage request.copy request.block 0 request.pageCount 0 with
    | none => none
    | some (region, regions') => (handedOut fuel regionHead regions' later).map fun ranges =>
      if region = 0 then ranges else ⟨(regions' region).vaBase, request.pageCount.toNat * 4096⟩ :: ranges

/-- No address twice, and none from outside the `mmap` area. -/
structure HandedOutOnce (mmapStart mmapSize : Word) (ranges : List AddressRange) : Prop where
  apart : ranges.Pairwise AddressRange.Apart
  inside : ∀ r ∈ ranges, r.addresses ⊆ Set.Ico mmapStart.toNat (mmapStart.toNat + mmapSize.toNat)

variable {fuel : Nat} {regions : Regions} {regionHead mmapStart mmapSize : Word}

/-- While the head is not marked as mapped, every call that gets its block cuts the same
region down and returns it. -/
theorem kernelVmaAlloc_head (fuel : Nat) (unmapped : (regions regionHead).isMapped = 0) (request : VmaRequest)
    (allocated : request.copy ≠ 0) :
    ∃ regions',
      kernelVmaAlloc fuel regions regionHead request.garbage request.copy request.block 0 request.pageCount 0 =
        some (regionHead, regions') ∧
      (regions' regionHead).isMapped = 0 ∧ (regions' regionHead).vaBase = (regions regionHead).vaBase := by
  have plain : (0 : CInt) ≠ mapFixed := by decide
  have notMapped : ¬ (regions regionHead).isMapped ≠ 0 := fun mapped => mapped unmapped
  simp only [kernelVmaAlloc, if_neg notMapped, if_neg allocated, if_neg plain]
  refine ⟨_, rfl, ?_, ?_⟩
  · rw [Function.update_self]
    exact unmapped
  · rw [Function.update_self]

theorem kernelVmaAlloc_failed (fuel : Nat) (unmapped : (regions regionHead).isMapped = 0) (request : VmaRequest)
    (failed : request.copy = 0) :
    kernelVmaAlloc fuel regions regionHead request.garbage request.copy request.block 0 request.pageCount 0 =
      some (0, regions) := by
  have notMapped : ¬ (regions regionHead).isMapped ≠ 0 := fun mapped => mapped unmapped
  simp only [kernelVmaAlloc, if_neg notMapped, if_pos failed]

/-- Whatever was asked for before, every range starts at the same address. -/
theorem handedOut_eq (proper : regionHead ≠ 0) (unmapped : (regions regionHead).isMapped = 0)
    (base : (regions regionHead).vaBase = mmapStart) (requests : List VmaRequest) :
    handedOut fuel regionHead regions requests =
      some ((requests.filter fun request => request.copy ≠ 0).map fun request =>
        ⟨mmapStart, request.pageCount.toNat * 4096⟩) := by
  induction requests generalizing regions with
  | nil => rfl
  | cons request later ih =>
    cases decEq request.copy 0 with
    | isTrue failed =>
      rw [List.filter_cons_of_neg (by simpa using failed), ← ih unmapped base]
      simp only [handedOut, kernelVmaAlloc_failed fuel unmapped request failed, if_true, Option.map_id']
    | isFalse allocated =>
      obtain ⟨regions', returned, still, same⟩ := kernelVmaAlloc_head fuel unmapped request allocated
      rw [List.filter_cons_of_pos (by simpa using allocated), List.map_cons]
      simp only [handedOut, returned, ih still (same.trans base), Option.map_some, if_neg proper, same, base]

/-- Ranges with one base are disjoint when all but one are empty. -/
theorem one_base_apart_iff (sizes : List Nat) :
    (sizes.map (AddressRange.mk mmapStart)).Pairwise AddressRange.Apart ↔ (sizes.filter (0 < ·)).length ≤ 1 := by
  have both (n m : Nat) : AddressRange.Apart ⟨mmapStart, n⟩ ⟨mmapStart, m⟩ ↔ n = 0 ∨ m = 0 := by
    simp only [AddressRange.Apart, AddressRange.addresses, Set.Ico_disjoint_Ico]
    omega
  induction sizes with
  | nil => simp
  | cons n rest ih =>
    simp only [List.map_cons, List.pairwise_cons, List.forall_mem_map, both, ih]
    cases Nat.eq_zero_or_pos n with
    | inl empty => simp [empty]
    | inr some =>
      have nonzero : n ≠ 0 := by omega
      rw [List.filter_cons_of_pos (by simpa using some), List.length_cons]
      simp only [nonzero, false_or]
      constructor
      · rintro ⟨none, _⟩
        have nothing : rest.filter (0 < ·) = [] := by
          rw [List.filter_eq_nil_iff]
          intro m inside
          simp [none m inside]
        rw [nothing]
        exact Nat.le_refl 1
      · intro few
        have nothing : rest.filter (0 < ·) = [] := List.eq_nil_of_length_eq_zero (by omega)
        refine ⟨fun m inside => ?_, by omega⟩
        have small := List.filter_eq_nil_iff.mp nothing m inside
        simpa using small

/-- The calls that get a region and ask for at least one page. -/
def served (requests : List VmaRequest) : List VmaRequest :=
  requests.filter fun request => request.copy ≠ 0 ∧ request.pageCount ≠ 0

/-- Addresses are handed out once exactly when one call at most asks for any, and none for
more than there is. -/
theorem kernel_addresses_once_iff (fuel : Nat) (regions : Regions) {regionHead : Word} (proper : regionHead ≠ 0)
    (mmapStart mmapSize : Word) (requests : List VmaRequest) :
    (∃ ranges, handedOut fuel regionHead (kernelVmaRegionsAlloc regions regionHead mmapStart mmapSize) requests =
        some ranges ∧ HandedOutOnce mmapStart mmapSize ranges) ↔
      (served requests).length ≤ 1 ∧ ∀ request ∈ served requests, request.pageCount.toNat * 4096 ≤ mmapSize.toNat := by
  have unmapped : (kernelVmaRegionsAlloc regions regionHead mmapStart mmapSize regionHead).isMapped = 0 := by
    rw [kernelVmaRegionsAlloc, Function.update_self]
    rfl
  have base : (kernelVmaRegionsAlloc regions regionHead mmapStart mmapSize regionHead).vaBase = mmapStart := by
    rw [kernelVmaRegionsAlloc, Function.update_self]
    rfl
  rw [handedOut_eq proper unmapped base]
  set returned := requests.filter fun request => request.copy ≠ 0 with returnedDef
  have ranges : (returned.map fun request => AddressRange.mk mmapStart (request.pageCount.toNat * 4096)) =
      (returned.map fun request => request.pageCount.toNat * 4096).map (AddressRange.mk mmapStart) := by
    rw [List.map_map]
    rfl
  have count : ((returned.map fun request => request.pageCount.toNat * 4096).filter (0 < ·)).length =
      (served requests).length := by
    rw [List.filter_map, List.length_map, returnedDef, List.filter_filter]
    apply congrArg List.length
    apply List.filter_congr
    intro request _
    have positive : 0 < request.pageCount.toNat * 4096 ↔ request.pageCount ≠ 0 := by bv_omega
    simp [positive, and_comm]
  constructor
  · rintro ⟨_, here, apart, inside⟩
    obtain rfl := Option.some.inj here
    rw [ranges, one_base_apart_iff, count] at apart
    refine ⟨apart, fun request member => ?_⟩
    obtain ⟨asked, allocated, pages⟩ := by simpa [served] using member
    have member : AddressRange.mk mmapStart (request.pageCount.toNat * 4096) ∈ returned.map fun request =>
        AddressRange.mk mmapStart (request.pageCount.toNat * 4096) :=
      List.mem_map_of_mem (List.mem_filter.mpr ⟨asked, by simpa using allocated⟩)
    have within := inside _ member
    have last : mmapStart.toNat + request.pageCount.toNat * 4096 - 1 ∈ AddressRange.addresses
        ⟨mmapStart, request.pageCount.toNat * 4096⟩ := by
      have positive : request.pageCount ≠ 0 := pages
      constructor <;> (simp only; bv_omega)
    have limit := (within last).2
    omega
  · rintro ⟨few, small⟩
    refine ⟨_, rfl, ?_, ?_⟩
    · rw [ranges, one_base_apart_iff, count]
      exact few
    · intro r member
      obtain ⟨request, asked, rfl⟩ := List.mem_map.mp member
      apply Set.Ico_subset_Ico_right
      cases decEq request.pageCount 0 with
      | isTrue none => simp [none]
      | isFalse some =>
        have inList := List.mem_filter.mp asked
        have fits := small request (List.mem_filter.mpr ⟨inList.1, by
          have allocated := inList.2
          simp only [decide_eq_true_eq] at allocated ⊢
          exact ⟨allocated, some⟩⟩)
        exact Nat.add_le_add_left fits _

/- Eight pages, as `create_user_translation_table` asks for. -/
def tableRequest (copy : Word) : VmaRequest := ⟨8, copy, 0, 0⟩

theorem kernel_addresses_once_iff_one_process :
    ∃ ranges, handedOut 0 0x80C00 (kernelVmaRegionsAlloc (fun _ => zeroedRegion) 0x80C00 0xFFFFF00001600000 0xA00000)
        [tableRequest 0xFFFFF00000601000] = some ranges ∧
      HandedOutOnce 0xFFFFF00001600000 0xA00000 ranges :=
  (kernel_addresses_once_iff 0 (fun _ => zeroedRegion) (by decide) 0xFFFFF00001600000 0xA00000 _).mpr
    ⟨by decide, by decide⟩

/-- Two processes get the same kernel address for their tables. -/
theorem second_process_same_address :
    handedOut 0 0x80C00 (kernelVmaRegionsAlloc (fun _ => zeroedRegion) 0x80C00 0xFFFFF00001600000 0xA00000)
        [tableRequest 0xFFFFF00000601000, tableRequest 0xFFFFF00000602000] =
      some [⟨0xFFFFF00001600000, 0x8000⟩, ⟨0xFFFFF00001600000, 0x8000⟩] ∧
    ¬ HandedOutOnce 0xFFFFF00001600000 0xA00000 [⟨0xFFFFF00001600000, 0x8000⟩, ⟨0xFFFFF00001600000, 0x8000⟩] := by
  refine ⟨by rfl, fun once => ?_⟩
  have apart := (List.pairwise_cons.mp once.apart).1 _ (List.mem_singleton_self _)
  have first : (0xFFFFF00001600000 : Word).toNat ∈ AddressRange.addresses ⟨0xFFFFF00001600000, 0x8000⟩ :=
    ⟨Nat.le_refl _, Nat.lt_add_of_pos_right (by decide)⟩
  exact Set.disjoint_left.mp apart first first

end RealmVm
