import RealmVm.Vma.FirstFit

/-! `kframe_allocate_single_frame` and `kframe_allocate_range` for one frame. -/
namespace RealmVm

variable {fa : KframeAlloc} {i n : Nat} {x : Word}

/-- The search stops at the lowest free entry. -/
theorem firstFree_spec (found : firstFree fa.bitmapFrame (BitVec.ofNat 64 i) n = some x) :
    ∃ k, i ≤ k ∧ k < i + n ∧ x = BitVec.ofNat 64 k ∧ FreeAt fa k ∧ ∀ j, i ≤ j → j < k → ¬ FreeAt fa j := by
  induction n generalizing i with
  | zero => cases found
  | succ n ih =>
    have next : BitVec.ofNat 64 i + 1 = BitVec.ofNat 64 (i + 1) := by bv_omega
    rw [firstFree, next] at found
    by_cases free : FreeAt fa i
    · have here : fa.bitmapFrame (BitVec.ofNat 64 i) = kframeFreeByte := free
      rw [if_pos here] at found
      exact ⟨i, Nat.le_refl i, by omega, (Option.some.inj found).symm, free, fun j low high => absurd high (by omega)⟩
    · have here : ¬ fa.bitmapFrame (BitVec.ofNat 64 i) = kframeFreeByte := free
      rw [if_neg here] at found
      obtain ⟨k, low, high, same, there, lowest⟩ := ih found
      refine ⟨k, by omega, by omega, same, there, fun j first before => ?_⟩
      by_cases start : j = i
      · exact start ▸ free
      · exact lowest j (by omega) before

theorem firstFree_none (nothing : firstFree fa.bitmapFrame (BitVec.ofNat 64 i) n = none) :
    ∀ k, i ≤ k → k < i + n → ¬ FreeAt fa k := by
  induction n generalizing i with
  | zero => exact fun k low high => absurd high (by omega)
  | succ n ih =>
    have next : BitVec.ofNat 64 i + 1 = BitVec.ofNat 64 (i + 1) := by bv_omega
    rw [firstFree, next] at nothing
    by_cases free : fa.bitmapFrame (BitVec.ofNat 64 i) = kframeFreeByte
    · rw [if_pos free] at nothing
      cases nothing
    · rw [if_neg free] at nothing
      intro k low high
      by_cases start : k = i
      · exact start ▸ free
      · exact ih nothing k (by omega) (by omega)

/-- For one frame the search of the range allocator is the same search. -/
theorem rangeSearch_one (fa : KframeAlloc) (i : Word) (n : Nat) :
    rangeSearch fa 1 i mapFailed 0 n =
      (firstFree fa.bitmapFrame i n).elim (mapFailed, 0) fun x => (x * kframeSize + fa.frameStart, 1) := by
  induction n generalizing i with
  | zero => rfl
  | succ n ih =>
    rw [rangeSearch, firstFree]
    by_cases free : fa.bitmapFrame i = kframeFreeByte
    · have one : (0 : Word) + 1 = 1 := rfl
      simp only [if_pos free, if_true, one, Option.elim_some]
    · have zero : ¬ (0 : Word) = 1 := by decide
      simp only [if_neg free, if_neg zero]
      exact ih (i + 1)

/-- The range allocator takes the entry whose index it computes back from the address. -/
theorem range_one (fa : KframeAlloc) : kframeAllocateRange fa 1 =
    if fa.availableFrameCount = 0 then (mapFailed, fa)
    else (firstFree fa.bitmapFrame 0 fa.frameCount.toNat).elim (mapFailed, fa) fun x =>
      (x * kframeSize + fa.frameStart, markUsed fa (x * kframeSize / kframeSize) 1) := by
  have empty : fa.availableFrameCount < 1 ↔ fa.availableFrameCount = 0 := by
    constructor <;> intro few <;> bv_omega
  rw [kframeAllocateRange, rangeSearch_one]
  simp only [empty]
  by_cases none : fa.availableFrameCount = 0
  · rw [if_pos none, if_pos none]
  · rw [if_neg none, if_neg none]
    cases firstFree fa.bitmapFrame 0 fa.frameCount.toNat with
    | none =>
      have zero : ¬ (0 : Word) = 1 := by decide
      exact if_neg zero
    | some x =>
      simp only [Option.elim_some, if_true, BitVec.add_sub_cancel]
      rfl

/-- Both give the same value and leave the same bitmap and counter. -/
structure SameOutcome (single range : Word × KframeAlloc) : Prop where
  value : single.1 = range.1
  bitmap : single.2.bitmapFrame = range.2.bitmapFrame
  counter : single.2.availableFrameCount = range.2.availableFrameCount

theorem Counted.available_ne_zero (counted : Counted fa) (member : i ∈ freeFrames fa) : fa.availableFrameCount ≠ 0 := by
  intro empty
  have card := Finset.card_pos.mpr ⟨i, member⟩
  rw [← counted, empty] at card
  exact Nat.lt_irrefl 0 card

/-- Page numbers from 2^52 on do not come back from their addresses. -/
theorem frameIndex_toNat (k : Nat) : (BitVec.ofNat 64 k * kframeSize / kframeSize).toNat = k % 2 ^ 52 := by
  have size : kframeSize.toNat = 4096 := by decide
  rw [BitVec.toNat_udiv, BitVec.toNat_mul, size, BitVec.toNat_ofNat]
  omega

/-- In an arena of 64-bit addresses that means that the counter is not 0. -/
theorem nearFrame_iff_available (space : InAddressSpace fa) (counted : Counted fa) :
    (∃ k ∈ freeFrames fa, k < 2 ^ 52) ↔ fa.availableFrameCount ≠ 0 := by
  unfold InAddressSpace at space
  constructor
  · rintro ⟨k, member, _⟩
    exact counted.available_ne_zero member
  · intro some
    have more : 0 < (freeFrames fa).card := by
      rw [← counted]
      bv_omega
    obtain ⟨k, member⟩ := Finset.card_pos.mp more
    have inside := (mem_freeFrames.mp member).1
    exact ⟨k, member, by omega⟩

/-- They agree exactly when there is a free frame that a 64-bit address can name; with none left they do not. -/
theorem singleFrame_agrees_iff (counted : Counted fa) :
    SameOutcome (kframeAllocateSingleFrame fa) (kframeAllocateRange fa 1) ↔ ∃ k ∈ freeFrames fa, k < 2 ^ 52 := by
  have bound := fa.frameCount.isLt
  rw [range_one, kframeAllocateSingleFrame]
  cases found : firstFree fa.bitmapFrame 0 fa.frameCount.toNat with
  | none =>
    have nothing : freeFrames fa = ∅ := Finset.eq_empty_of_forall_notMem fun k member => by
      obtain ⟨inside, free⟩ := mem_freeFrames.mp member
      exact firstFree_none (i := 0) found k (Nat.zero_le k) (by omega) free
    have empty : fa.availableFrameCount = 0 := by
      unfold Counted at counted
      rw [nothing, Finset.card_empty] at counted
      exact BitVec.eq_of_toNat_eq counted
    rw [if_pos empty, if_pos empty, nothing]
    refine iff_of_false (fun same => ?_) (by simp)
    have differ : (0 : Word) ≠ mapFailed := by decide
    exact differ same.value
  | some x =>
    obtain ⟨k, _, inside, rfl, free, lowest⟩ := firstFree_spec (i := 0) found
    have member : k ∈ freeFrames fa := mem_freeFrames.mpr ⟨by omega, free⟩
    have some := counted.available_ne_zero member
    simp only [if_neg some, Option.elim_some]
    have index := frameIndex_toNat k
    constructor
    · intro same
      refine ⟨k, member, Nat.lt_of_not_ge fun far => ?_⟩
      have marked := congrFun same.bitmap (BitVec.ofNat 64 k)
      have other : BitVec.ofNat 64 k ≠ BitVec.ofNat 64 k * kframeSize / kframeSize := by
        intro equal
        have number := congrArg BitVec.toNat equal
        rw [index, BitVec.toNat_ofNat, Nat.mod_eq_of_lt (by omega)] at number
        omega
      have left : (markUsed fa (BitVec.ofNat 64 k * kframeSize / kframeSize) 1).bitmapFrame (BitVec.ofNat 64 k) =
          kframeFreeByte := (Function.update_of_ne other ..).trans free
      have used : (Function.update fa.bitmapFrame (BitVec.ofNat 64 k) kframeUsedByte) (BitVec.ofNat 64 k) =
          kframeUsedByte := Function.update_self ..
      exact absurd (used.symm.trans (marked.trans left)) (by decide)
    · rintro ⟨j, free', near⟩
      have order : k ≤ j := Nat.le_of_not_lt fun before =>
        lowest j (Nat.zero_le j) before (mem_freeFrames.mp free').2
      have back : BitVec.ofNat 64 k * kframeSize / kframeSize = BitVec.ofNat 64 k := by
        apply BitVec.eq_of_toNat_eq
        rw [index, BitVec.toNat_ofNat]
        omega
      rw [back]
      exact ⟨BitVec.add_comm .., rfl, rfl⟩

theorem singleFrame_agrees_iff_split :
    SameOutcome (kframeAllocateSingleFrame splitFrames) (kframeAllocateRange splitFrames 1) ↔
      ∃ k ∈ freeFrames splitFrames, k < 2 ^ 52 :=
  singleFrame_agrees_iff (by decide)

/- One frame, and it is used. -/
def fullFrames : KframeAlloc := ⟨1, 0x1000, fun _ => kframeUsedByte, 1, 0⟩

/-- Of an arena that is used up one gives address 0, the other -1. -/
theorem exhausted_differs : Counted fullFrames ∧
    ¬ SameOutcome (kframeAllocateSingleFrame fullFrames) (kframeAllocateRange fullFrames 1) := by
  refine ⟨by decide, fun same => ?_⟩
  exact absurd same.value (by decide)

end RealmVm
