import RealmVm.Vma.Frames
import Mathlib.Data.Finset.Card
import Mathlib.Order.Interval.Finset.Nat

/-! `kframe_allocate_range` as a first-fit search, on any allocator whose counter is right. -/
namespace RealmVm

def freeFrames (fa : KframeAlloc) : Finset Nat := (Finset.range fa.frameCount.toNat).filter (FreeAt fa)

/-- The counter is the number of free entries. -/
def Counted (fa : KframeAlloc) : Prop := fa.availableFrameCount.toNat = (freeFrames fa).card

/-- The arena is a range of 64-bit addresses. -/
def InAddressSpace (fa : KframeAlloc) : Prop := fa.frameStart.toNat + fa.frameCount.toNat * 4096 ≤ 2 ^ 64

instance (fa : KframeAlloc) : Decidable (Counted fa) := inferInstanceAs (Decidable (_ = _))

instance (fa : KframeAlloc) : Decidable (InAddressSpace fa) := inferInstanceAs (Decidable (_ ≤ _))

/-- A run of `count` free frames of the arena. -/
def RunAt (fa : KframeAlloc) (count j : Nat) : Prop := j + count ≤ fa.frameCount.toNat ∧ FreeRun fa count j

/- The allocator after frames `j` to `j + count - 1` became used. -/
structure RunReserved (fa fa' : KframeAlloc) (count j : Nat) : Prop where
  arena : fa'.frameStart = fa.frameStart ∧ fa'.frameCount = fa.frameCount
  inside : ∀ k, j ≤ k → k < j + count → fa'.bitmapFrame (BitVec.ofNat 64 k) = kframeUsedByte
  outside : ∀ i : Word, ¬ (j ≤ i.toNat ∧ i.toNat < j + count) → fa'.bitmapFrame i = fa.bitmapFrame i
  counter : fa'.availableFrameCount.toNat + count = fa.availableFrameCount.toNat

/-- What a first-fit search is: the lowest run is reserved, or there is none. -/
def FirstFit (fa : KframeAlloc) (count : Nat) (out : Word × KframeAlloc) : Prop :=
  (∃ j, RunAt fa count j ∧ (∀ i, RunAt fa count i → j ≤ i) ∧ out.1 = frameAddress fa j ∧ RunReserved fa out.2 count j) ∨
    (¬ ∃ j, RunAt fa count j) ∧ out = (mapFailed, fa)

variable {fa : KframeAlloc} {count : Word} {j k n : Nat}

theorem mem_freeFrames : k ∈ freeFrames fa ↔ k < fa.frameCount.toNat ∧ FreeAt fa k := by
  rw [freeFrames, Finset.mem_filter, Finset.mem_range]

theorem RunAt.le_card (run : RunAt fa n j) : n ≤ (freeFrames fa).card := by
  have sub : Finset.Ico j (j + n) ⊆ freeFrames fa := by
    intro k member
    obtain ⟨low, high⟩ := Finset.mem_Ico.mp member
    exact mem_freeFrames.mpr ⟨Nat.lt_of_lt_of_le high run.1, run.2 k low high⟩
  have card := Finset.card_le_card sub
  rw [Nat.card_Ico] at card
  omega

theorem frameAddress_place (space : InAddressSpace fa) (inside : k < fa.frameCount.toNat) :
    (frameAddress fa k).toNat = fa.frameStart.toNat + k * 4096 := by
  unfold InAddressSpace at space
  unfold frameAddress kframeSize
  bv_omega

theorem frameAddress_not_failed (space : InAddressSpace fa) (inside : k < fa.frameCount.toNat) :
    frameAddress fa k ≠ mapFailed := by
  intro same
  have place := frameAddress_place space inside
  have failed : mapFailed.toNat = 2 ^ 64 - 1 := by decide
  unfold InAddressSpace at space
  rw [same, failed] at place
  omega

theorem index_of_address (space : InAddressSpace fa) (inside : k < fa.frameCount.toNat) :
    (frameAddress fa k - fa.frameStart) / kframeSize = BitVec.ofNat 64 k := by
  have place := frameAddress_place space inside
  unfold InAddressSpace at space
  have offset : (frameAddress fa k - fa.frameStart).toNat = k * 4096 := by bv_omega
  exact index_of_offset offset

/-- What the marking loop does to the bitmap, when its indices do not wrap. -/
theorem markUsed_marks (fa : KframeAlloc) (bound : j + n ≤ 2 ^ 64) (i : Word) :
    (markUsed fa (BitVec.ofNat 64 j) n).bitmapFrame i =
    if j ≤ i.toNat ∧ i.toNat < j + n then kframeUsedByte else fa.bitmapFrame i := by
  have place : (i - BitVec.ofNat 64 j).toNat < n ↔ j ≤ i.toNat ∧ i.toNat < j + n := by
    have wide := i.isLt
    cases Nat.eq_zero_or_pos n with
    | inl none => omega
    | inr some =>
      have small : (BitVec.ofNat 64 j).toNat = j := Nat.mod_eq_of_lt (by omega)
      rw [BitVec.toNat_sub, small]
      omega
  rw [markUsed_bitmapFrame, fillBitmap_apply _ _ _ _ _ (by omega)]
  simp only [place]

/-- The marking loop on frames of the arena. -/
theorem markUsed_reserved (inside : j + n ≤ fa.frameCount.toNat) (enough : n ≤ fa.availableFrameCount.toNat) :
    RunReserved fa (markUsed fa (BitVec.ofNat 64 j) n) n j := by
  have bound := fa.frameCount.isLt
  have marks := markUsed_marks fa (j := j) (n := n) (by omega)
  constructor
  · exact ⟨markUsed_frameStart _ _ _, markUsed_frameCount _ _ _⟩
  · intro k low high
    have small : (BitVec.ofNat 64 k).toNat = k := Nat.mod_eq_of_lt (by omega)
    rw [marks, small, if_pos ⟨low, high⟩]
  · intro i outside
    rw [marks, if_neg outside]
  · rw [markUsed_available]
    have wide := fa.availableFrameCount.isLt
    bv_omega

/-- A search that runs off the end of the bitmap returns where the last run started. -/
theorem SearchInvariant.atEnd {l : Nat} {target : Word} (space : InAddressSpace fa)
    (search : SearchInvariant fa n fa.frameCount.toNat l target) (some : 0 < fa.frameCount.toNat) :
    target = mapFailed ↔ ¬ FreeAt fa (fa.frameCount.toNat - 1) := by
  have within := search.within
  cases Nat.eq_zero_or_pos l with
  | inl none =>
    subst none
    have last := search.edge some
    rw [Nat.sub_zero] at last
    rw [search.target_eq, if_pos rfl]
    exact iff_of_true rfl last
  | inr more =>
    have last := search.run (fa.frameCount.toNat - 1) (by omega) (by omega)
    rw [search.target_eq, if_neg (by omega)]
    exact iff_of_false (frameAddress_not_failed space (by omega)) (not_not_intro last)

/-- The search finds the lowest run, or stops behind the last frame. -/
theorem search_outcome (space : InAddressSpace fa) (positive : 1 ≤ count.toNat) :
    ((rangeSearch fa count 0 mapFailed 0 fa.frameCount.toNat).2 = count ∧
      ∃ j, RunAt fa count.toNat j ∧ (∀ i, RunAt fa count.toNat i → j ≤ i) ∧
        (rangeSearch fa count 0 mapFailed 0 fa.frameCount.toNat).1 = frameAddress fa j) ∨
    ((rangeSearch fa count 0 mapFailed 0 fa.frameCount.toNat).2 ≠ count ∧
      ∃ l, SearchInvariant fa count.toNat fa.frameCount.toNat l
        (rangeSearch fa count 0 mapFailed 0 fa.frameCount.toNat).1) := by
  have distinct : ∀ k, k < fa.frameCount.toNat → frameAddress fa k ≠ mapFailed :=
    fun k inside => frameAddress_not_failed space inside
  have start := SearchInvariant.start fa count.toNat positive
  rcases rangeSearch_spec fa count positive distinct _ 0 0 mapFailed (Nat.zero_add _) start _ rfl with
    ⟨hit, j, inside, place, run, lowest⟩ | missed
  · exact .inl ⟨hit, j, ⟨inside, run⟩, fun i other => Nat.le_of_not_lt fun lower => lowest i lower other.2, place⟩
  · exact .inr missed

/-- It is one exactly when there is a run, when too few frames are free in total, or when
the last frame of the arena is used. -/
theorem firstFit_iff (space : InAddressSpace fa) (counted : Counted fa) (positive : 1 ≤ count.toNat) :
    FirstFit fa count.toNat (kframeAllocateRange fa count) ↔
      (∃ j, RunAt fa count.toNat j) ∨ fa.availableFrameCount.toNat < count.toNat ∨
        ¬ FreeAt fa (fa.frameCount.toNat - 1) := by
  cases Nat.lt_or_ge fa.availableFrameCount.toNat count.toNat with
  | inl few =>
    have none : ¬ ∃ j, RunAt fa count.toNat j := by
      rintro ⟨j, run⟩
      have card := run.le_card
      rw [← counted] at card
      omega
    have failed : kframeAllocateRange fa count = (mapFailed, fa) := if_pos few
    exact iff_of_true (.inr ⟨none, failed⟩) (.inr (.inl few))
  | inr enough =>
    have many : ¬ fa.availableFrameCount < count := Nat.not_lt.mpr enough
    have card := (Finset.card_filter_le (Finset.range fa.frameCount.toNat) (FreeAt fa)).trans
      (Nat.le_of_eq (Finset.card_range _))
    have some : 0 < fa.frameCount.toNat := by
      unfold Counted freeFrames at counted
      omega
    rcases search_outcome space positive with ⟨hit, j, run, lowest, place⟩ | ⟨miss, l, search⟩
    · -- a run of the wanted length: the lowest one
      have short := run.1
      have index := index_of_address space (k := j) (by omega)
      have taken : kframeAllocateRange fa count =
          (frameAddress fa j, markUsed fa (BitVec.ofNat 64 j) count.toNat) := by
        simp only [kframeAllocateRange, if_neg many, if_pos hit, place, index]
      refine iff_of_true (.inl ⟨j, run, lowest, ?_, ?_⟩) (.inl ⟨j, run⟩)
      · rw [taken]
      · rw [taken]
        exact markUsed_reserved short enough
    · -- the last run is too short, or there is none
      have none : ¬ ∃ j, RunAt fa count.toNat j := fun ⟨j, inside, run⟩ => search.earlier j inside run
      have out : kframeAllocateRange fa count = ((rangeSearch fa count 0 mapFailed 0 fa.frameCount.toNat).1, fa) := by
        simp only [kframeAllocateRange, if_neg many, if_neg miss]
      have last := search.atEnd space some
      rw [out]
      constructor
      · rintro (⟨j, run, _⟩ | ⟨_, failed⟩)
        · exact absurd ⟨j, run⟩ none
        · exact .inr (.inr (last.mp (congrArg Prod.fst failed)))
      · rintro (run | few | used)
        · exact absurd run none
        · exact absurd few (Nat.not_lt.mpr enough)
        · exact .inr ⟨none, Prod.ext (last.mpr used) rfl⟩

/- Three frames, of which the middle one is used. -/
def splitFrames : KframeAlloc := ⟨3, 0x1000, fun i => if i = 1 then kframeUsedByte else kframeFreeByte, 3, 2⟩

theorem firstFit_iff_one_frame : FirstFit splitFrames 1 (kframeAllocateRange splitFrames 1) ↔
    (∃ j, RunAt splitFrames 1 j) ∨ (2 : Word).toNat < 1 ∨ ¬ FreeAt splitFrames 2 :=
  firstFit_iff (by decide : InAddressSpace splitFrames) (by decide) (by decide : 1 ≤ (1 : Word).toNat)

/-- Two frames in a row are not free, and the last frame is returned for them. -/
theorem short_run_returned : ¬ ∀ (fa : KframeAlloc) (count : Word), InAddressSpace fa → Counted fa → 1 ≤ count.toNat →
    FirstFit fa count.toNat (kframeAllocateRange fa count) := by
  intro always
  have fits := always splitFrames 2 (by decide) (by decide) (by decide)
  have none : ¬ ∃ j, RunAt splitFrames 2 j := by
    rintro ⟨j, inside, run⟩
    have three : splitFrames.frameCount.toNat = 3 := rfl
    have used : ¬ FreeAt splitFrames 1 := by decide
    exact used (run 1 (by omega) (by omega))
  cases fits with
  | inl found => exact none ⟨_, found.choose_spec.1⟩
  | inr failed => exact absurd (congrArg Prod.fst failed.2) (by decide)

end RealmVm
