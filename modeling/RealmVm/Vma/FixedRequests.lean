import RealmVm.Vma.BitmapAccess

/-! `kframe_allocate_fixed` for any 64-bit start and count. -/
namespace RealmVm

/- The bytes of frame `k`. -/
def InArenaFrame (fa : KframeAlloc) (k a : Nat) : Prop :=
  k < fa.frameCount.toNat ∧ fa.frameStart.toNat + k * 4096 ≤ a ∧ a < fa.frameStart.toNat + (k + 1) * 4096

def Requested (start count : Word) (a : Nat) : Prop := start.toNat ≤ a ∧ a < start.toNat + count.toNat * 4096

def UsedAt (fa : KframeAlloc) (k : Nat) : Prop := fa.bitmapFrame (BitVec.ofNat 64 k) = kframeUsedByte

instance (fa : KframeAlloc) (k : Nat) : Decidable (UsedAt fa k) := inferInstanceAs (Decidable (_ = _))

/-- The call reserves what it returns and nothing else, or changes nothing; either way it
stays in the bitmap of the arena. -/
structure ReservesExactly (fa : KframeAlloc) (start count : Word) : Prop where
  requested : (kframeAllocateFixed fa start count).1 ≠ mapFailed → ∀ a, Requested start count a →
    ∃ k, InArenaFrame fa k a ∧ FreeAt fa k ∧ UsedAt (kframeAllocateFixed fa start count).2 k
  others : (kframeAllocateFixed fa start count).1 ≠ mapFailed → ∀ k < fa.frameCount.toNat,
    (∀ a, InArenaFrame fa k a → ¬ Requested start count a) →
    (kframeAllocateFixed fa start count).2.bitmapFrame (BitVec.ofNat 64 k) = fa.bitmapFrame (BitVec.ofNat 64 k)
  failed : (kframeAllocateFixed fa start count).1 = mapFailed → (kframeAllocateFixed fa start count).2 = fa
  inside : ∀ x ∈ BitmapCall.accesses fa (.fixed start count), x.toNat < fa.frameCount.toNat

/- The frame in which the request starts, by the code's division. -/
def firstIndex (fa : KframeAlloc) (start : Word) : Nat := (start.toNat - fa.frameStart.toNat) / 4096

/-- The test rejects the request, or the check loop meets a used frame of the arena, or the
request is a range of whole frames of the arena that are free. -/
def WellPlaced (fa : KframeAlloc) (start count : Word) : Prop :=
  FixedRejected fa start count ∨
    (∃ k, firstIndex fa start ≤ k ∧ k < firstIndex fa start + count.toNat ∧ k < fa.frameCount.toNat ∧ UsedAt fa k) ∨
    (start.toNat - fa.frameStart.toNat) % 4096 = 0 ∧ RunAt fa count.toNat (firstIndex fa start)

variable {fa : KframeAlloc} {start count : Word} {k n : Nat}

theorem firstIndex_eq (above : ¬ start < fa.frameStart) :
    (start - fa.frameStart) / kframeSize = BitVec.ofNat 64 (firstIndex fa start) := by
  have size : kframeSize.toNat = 4096 := by decide
  have offset : (start - fa.frameStart).toNat = start.toNat - fa.frameStart.toNat := by bv_omega
  apply BitVec.eq_of_toNat_eq
  have bound := start.isLt
  rw [BitVec.toNat_udiv, offset, size, BitVec.toNat_ofNat, firstIndex, Nat.mod_eq_of_lt (by omega)]

/-- A used entry ends the check loop. -/
theorem anyUsed_of_usedAt {j : Nat} (low : j ≤ k) (high : k < j + n) (bound : n ≤ 2 ^ 64)
    (used : UsedAt fa k) : anyUsed fa.bitmapFrame (BitVec.ofNat 64 j) n = true :=
  (anyUsed_iff _ _ _ bound).mpr ⟨BitVec.ofNat 64 k, by bv_omega, used⟩

theorem fixed_rejected (rejected : FixedRejected fa start count) :
    kframeAllocateFixed fa start count = (mapFailed, fa) :=
  if_pos rejected

theorem fixed_used (accepted : ¬ FixedRejected fa start count)
    (used : anyUsed fa.bitmapFrame (BitVec.ofNat 64 (firstIndex fa start)) count.toNat = true) :
    kframeAllocateFixed fa start count = (mapFailed, fa) := by
  have test := accepted
  unfold FixedRejected at test
  have index := firstIndex_eq (fun below => test (.inl below))
  simp only [kframeAllocateFixed, if_neg test, index, if_pos used]

theorem fixed_taken (accepted : ¬ FixedRejected fa start count)
    (none : ¬ anyUsed fa.bitmapFrame (BitVec.ofNat 64 (firstIndex fa start)) count.toNat = true) :
    kframeAllocateFixed fa start count =
      (start, markUsed fa (BitVec.ofNat 64 (firstIndex fa start)) count.toNat) := by
  have test := accepted
  unfold FixedRejected at test
  have index := firstIndex_eq (fun below => test (.inl below))
  simp only [kframeAllocateFixed, if_neg test, index, if_neg none]

/- A call that answers -1 without a change. -/
theorem ReservesExactly.of_failed (out : kframeAllocateFixed fa start count = (mapFailed, fa))
    (inside : ∀ x ∈ BitmapCall.accesses fa (.fixed start count), x.toNat < fa.frameCount.toNat) :
    ReservesExactly fa start count := by
  constructor
  · intro success
    exact absurd (congrArg Prod.fst out) success
  · intro success
    exact absurd (congrArg Prod.fst out) success
  · intro _
    exact congrArg Prod.snd out
  · exact inside

/- The check loop stops at the first used entry. -/
theorem first_used {j : Nat} (used : anyUsed fa.bitmapFrame (BitVec.ofNat 64 j) n = true) :
    ∃ k, j ≤ k ∧ k < j + n ∧ UsedAt fa k ∧ ∀ m, j ≤ m → m < k → ¬ UsedAt fa m := by
  induction n generalizing j with
  | zero => exact nomatch used
  | succ n ih =>
    have next : BitVec.ofNat 64 j + 1 = BitVec.ofNat 64 (j + 1) := by bv_omega
    by_cases here : UsedAt fa j
    · exact ⟨j, Nat.le_refl j, by omega, here, fun m low high => absurd low (by omega)⟩
    · have other : ¬ fa.bitmapFrame (BitVec.ofNat 64 j) = kframeUsedByte := here
      rw [anyUsed, beq_eq_false_iff_ne.mpr other, Bool.false_or, next] at used
      obtain ⟨k, low, high, found, before⟩ := ih used
      refine ⟨k, by omega, by omega, found, fun m lower upTo => ?_⟩
      cases Nat.eq_or_lt_of_le lower with
      | inl first => exact first ▸ here
      | inr later => exact before m later upTo

/- Where the check loop looks. -/
theorem accesses_accepted (accepted : ¬ FixedRejected fa start count) :
    BitmapCall.accesses fa (.fixed start count) =
      anyUsedAccesses fa.bitmapFrame (BitVec.ofNat 64 (firstIndex fa start)) count.toNat ++
        if anyUsed fa.bitmapFrame (BitVec.ofNat 64 (firstIndex fa start)) count.toNat then []
        else indices (BitVec.ofNat 64 (firstIndex fa start)) count.toNat := by
  have index := firstIndex_eq (fun below => accepted (.inl below))
  simp only [BitmapCall.accesses, if_neg accepted, index]

/-- A used frame of the arena that the loop meets. -/
theorem ReservesExactly.of_used (accepted : ¬ FixedRejected fa start count) (low : firstIndex fa start ≤ k)
    (high : k < firstIndex fa start + count.toNat) (inArena : k < fa.frameCount.toNat) (used : UsedAt fa k) :
    ReservesExactly fa start count := by
  have hit := anyUsed_of_usedAt low high (Nat.le_of_lt count.isLt) used
  apply ReservesExactly.of_failed (fixed_used accepted hit)
  intro x member
  rw [accesses_accepted accepted, if_pos hit, List.append_nil] at member
  obtain ⟨m, _, _, rfl, before⟩ := mem_anyUsedAccesses.mp member
  have early : m ≤ k := Nat.le_of_not_lt fun later => before k low later used
  rw [BitVec.toNat_ofNat]
  exact Nat.lt_of_le_of_lt (Nat.mod_le m _) (Nat.lt_of_le_of_lt early inArena)

theorem RunAt.unused {j : Nat} (run : RunAt fa n j) : ¬ anyUsed fa.bitmapFrame (BitVec.ofNat 64 j) n = true := by
  intro used
  obtain ⟨k, low, high, busy, _⟩ := first_used used
  have free := run.2 k low high
  unfold FreeAt at free
  unfold UsedAt at busy
  rw [free] at busy
  exact absurd busy (by decide)

/-- A range of whole free frames. -/
theorem ReservesExactly.of_run (space : InAddressSpace fa) (positive : 1 ≤ count.toNat)
    (accepted : ¬ FixedRejected fa start count)
    (aligned : (start.toNat - fa.frameStart.toNat) % 4096 = 0) (run : RunAt fa count.toNat (firstIndex fa start)) :
    ReservesExactly fa start count := by
  have bound := fa.frameCount.isLt
  have fits := run.1
  have taken := fixed_taken accepted run.unused
  have marks := markUsed_marks fa (j := firstIndex fa start) (n := count.toNat) (by omega)
  have above : fa.frameStart.toNat ≤ start.toNat := Nat.le_of_not_lt fun below => accepted (.inl below)
  have place : start.toNat = fa.frameStart.toNat + firstIndex fa start * 4096 := by
    unfold firstIndex
    omega
  have small : ∀ k, k < fa.frameCount.toNat → (BitVec.ofNat 64 k).toNat = k :=
    fun k inside => Nat.mod_eq_of_lt (Nat.lt_trans inside bound)
  constructor
  · intro _ a requested
    unfold Requested at requested
    obtain ⟨k, number⟩ : ∃ k, k = (a - fa.frameStart.toNat) / 4096 := ⟨_, rfl⟩
    have inside : firstIndex fa start ≤ k ∧ k < firstIndex fa start + count.toNat := by omega
    refine ⟨k, ⟨by omega, by omega, by omega⟩, run.2 k inside.1 inside.2, ?_⟩
    rw [UsedAt, taken, marks, small k (by omega), if_pos inside]
  · intro _ k inArena none
    have outside : ¬ (firstIndex fa start ≤ k ∧ k < firstIndex fa start + count.toNat) := by
      rintro ⟨low, high⟩
      refine none (fa.frameStart.toNat + k * 4096) ⟨inArena, Nat.le_refl _, by omega⟩ ?_
      unfold Requested
      omega
    rw [taken, marks, small k inArena, if_neg outside]
  · intro failed
    rw [taken] at failed
    have value : start.toNat = mapFailed.toNat := congrArg BitVec.toNat failed
    have last : mapFailed.toNat = 2 ^ 64 - 1 := by decide
    unfold InAddressSpace at space
    omega
  · intro x member
    rw [accesses_accepted accepted, if_neg run.unused] at member
    cases List.mem_append.mp member with
    | inl read =>
      obtain ⟨m, low, high, rfl, _⟩ := mem_anyUsedAccesses.mp read
      rw [small m (by omega)]
      omega
    | inr written =>
      obtain ⟨low, high⟩ := (mem_indices (by omega)).mp written
      omega

/-- An accepted request that reserves exactly and meets no used frame is well placed. -/
theorem ReservesExactly.placed (positive : 1 ≤ count.toNat) (accepted : ¬ FixedRejected fa start count)
    (none : ¬ anyUsed fa.bitmapFrame (BitVec.ofNat 64 (firstIndex fa start)) count.toNat = true)
    (reserves : ReservesExactly fa start count) :
    (start.toNat - fa.frameStart.toNat) % 4096 = 0 ∧ RunAt fa count.toNat (firstIndex fa start) := by
  have bound := fa.frameCount.isLt
  have wide := count.isLt
  have high := start.isLt
  have above : fa.frameStart.toNat ≤ start.toNat := Nat.le_of_not_lt fun below => accepted (.inl below)
  have taken := fixed_taken accepted none
  have unused : ∀ k, firstIndex fa start ≤ k → k < firstIndex fa start + count.toNat → ¬ UsedAt fa k :=
    fun k low upTo used => none (anyUsed_of_usedAt low upTo (Nat.le_of_lt wide) used)
  -- otherwise the loop reads behind the bitmap
  have fits : firstIndex fa start + count.toNat ≤ fa.frameCount.toNat := by
    by_contra beyond
    obtain ⟨k, number⟩ : ∃ k, k = max (firstIndex fa start) fa.frameCount.toNat := ⟨_, rfl⟩
    have index : firstIndex fa start < 2 ^ 64 := by
      unfold firstIndex
      omega
    have small : (BitVec.ofNat 64 k).toNat = k := Nat.mod_eq_of_lt (by omega)
    have read :
        BitVec.ofNat 64 k ∈ anyUsedAccesses fa.bitmapFrame (BitVec.ofNat 64 (firstIndex fa start)) count.toNat :=
      mem_anyUsedAccesses.mpr ⟨k, by omega, by omega, rfl, fun m low upTo => unused m low (by omega)⟩
    have inside := reserves.inside (BitVec.ofNat 64 k) (by
      rw [accesses_accepted accepted]
      exact List.mem_append_left _ read)
    omega
  have marks := markUsed_marks fa (j := firstIndex fa start) (n := count.toNat) (by omega)
  have success : (kframeAllocateFixed fa start count).1 ≠ mapFailed := by
    intro failed
    have same := congrArg KframeAlloc.availableFrameCount (reserves.failed failed)
    rw [taken, markUsed_available] at same
    bv_omega
  -- otherwise the last bytes lie in a frame behind the marked ones
  have aligned : (start.toNat - fa.frameStart.toNat) % 4096 = 0 := by
    by_contra inPage
    obtain ⟨k, ⟨inArena, low, upTo⟩, free, used⟩ :=
      reserves.requested success (start.toNat + count.toNat * 4096 - 1) ⟨by omega, by omega⟩
    have number : k = firstIndex fa start + count.toNat := by
      unfold firstIndex
      omega
    rw [UsedAt, taken, marks, BitVec.toNat_ofNat, Nat.mod_eq_of_lt (by omega), if_neg (by omega)] at used
    rw [FreeAt, used] at free
    exact absurd free (by decide)
  refine ⟨aligned, fits, fun k low upTo => ?_⟩
  unfold firstIndex at low upTo
  obtain ⟨m, ⟨inArena, first, last⟩, free, _⟩ :=
    reserves.requested success (fa.frameStart.toNat + k * 4096) ⟨by omega, by omega⟩
  have number : m = k := by omega
  exact number ▸ free

/-- What a fixed request returns is what it reserves exactly when it is well placed. -/
theorem reserves_exactly_iff (space : InAddressSpace fa) (positive : 1 ≤ count.toNat) :
    ReservesExactly fa start count ↔ WellPlaced fa start count := by
  by_cases rejected : FixedRejected fa start count
  · refine iff_of_true (ReservesExactly.of_failed (fixed_rejected rejected) ?_) (.inl rejected)
    intro x member
    rw [BitmapCall.accesses, if_pos rejected] at member
    cases member
  · constructor
    · intro reserves
      right
      by_cases used : anyUsed fa.bitmapFrame (BitVec.ofNat 64 (firstIndex fa start)) count.toNat = true
      · obtain ⟨k, low, high, busy, before⟩ := first_used used
        -- the loop looks at that entry, and at the last index of all if it wraps on the way
        have read : ∀ m, firstIndex fa start ≤ m → m ≤ k → (BitVec.ofNat 64 m).toNat < fa.frameCount.toNat := by
          intro m lower upTo
          apply reserves.inside
          rw [accesses_accepted rejected]
          exact List.mem_append_left _
            (mem_anyUsedAccesses.mpr ⟨m, lower, by omega, rfl, fun i low early => before i low (by omega)⟩)
        have bound := fa.frameCount.isLt
        have first : firstIndex fa start ≤ 2 ^ 64 - 1 := by
          have wide := start.isLt
          unfold firstIndex
          omega
        have small : k < 2 ^ 64 := by
          by_contra far
          have last := read (2 ^ 64 - 1) first (by omega)
          rw [BitVec.toNat_ofNat] at last
          omega
        have inArena := read k low (Nat.le_refl k)
        rw [BitVec.toNat_ofNat, Nat.mod_eq_of_lt small] at inArena
        exact .inl ⟨k, low, high, inArena, busy⟩
      · exact .inr (reserves.placed positive rejected used)
    · rintro (test | ⟨k, low, high, inArena, used⟩ | ⟨aligned, run⟩)
      · exact absurd test rejected
      · exact .of_used rejected low high inArena used
      · exact .of_run space positive rejected aligned run

/-- The first of the two free frames around a used one. -/
theorem reserves_exactly_iff_one_frame :
    ReservesExactly splitFrames 0x1000 1 ↔ WellPlaced splitFrames 0x1000 1 :=
  reserves_exactly_iff (by decide) (by decide)

/- Two free frames. -/
def pairFrames : KframeAlloc := ⟨2, 0x1000, fun _ => kframeFreeByte, 2, 2⟩

/-- One frame from the middle of the first one on: the bytes in the second are not reserved. -/
theorem unaligned_start_half_reserved : ¬ ∀ (fa : KframeAlloc) (start count : Word), InAddressSpace fa →
    1 ≤ count.toNat → ReservesExactly fa start count := by
  intro always
  have reserves := always pairFrames 0x1800 1 (by decide) (by decide)
  obtain ⟨k, ⟨inArena, low, high⟩, _, used⟩ :=
    reserves.requested (by decide) 0x2000 ⟨by decide, by decide⟩
  have start : pairFrames.frameStart.toNat = 0x1000 := rfl
  obtain rfl : k = 1 := by omega
  exact absurd used (by decide)

end RealmVm
