import RealmVm.Lib.Run
import RealmVm.Vma.FixedRequests
import RealmVm.Vma.SingleFrame

/-! The counter of free frames over runs of requests and frees of any address. -/
namespace RealmVm

open Lib

/-- The arena is in the address space, every entry is free or used, and the counter is right. -/
structure Accounted (fa : KframeAlloc) : Prop where
  space : InAddressSpace fa
  bytes : ∀ k < fa.frameCount.toNat, FreeAt fa k ∨ UsedAt fa k
  counted : Counted fa

/- An allocator and all entries that were read or written so far. -/
structure Traced where
  fa : KframeAlloc
  touched : List Word

def Traced.next (s : Traced) (call : BitmapCall) : Traced :=
  ⟨(call.perform s.fa).2, s.touched ++ call.accesses s.fa⟩

/- A fixed request lies in the arena. -/
def BitmapCall.InRange (fa : KframeAlloc) : BitmapCall → Prop
  | .fixed start count => fa.frameStart ≤ start ∧
      start.toNat + count.toNat * 4096 ≤ fa.frameStart.toNat + fa.frameCount.toNat * 4096
  | _ => True

/- Where an address is freed, it lies in a used frame, or the code rejects it. -/
def BitmapCall.FreesUsed (fa : KframeAlloc) : BitmapCall → Prop
  | .free address => FreeRejected fa address ∨
      firstIndex fa address < fa.frameCount.toNat ∧ UsedAt fa (firstIndex fa address)
  | _ => True

/- The allocator after `kframe_allocator_init`, which writes the whole bitmap. -/
def freshlyInit (fa : KframeAlloc) (bitmapFrame : Word → Byte) (bitmapSize frameStart size : Word) : Traced :=
  ⟨(kframeAllocatorInit fa bitmapFrame bitmapSize frameStart size).2, indices 0 bitmapSize.toNat⟩

/-- The counter is the number of free entries, it is at most the number of frames, and nothing
outside the bitmap of the arena was touched. -/
structure AccountingRight (s : Traced) : Prop where
  counted : Counted s.fa
  bounded : s.fa.availableFrameCount.toNat ≤ s.fa.frameCount.toNat
  inside : ∀ x ∈ s.touched, x.toNat < s.fa.frameCount.toNat

variable {fa fa' : KframeAlloc} {count start address : Word} {j k n : Nat}

theorem Counted.bounded (counted : Counted fa) : fa.availableFrameCount.toNat ≤ fa.frameCount.toNat := by
  have card := Finset.card_filter_le (Finset.range fa.frameCount.toNat) (FreeAt fa)
  rw [Finset.card_range] at card
  exact Nat.le_trans (Nat.le_of_eq counted) card

theorem freeAt_or_used (bytes : FreeAt fa k ∨ UsedAt fa k) (other : ¬ UsedAt fa k) : FreeAt fa k :=
  bytes.resolve_right other

theorem not_freeAt (used : UsedAt fa k) : ¬ FreeAt fa k := by
  intro free
  rw [UsedAt, free] at used
  exact absurd used (by decide)

/-- A run of free frames becomes used. -/
theorem Accounted.reserve (accounted : Accounted fa) (run : RunAt fa n j) :
    Accounted (markUsed fa (BitVec.ofNat 64 j) n) := by
  have bound := fa.frameCount.isLt
  have fits := run.1
  have enough := run.le_card
  rw [← accounted.counted] at enough
  obtain ⟨⟨frameStart, frameCount⟩, inside, outside, counter⟩ := markUsed_reserved run.1 enough
  have small : ∀ k, k < fa.frameCount.toNat → (BitVec.ofNat 64 k).toNat = k :=
    fun k inArena => Nat.mod_eq_of_lt (Nat.lt_trans inArena bound)
  have left : freeFrames (markUsed fa (BitVec.ofNat 64 j) n) = freeFrames fa \ Finset.Ico j (j + n) := by
    ext k
    rw [Finset.mem_sdiff, mem_freeFrames, mem_freeFrames, frameCount, Finset.mem_Ico]
    constructor
    · rintro ⟨inArena, free⟩
      have other : ¬ (j ≤ k ∧ k < j + n) := fun marked => not_freeAt (inside k marked.1 marked.2) free
      rw [FreeAt, outside _ (by rw [small k inArena]; exact other)] at free
      exact ⟨⟨inArena, free⟩, other⟩
    · rintro ⟨⟨inArena, free⟩, other⟩
      refine ⟨inArena, ?_⟩
      rw [FreeAt, outside _ (by rw [small k inArena]; exact other)]
      exact free
  constructor
  · unfold InAddressSpace
    rw [frameStart, frameCount]
    exact accounted.space
  · intro k inArena
    rw [frameCount] at inArena
    by_cases marked : j ≤ k ∧ k < j + n
    · exact .inr (inside k marked.1 marked.2)
    · have same := outside (BitVec.ofNat 64 k) (by rw [small k inArena]; exact marked)
      unfold FreeAt UsedAt
      rw [same]
      exact accounted.bytes k inArena
  · have sub : Finset.Ico j (j + n) ⊆ freeFrames fa := by
      intro k member
      obtain ⟨low, high⟩ := Finset.mem_Ico.mp member
      exact mem_freeFrames.mpr ⟨Nat.lt_of_lt_of_le high run.1, run.2 k low high⟩
    have card := Finset.card_sdiff_add_card_eq_card sub
    have before := accounted.counted
    unfold Counted at before ⊢
    rw [left]
    rw [Nat.card_Ico] at card
    omega

/-- A used frame becomes free. -/
theorem Accounted.release (accounted : Accounted fa) (inArena : k < fa.frameCount.toNat) (used : UsedAt fa k) :
    Accounted { fa with
      bitmapFrame := Function.update fa.bitmapFrame (BitVec.ofNat 64 k) kframeFreeByte
      availableFrameCount := fa.availableFrameCount + 1 } := by
  have bound := fa.frameCount.isLt
  have before := accounted.counted
  have other : ∀ m, m < fa.frameCount.toNat → m ≠ k → BitVec.ofNat 64 m ≠ BitVec.ofNat 64 k := by
    intro m small different same
    have value := congrArg BitVec.toNat same
    rw [BitVec.toNat_ofNat, BitVec.toNat_ofNat] at value
    omega
  obtain ⟨fa', same⟩ : ∃ fa', fa' = { fa with
    bitmapFrame := Function.update fa.bitmapFrame (BitVec.ofNat 64 k) kframeFreeByte
    availableFrameCount := fa.availableFrameCount + 1 } := ⟨_, rfl⟩
  rw [← same]
  have frameCount : fa'.frameCount = fa.frameCount := by rw [same]
  have here : FreeAt fa' k := by
    rw [FreeAt, same]
    exact Function.update_self ..
  have elsewhere : ∀ m, m < fa.frameCount.toNat → m ≠ k →
      fa'.bitmapFrame (BitVec.ofNat 64 m) = fa.bitmapFrame (BitVec.ofNat 64 m) := by
    intro m small different
    rw [same]
    exact Function.update_of_ne (other m small different) _ _
  have more : freeFrames fa' = insert k (freeFrames fa) := by
    ext m
    rw [Finset.mem_insert, mem_freeFrames, mem_freeFrames, frameCount]
    cases decEq m k with
    | isTrue equal =>
      subst equal
      exact iff_of_true ⟨inArena, here⟩ (.inl rfl)
    | isFalse different =>
      simp only [different, false_or]
      refine and_congr_right fun small => ?_
      rw [FreeAt, elsewhere m small different]
      rfl
  have card : (freeFrames fa').card = (freeFrames fa).card + 1 := by
    rw [more]
    exact Finset.card_insert_of_notMem fun member => not_freeAt used (mem_freeFrames.mp member).2
  constructor
  · rw [same]
    exact accounted.space
  · intro m small
    rw [frameCount] at small
    cases decEq m k with
    | isTrue equal => exact .inl (equal ▸ here)
    | isFalse different =>
      unfold FreeAt UsedAt
      rw [elsewhere m small different]
      exact accounted.bytes m small
  · have le := before.bounded
    unfold Counted at before ⊢
    rw [card, ← before, same]
    have room : (freeFrames fa).card < fa.frameCount.toNat := by
      have subset : freeFrames fa ⊆ (Finset.range fa.frameCount.toNat).erase k := by
        intro m member
        obtain ⟨small, free⟩ := mem_freeFrames.mp member
        refine Finset.mem_erase.mpr ⟨?_, Finset.mem_range.mpr small⟩
        rintro rfl
        exact not_freeAt used free
      have fewer := Finset.card_le_card subset
      rw [Finset.card_erase_of_mem (Finset.mem_range.mpr inArena), Finset.card_range] at fewer
      omega
    show (fa.availableFrameCount + 1).toNat = _
    bv_omega

theorem perform_arena (call : BitmapCall) (fa : KframeAlloc) :
    (call.perform fa).2.frameStart = fa.frameStart ∧ (call.perform fa).2.frameCount = fa.frameCount := by
  cases call with
  | range count => exact kframeAllocateRange_arena fa count
  | fixed start count => exact kframeAllocateFixed_arena fa start count
  | single =>
    simp only [BitmapCall.perform, kframeAllocateSingleFrame]
    split
    · exact ⟨rfl, rfl⟩
    · split <;> exact ⟨rfl, rfl⟩
  | free address => exact kframeFree_arena fa address

/- Every call keeps the books, when it is in range and frees no frame that is free. -/
section Calls

theorem indices_inside (fits : j + n ≤ fa.frameCount.toNat) : ∀ x ∈ indices (BitVec.ofNat 64 j) n,
    x.toNat < fa.frameCount.toNat := by
  intro x member
  have bound := fa.frameCount.isLt
  have place := (mem_indices (by omega)).mp member
  omega

theorem search_inside : ∀ x ∈ rangeSearchAccesses fa.bitmapFrame count 0 0 fa.frameCount.toNat,
    x.toNat < fa.frameCount.toNat := by
  intro x member
  have bound := fa.frameCount.isLt
  have place := mem_rangeSearchAccesses (j := 0) member (by omega)
  omega

theorem range_accounted (accounted : Accounted fa) :
    Accounted (kframeAllocateRange fa count).2 ∧
      ∀ x ∈ BitmapCall.accesses fa (.range count), x.toNat < fa.frameCount.toNat := by
  simp only [BitmapCall.accesses, kframeAllocateRange]
  by_cases few : fa.availableFrameCount < count
  · rw [if_pos few, if_pos few]
    exact ⟨accounted, List.forall_mem_nil _⟩
  · rw [if_neg few, if_neg few]
    cases Nat.eq_zero_or_pos count.toNat with
    | inl zero =>
      -- nothing is marked
      rw [zero]
      split
      · exact ⟨accounted, List.forall_mem_append.mpr ⟨search_inside, List.forall_mem_nil _⟩⟩
      · exact ⟨accounted, List.forall_mem_append.mpr ⟨search_inside, List.forall_mem_nil _⟩⟩
    | inr positive =>
      rcases search_outcome accounted.space positive with ⟨hit, j, run, _, place⟩ | ⟨miss, _⟩
      · have fits := run.1
        have index := index_of_address accounted.space (k := j) (by omega)
        rw [if_pos hit, if_pos hit, place, index]
        exact ⟨accounted.reserve run, List.forall_mem_append.mpr ⟨search_inside, indices_inside fits⟩⟩
      · rw [if_neg miss, if_neg miss]
        exact ⟨accounted, List.forall_mem_append.mpr ⟨search_inside, List.forall_mem_nil _⟩⟩

theorem fixed_accounted (accounted : Accounted fa) (inRange : BitmapCall.InRange fa (.fixed start count)) :
    Accounted (kframeAllocateFixed fa start count).2 ∧
      ∀ x ∈ BitmapCall.accesses fa (.fixed start count), x.toNat < fa.frameCount.toNat := by
  obtain ⟨above, fits⟩ := inRange
  have low : fa.frameStart.toNat ≤ start.toNat := above
  have inside : firstIndex fa start + count.toNat ≤ fa.frameCount.toNat := by
    unfold firstIndex
    omega
  by_cases rejected : FixedRejected fa start count
  · rw [fixed_rejected rejected, BitmapCall.accesses, if_pos rejected]
    exact ⟨accounted, List.forall_mem_nil _⟩
  · have bound := fa.frameCount.isLt
    have read : ∀ x ∈ anyUsedAccesses fa.bitmapFrame (BitVec.ofNat 64 (firstIndex fa start)) count.toNat,
        x.toNat < fa.frameCount.toNat := by
      intro x member
      obtain ⟨m, _, high, rfl, _⟩ := mem_anyUsedAccesses.mp member
      rw [BitVec.toNat_ofNat, Nat.mod_eq_of_lt (by omega)]
      omega
    rw [accesses_accepted rejected]
    by_cases used : anyUsed fa.bitmapFrame (BitVec.ofNat 64 (firstIndex fa start)) count.toNat = true
    · rw [fixed_used rejected used, if_pos used]
      exact ⟨accounted, List.forall_mem_append.mpr ⟨read, List.forall_mem_nil _⟩⟩
    · have run : RunAt fa count.toNat (firstIndex fa start) := by
        refine ⟨inside, fun k first last => ?_⟩
        apply freeAt_or_used (accounted.bytes k (by omega))
        intro busy
        exact used (anyUsed_of_usedAt first last (Nat.le_of_lt count.isLt) busy)
      rw [fixed_taken rejected used, if_neg used]
      exact ⟨accounted.reserve run, List.forall_mem_append.mpr ⟨read, indices_inside inside⟩⟩

theorem single_accounted (accounted : Accounted fa) :
    Accounted (kframeAllocateSingleFrame fa).2 ∧
      ∀ x ∈ BitmapCall.accesses fa .single, x.toNat < fa.frameCount.toNat := by
  have bound := fa.frameCount.isLt
  constructor
  · simp only [kframeAllocateSingleFrame]
    split
    · exact accounted
    · cases found : firstFree fa.bitmapFrame 0 fa.frameCount.toNat with
      | none => exact accounted
      | some x =>
        obtain ⟨k, _, high, rfl, free, _⟩ := firstFree_spec (i := 0) found
        refine accounted.reserve (n := 1) (j := k) ⟨by omega, fun m low upTo => ?_⟩
        obtain rfl : m = k := by omega
        exact free
  · intro x member
    rw [BitmapCall.accesses] at member
    split at member
    · cases member
    · have place := mem_firstFreeAccesses (j := 0) member (by omega)
      omega

theorem free_rejected (rejected : FreeRejected fa address) : kframeFree fa address = fa := if_pos rejected

theorem free_taken (accepted : ¬ FreeRejected fa address) : kframeFree fa address =
    { fa with
      bitmapFrame := Function.update fa.bitmapFrame (BitVec.ofNat 64 (firstIndex fa address)) kframeFreeByte
      availableFrameCount := fa.availableFrameCount + 1 } := by
  have test := accepted
  unfold FreeRejected at test
  have index := firstIndex_eq fun below => test (.inl below)
  simp only [kframeFree, if_neg test, index]

theorem accesses_freed (accepted : ¬ FreeRejected fa address) :
    BitmapCall.accesses fa (.free address) = [BitVec.ofNat 64 (firstIndex fa address)] := by
  have index := firstIndex_eq fun below => accepted (.inl below)
  rw [BitmapCall.accesses, if_neg accepted, index]

theorem free_accounted (accounted : Accounted fa) (frees : BitmapCall.FreesUsed fa (.free address)) :
    Accounted (kframeFree fa address) ∧
      ∀ x ∈ BitmapCall.accesses fa (.free address), x.toNat < fa.frameCount.toNat := by
  by_cases rejected : FreeRejected fa address
  · rw [free_rejected rejected, BitmapCall.accesses, if_pos rejected]
    exact ⟨accounted, List.forall_mem_nil _⟩
  · obtain ⟨inArena, used⟩ := frees.resolve_left rejected
    have bound := fa.frameCount.isLt
    rw [free_taken rejected, accesses_freed rejected]
    refine ⟨accounted.release inArena used, fun x member => ?_⟩
    rw [List.mem_singleton.mp member, BitVec.toNat_ofNat, Nat.mod_eq_of_lt (by omega)]
    exact inArena

theorem call_accounted (accounted : Accounted fa) (call : BitmapCall) (inRange : call.InRange fa)
    (frees : call.FreesUsed fa) :
    Accounted (call.perform fa).2 ∧ ∀ x ∈ call.accesses fa, x.toNat < fa.frameCount.toNat := by
  cases call with
  | range count => exact range_accounted accounted
  | fixed start count => exact fixed_accounted accounted inRange
  | single => exact single_accounted accounted
  | free address => exact free_accounted accounted frees

/-- A free that is not orderly spoils the counter or leaves the bitmap. -/
theorem frees_used_of_right (accounted : Accounted fa) {touched : List Word} {call : BitmapCall}
    (right : AccountingRight (Traced.next ⟨fa, touched⟩ call)) : call.FreesUsed fa := by
  cases call with
  | range count => exact trivial
  | fixed start count => exact trivial
  | single => exact trivial
  | free address =>
    by_cases rejected : FreeRejected fa address
    · exact .inl rejected
    · right
      have wide := address.isLt
      have inArena : firstIndex fa address < fa.frameCount.toNat := by
        have member : BitVec.ofNat 64 (firstIndex fa address) ∈ touched ++ BitmapCall.accesses fa (.free address) := by
          rw [accesses_freed rejected]
          exact List.mem_append_right _ (List.mem_singleton_self _)
        have inside := right.inside _ member
        have count : (Traced.next ⟨fa, touched⟩ (.free address)).fa.frameCount = fa.frameCount :=
          (kframeFree_arena fa address).2
        rw [count, BitVec.toNat_ofNat] at inside
        unfold firstIndex at *
        omega
      refine ⟨inArena, ?_⟩
      by_contra unused
      -- the entry is free already, and the counter moves
      have free := freeAt_or_used (accounted.bytes _ inArena) unused
      have same : kframeFree fa address = { fa with availableFrameCount := fa.availableFrameCount + 1 } := by
        rw [free_taken rejected, ← free, Function.update_eq_self]
      have after : Counted (kframeFree fa address) := right.counted
      have before := accounted.counted
      rw [same] at after
      have moved : (fa.availableFrameCount + 1).toNat = fa.availableFrameCount.toNat := after.trans before.symm
      bv_omega

end Calls

/- Runs. -/
section Runs

theorem init_accounted (fa : KframeAlloc) (bitmapFrame : Word → Byte) {bitmapSize frameStart size : Word}
    (nonempty : size ≠ 0) (inSpace : frameStart.toNat + size.toNat ≤ 2 ^ 64)
    (entries : bitmapSize.toNat = size.toNat / 4096) :
    Accounted (freshlyInit fa bitmapFrame bitmapSize frameStart size).fa ∧
      ∀ x ∈ (freshlyInit fa bitmapFrame bitmapSize frameStart size).touched,
        x.toNat < (freshlyInit fa bitmapFrame bitmapSize frameStart size).fa.frameCount.toNat := by
  have count : (size / kframeSize).toNat = size.toNat / 4096 := BitVec.toNat_udiv
  have bound := size.isLt
  have init : (freshlyInit fa bitmapFrame bitmapSize frameStart size).fa =
      ⟨size / kframeSize, frameStart, fillBitmap bitmapFrame kframeFreeByte 0 bitmapSize.toNat, bitmapSize,
        size / pageSize4KB⟩ := by
    rw [freshlyInit, kframeAllocatorInit, if_neg nonempty]
  have free : ∀ k < size.toNat / 4096, FreeAt (freshlyInit fa bitmapFrame bitmapSize frameStart size).fa k := by
    intro k inArena
    rw [init]
    show fillBitmap bitmapFrame kframeFreeByte 0 bitmapSize.toNat (BitVec.ofNat 64 k) = kframeFreeByte
    rw [fillBitmap_apply _ _ _ _ _ (by omega), if_pos (by bv_omega)]
  constructor
  · constructor
    · rw [init]
      show frameStart.toNat + (size / kframeSize).toNat * 4096 ≤ 2 ^ 64
      omega
    · intro k inArena
      rw [init, count] at inArena
      exact .inl (free k inArena)
    · have all : freeFrames (freshlyInit fa bitmapFrame bitmapSize frameStart size).fa =
          Finset.range (size.toNat / 4096) := by
        ext k
        rw [mem_freeFrames, Finset.mem_range]
        constructor
        · rintro ⟨inArena, _⟩
          rw [init, count] at inArena
          exact inArena
        · intro inArena
          refine ⟨?_, free k inArena⟩
          rw [init, count]
          exact inArena
      unfold Counted
      rw [all, Finset.card_range, init]
      exact count
  · intro x member
    have place := (mem_indices (j := 0) (by omega)).mp member
    rw [init, count]
    omega

/-- In every run of requests in range and frees of any address: the books are right after
every call exactly when every address that is freed and not rejected lies in a used frame. -/
theorem frame_accounting_iff (fa : KframeAlloc) (bitmapFrame : Word → Byte) {bitmapSize frameStart size : Word}
    (nonempty : size ≠ 0) (inSpace : frameStart.toNat + size.toNat ≤ 2 ^ 64)
    (entries : bitmapSize.toNat = size.toNat / 4096) (calls : List BitmapCall)
    (inRange : Along Traced.next (fun s call => call.InRange s.fa)
      (freshlyInit fa bitmapFrame bitmapSize frameStart size) calls) :
    Along Traced.next (fun s call => AccountingRight (s.next call))
      (freshlyInit fa bitmapFrame bitmapSize frameStart size)
        calls ↔
      Along Traced.next (fun s call => call.FreesUsed s.fa) (freshlyInit fa bitmapFrame bitmapSize frameStart size)
        calls := by
  have step : ∀ s : Traced, ∀ call, Accounted s.fa ∧ (∀ x ∈ s.touched, x.toNat < s.fa.frameCount.toNat) →
      call.InRange s.fa → call.FreesUsed s.fa →
        Accounted (s.next call).fa ∧ ∀ x ∈ (s.next call).touched, x.toNat < (s.next call).fa.frameCount.toNat := by
    rintro s call ⟨accounted, inside⟩ allowed frees
    obtain ⟨after, accesses⟩ := call_accounted accounted call allowed frees
    refine ⟨after, ?_⟩
    have count : (s.next call).fa.frameCount = s.fa.frameCount := (perform_arena call s.fa).2
    rw [count]
    exact List.forall_mem_append.mpr ⟨inside, accesses⟩
  refine along_iff_of (I := fun s => Accounted s.fa ∧ ∀ x ∈ s.touched, x.toNat < s.fa.frameCount.toNat) ?_ step
    (init_accounted fa bitmapFrame nonempty inSpace entries) calls inRange
  intro s call good allowed
  constructor
  · exact frees_used_of_right good.1
  · intro frees
    obtain ⟨after, inside⟩ := step s call good allowed frees
    exact ⟨after.counted, after.counted.bounded, inside⟩

/- Two frames from 0x1000 on, with two entries. -/
def twoEntries : Traced := freshlyInit splitFrames (fun _ => 0xFF) 2 0x1000 0x2000

theorem frame_accounting_iff_one_request :
    Along Traced.next (fun s call => AccountingRight (s.next call)) twoEntries [.range 1, .free 0x1000] ↔
      Along Traced.next (fun s call => call.FreesUsed s.fa) twoEntries [.range 1, .free 0x1000] :=
  frame_accounting_iff splitFrames (fun _ => 0xFF) (by decide) (by decide) (by decide) _ ⟨trivial, trivial, trivial⟩

/-- The address right behind the arena is not rejected, and the entry behind the bitmap is written. -/
theorem free_behind_arena :
    ¬ ∀ calls : List BitmapCall, Along Traced.next (fun s call => call.InRange s.fa) twoEntries calls →
    Along Traced.next (fun s call => AccountingRight (s.next call)) twoEntries calls := by
  intro always
  obtain ⟨right, _⟩ := always [.free 0x3000] ⟨trivial, trivial⟩
  have inside := right.inside 2 (by decide)
  exact absurd inside (by decide)

end Runs

end RealmVm
