import RealmVm.Vma.FrameOwnership

/-! Runs of the frame allocator with its callers. The callers remember the frames they
were given; nothing about the allocator's own bookkeeping is assumed of them. -/
namespace RealmVm

open Lib

inductive FrameCall where
  | range
  | fixed (start count : Word)
  | free (address : Word)
deriving DecidableEq

/-- An allocator and the frames its callers hold. -/
structure FrameHolders where
  fa : KframeAlloc
  held : Finset Word

/-- A fixed request starts at a page of the arena and its end is a 64-bit number; only a
frame that is held is given back. -/
def FrameCall.Allowed (s : FrameHolders) : FrameCall → Prop
  | .range => True
  | .fixed start count =>
    start.toNat % 4096 = 0 ∧ s.fa.frameStart ≤ start ∧
      start.toNat < s.fa.frameStart.toNat + s.fa.frameCount.toNat * 4096 ∧
      start.toNat + count.toNat * 4096 < 2 ^ 64
  | .free address => address ∈ s.held

/-- The value the call returns and what allocator and callers have afterwards. -/
def FrameCall.perform (s : FrameHolders) : FrameCall → Word × FrameHolders
  | .range =>
    let out := kframeAllocateRange s.fa 1
    (out.1, ⟨out.2, if out.1 = mapFailed then s.held else s.held ∪ {out.1}⟩)
  | .fixed start count =>
    let out := kframeAllocateFixed s.fa start count
    (out.1, ⟨out.2, if out.1 = mapFailed then s.held else s.held ∪ frameSpan out.1 count.toNat⟩)
  | .free address => (0, ⟨kframeFree s.fa address, s.held.erase address⟩)

def frameStep (s : FrameHolders) (call : FrameCall) (t : FrameHolders) : Prop :=
  call.Allowed s ∧ t = (call.perform s).2

/-- What a call may do: hand out frames of the arena that nobody holds, or fail with
-1 and no change. A single-frame request fails only when every frame is held. -/
def FrameCall.Sound (s : FrameHolders) (call : FrameCall) : Prop :=
  match call with
  | .range =>
    ((call.perform s).1 = mapFailed ∧ (call.perform s).2 = s ∧ s.held = arena s.fa) ∨
    ((call.perform s).1 ∈ arena s.fa ∧ (call.perform s).1 ∉ s.held)
  | .fixed start count =>
    ((call.perform s).1 = mapFailed ∧ (call.perform s).2 = s) ∨
    ((call.perform s).1 = start ∧
      ∀ a ∈ frameSpan start count.toNat, a ∈ arena s.fa ∧ a ∉ s.held)
  | .free _ => True

/-- The callers' view and the allocator's bookkeeping name the same frames. -/
def Holds (s : FrameHolders) : Prop := ∃ p : Pool Word, Tracks s.fa p ∧ p.held = s.held

theorem not_failed_of_arena {fa : KframeAlloc} (fits : ArenaFits fa) {a : Word}
    (inside : a ∈ arena fa) : a ≠ mapFailed := by
  obtain ⟨k, hk, rfl⟩ := mem_arena.mp inside
  exact fits.frameAddress_ne_failed hk

theorem frame_call (s : FrameHolders) (holds : Holds s) (call : FrameCall)
    (allowed : call.Allowed s) : call.Sound s ∧ Holds (call.perform s).2 := by
  obtain ⟨p, tracks, same⟩ := holds
  cases call with
  | range =>
    rcases tracks.kframeAllocateRange_one _ rfl with ⟨free, available, after⟩ | ⟨out, none⟩
    · have member := Pool.mem_free.mp free
      have inside : (kframeAllocateRange s.fa 1).1 ∈ arena s.fa := tracks.all_eq ▸ member.1
      have success := not_failed_of_arena tracks.fits inside
      refine ⟨Or.inr ⟨inside, same ▸ member.2⟩, _, after, ?_⟩
      simp only [FrameCall.perform, Pool.take, if_neg success, same]
    · have full : s.held = arena s.fa := by
        have sub := Finset.sdiff_eq_empty_iff_subset.mp none
        rw [← same, ← tracks.all_eq]
        exact Finset.Subset.antisymm p.within sub
      have failed : FrameCall.range.perform s = (mapFailed, s) := by
        simp only [FrameCall.perform, out, ↓reduceIte]
      simp only [FrameCall.Sound, failed]
      exact ⟨Or.inl ⟨trivial, trivial, full⟩, p, tracks, same⟩
  | fixed start count =>
    obtain ⟨aligned, above, below, noWrap⟩ := allowed
    obtain ⟨j, hj, place⟩ := tracks.frame_of_aligned start aligned above below
    subst place
    rcases tracks.kframeAllocateFixed_spec count hj noWrap _ rfl with
      ⟨result, within, available, after⟩ | ⟨out, _⟩
    · have success := tracks.fits.frameAddress_ne_failed hj
      refine ⟨Or.inr ⟨result, ?_⟩, _, after, ?_⟩
      · intro a ha
        have member := Pool.mem_free.mp (available ha)
        exact ⟨tracks.all_eq ▸ member.1, same ▸ member.2⟩
      · simp only [FrameCall.perform, Pool.take, result, if_neg success, same]
    · have failed : (FrameCall.fixed (frameAddress s.fa j) count).perform s = (mapFailed, s) := by
        simp only [FrameCall.perform, out, ↓reduceIte]
      simp only [FrameCall.Sound, failed]
      exact ⟨Or.inl ⟨trivial, trivial⟩, p, tracks, same⟩
  | free address =>
    have held : address ∈ p.held := same ▸ allowed
    exact ⟨trivial, p.giveBack address, tracks.kframeFree_spec held, by
      simp only [FrameCall.perform, Pool.giveBack, same]⟩

theorem frame_call_arena (s : FrameHolders) (call : FrameCall) :
    (call.perform s).2.fa.frameStart = s.fa.frameStart ∧
      (call.perform s).2.fa.frameCount = s.fa.frameCount := by
  cases call with
  | range => exact kframeAllocateRange_arena s.fa 1
  | fixed start count => exact kframeAllocateFixed_arena s.fa start count
  | free address => exact kframeFree_arena s.fa address

theorem frame_run_arena {s t : FrameHolders} {calls : List FrameCall}
    (run : Run frameStep s calls t) :
    t.fa.frameStart = s.fa.frameStart ∧ t.fa.frameCount = s.fa.frameCount := by
  refine run.invariant (I := fun u => u.fa.frameStart = s.fa.frameStart ∧
    u.fa.frameCount = s.fa.frameCount) ?_ ⟨rfl, rfl⟩
  rintro u call v ⟨start, count⟩ ⟨_, rfl⟩
  have kept := frame_call_arena u call
  exact ⟨kept.1.trans start, kept.2.trans count⟩

theorem frame_run {s t : FrameHolders} {calls : List FrameCall} (run : Run frameStep s calls t)
    (holds : Holds s) : Holds t :=
  run.invariant (fun s call _ holds step => step.2 ▸ (frame_call s holds call step.1).2) holds

/-- What the callers rely on after a run: the counter is the number of frames nobody holds, and each
further call hands out unheld frames of the arena or changes nothing. -/
structure FramesOwned (frameStart size : Word) (s : FrameHolders) : Prop where
  span : arena s.fa = frameSpan frameStart (size.toNat / 4096)
  within : s.held ⊆ arena s.fa
  counted : s.fa.availableFrameCount.toNat = (arena s.fa \ s.held).card
  sound : ∀ call : FrameCall, call.Allowed s → call.Sound s

/- The allocator after `kframe_allocator_init`, before any request. -/
def freshFrames (fa : KframeAlloc) (bitmapFrame : Word → Byte) (bitmapSize frameStart size : Word) : FrameHolders :=
  ⟨(kframeAllocatorInit fa bitmapFrame bitmapSize frameStart size).2, ∅⟩

section fresh

variable (fa : KframeAlloc) (bitmapFrame : Word → Byte) {bitmapSize frameStart size : Word}

/-- Over every run in an arena whose end is a 64-bit number. -/
theorem frames_owned_once (nonempty : size ≠ 0) (aligned : frameStart.toNat % 4096 = 0)
    (below : frameStart.toNat + size.toNat < 2 ^ 64) (covers : size.toNat / 4096 ≤ bitmapSize.toNat)
    {calls : List FrameCall} {s : FrameHolders}
    (run : Run frameStep (freshFrames fa bitmapFrame bitmapSize frameStart size) calls s) :
    FramesOwned frameStart size s := by
  have fresh := kframeAllocatorInit_tracks fa bitmapFrame bitmapSize frameStart size nonempty
    aligned below covers
  have holds := frame_run run ⟨_, fresh, rfl⟩
  have kept := frame_run_arena run
  refine ⟨?_, ?_, ?_, fun call allowed => (frame_call s holds call allowed).1⟩
  all_goals obtain ⟨p, tracks, same⟩ := holds
  · simp only [freshFrames, kframeAllocatorInit, if_neg nonempty] at kept
    have count : (size / kframeSize).toNat = size.toNat / 4096 := BitVec.toNat_udiv
    rw [arena, kept.1, kept.2, count]
  · exact same ▸ tracks.all_eq ▸ p.within
  · rw [tracks.counted, ← tracks.all_eq, ← same]
    rfl

/-- The first request is given the first frame. -/
theorem first_frame (frames : 4096 ≤ size.toNat) (covers : size.toNat / 4096 ≤ bitmapSize.toNat) :
    let fresh := (kframeAllocatorInit fa bitmapFrame bitmapSize frameStart size).2
    kframeAllocateRange fresh 1 = (frameStart, markUsed fresh 0 1) := by
  have nonempty : size ≠ 0 := by bv_omega
  have bound := bitmapSize.isLt
  have count : (size / kframeSize).toNat = size.toNat / 4096 := BitVec.toNat_udiv
  have available : ¬ size / pageSize4KB < 1 := by
    have same : (size / pageSize4KB).toNat = size.toNat / 4096 := BitVec.toNat_udiv
    bv_omega
  have free : fillBitmap bitmapFrame kframeFreeByte 0 bitmapSize.toNat 0 = kframeFreeByte := by
    rw [fillBitmap_apply _ _ _ _ _ (by omega), if_pos (by bv_omega)]
  obtain ⟨n, more⟩ : ∃ n, (size / kframeSize).toNat = n + 1 := ⟨size.toNat / 4096 - 1, by omega⟩
  have target : (0 : Word) * kframeSize + frameStart = frameStart := by bv_omega
  have first : (frameStart - frameStart) / kframeSize = 0 := by
    rw [BitVec.sub_self]
    rfl
  have one : (0 : Word) + 1 = 1 := by decide
  have single : (1 : Word).toNat = 1 := rfl
  simp only [kframeAllocatorInit, if_neg nonempty, kframeAllocateRange, if_neg available, more, rangeSearch, free,
    if_true, target, one, first, single]

/-- In an arena that ends at 2^64 the first frame is given back in vain. -/
theorem top_frame_kept (nonempty : size ≠ 0) (aligned : frameStart.toNat % 4096 = 0)
    (top : frameStart.toNat + size.toNat = 2 ^ 64) (covers : size.toNat / 4096 ≤ bitmapSize.toNat) :
    ∃ s, Run frameStep (freshFrames fa bitmapFrame bitmapSize frameStart size) [.range, .free frameStart] s ∧
      ¬ FramesOwned frameStart size s := by
  have bound := size.isLt
  have count : (size / kframeSize).toNat = size.toNat / 4096 := BitVec.toNat_udiv
  have first := @first_frame fa bitmapFrame bitmapSize frameStart size (by bv_omega) covers
  generalize state : (kframeAllocatorInit fa bitmapFrame bitmapSize frameStart size).2 = fresh at first
  have fields := congrArg (fun f => (f.frameStart, f.frameCount, f.availableFrameCount)) state
  simp only [kframeAllocatorInit, if_neg nonempty, Prod.mk.injEq] at fields
  obtain ⟨start, frames, available⟩ := fields
  have proper : frameStart ≠ mapFailed := by
    rintro rfl
    exact absurd aligned (by decide)
  have taken : (FrameCall.range.perform ⟨fresh, ∅⟩).2 = ⟨markUsed fresh 0 1, {frameStart}⟩ := by
    simp only [FrameCall.perform, first, if_neg proper, Finset.empty_union]
  -- the end that is computed is 0, and every address is behind it
  have rejected : kframeFree (markUsed fresh 0 1) frameStart = markUsed fresh 0 1 := by
    refine if_pos (Or.inr ?_)
    rw [markUsed_frameStart, markUsed_frameCount, ← start, ← frames]
    have whole : (size / kframeSize).toNat * 4096 = size.toNat := by omega
    unfold kframeSize at whole ⊢
    bv_omega
  have returned : ((FrameCall.free frameStart).perform ⟨markUsed fresh 0 1, {frameStart}⟩).2 =
      ⟨markUsed fresh 0 1, ∅⟩ := by
    simp only [FrameCall.perform, rejected, Finset.erase_singleton]
  refine ⟨⟨markUsed fresh 0 1, ∅⟩, ?_, fun owned => ?_⟩
  · rw [freshFrames, state]
    exact .cons ⟨trivial, taken.symm⟩ (.cons ⟨Finset.mem_singleton_self _, returned.symm⟩ (.nil _))
  · have counted := owned.counted
    simp only [Finset.sdiff_empty, owned.span, markUsed_available, ← available] at counted
    rw [frameSpan_card (by omega)] at counted
    have same : (size / pageSize4KB).toNat = size.toNat / 4096 := BitVec.toNat_udiv
    bv_omega

/-- In an arena that does not wrap the callers can rely on the allocator exactly when it ends below 2^64. -/
theorem frames_owned_once_iff (nonempty : size ≠ 0) (aligned : frameStart.toNat % 4096 = 0)
    (noWrap : frameStart.toNat + size.toNat ≤ 2 ^ 64) (covers : size.toNat / 4096 ≤ bitmapSize.toNat) :
    (∀ calls s, Run frameStep (freshFrames fa bitmapFrame bitmapSize frameStart size) calls s →
      FramesOwned frameStart size s) ↔ frameStart.toNat + size.toNat < 2 ^ 64 := by
  constructor
  · intro always
    cases Nat.lt_or_eq_of_le noWrap with
    | inl below => exact below
    | inr top =>
      obtain ⟨s, run, wrong⟩ := top_frame_kept fa bitmapFrame nonempty aligned top covers
      exact absurd (always _ s run) wrong
  · intro below calls s run
    exact frames_owned_once fa bitmapFrame nonempty aligned below covers run

end fresh

def bareFrames : KframeAlloc := ⟨0, 0, fun _ => 0, 0, 0⟩

/- Two frames, of which one request takes the first. -/
def twoFrames : FrameHolders := freshFrames bareFrames (fun _ => 0xFF) 2 0x1000 0x2000

theorem frames_owned_once_iff_two_frames : FrameCall.Sound (FrameCall.range.perform twoFrames).2 .range := by
  have owned := (@frames_owned_once_iff bareFrames (fun _ => 0xFF) 2 0x1000 0x2000 (by decide) (by decide) (by decide)
    (by decide)).mpr (by decide)
  have run : Run frameStep twoFrames [.range] (FrameCall.range.perform twoFrames).2 := .cons ⟨trivial, rfl⟩ (.nil _)
  exact (owned _ _ run).sound .range trivial

/- The last page of the address space as an arena. -/
def topFrame : FrameHolders := freshFrames bareFrames (fun _ => 0xFF) 1 0xFFFFFFFFFFFFF000 0x1000

/-- The one frame is given back, and the next request fails all the same. -/
theorem last_page_never_freed : ∃ s, Run frameStep topFrame [.range, .free 0xFFFFFFFFFFFFF000] s ∧
    s.held = ∅ ∧ (FrameCall.range.perform s).1 = mapFailed ∧ ¬ FramesOwned 0xFFFFFFFFFFFFF000 0x1000 s := by
  have step : frameStep topFrame .range (FrameCall.range.perform topFrame).2 := ⟨trivial, rfl⟩
  have held : (0xFFFFFFFFFFFFF000 : Word) ∈ (FrameCall.range.perform topFrame).2.held := by decide
  refine ⟨_, .cons step (.cons ⟨held, rfl⟩ (.nil _)), by decide, by decide, fun owned => ?_⟩
  have counted := owned.counted
  rw [owned.span] at counted
  exact absurd counted (by decide)

end RealmVm
