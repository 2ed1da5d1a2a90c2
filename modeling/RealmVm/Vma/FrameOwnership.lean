import RealmVm.Lib.Pool
import RealmVm.Lib.Run
import RealmVm.Vma.Frames

/-! The frame allocator as a pool: which frames its callers hold, over whole runs. -/
namespace RealmVm

open Lib

/-- The addresses of `n` consecutive frames. -/
def frameSpan (start : Word) (n : Nat) : Finset Word :=
  (Finset.range n).image fun k => start + BitVec.ofNat 64 k * kframeSize

def arena (fa : KframeAlloc) : Finset Word := frameSpan fa.frameStart fa.frameCount.toNat

theorem mem_frameSpan {start a : Word} {n : Nat} :
    a ∈ frameSpan start n ↔ ∃ k < n, start + BitVec.ofNat 64 k * kframeSize = a := by
  simp [frameSpan]

theorem mem_arena {fa : KframeAlloc} {a : Word} :
    a ∈ arena fa ↔ ∃ k < fa.frameCount.toNat, frameAddress fa k = a :=
  mem_frameSpan

theorem frameAddress_add (fa : KframeAlloc) (j k : Nat) :
    frameAddress fa j + BitVec.ofNat 64 k * kframeSize = frameAddress fa (j + k) := by
  simp only [frameAddress, BitVec.ofNat_add, BitVec.add_mul, BitVec.add_assoc]

theorem mem_frameSpan_frameAddress {fa : KframeAlloc} {j n : Nat} {a : Word} :
    a ∈ frameSpan (frameAddress fa j) n ↔ ∃ k < n, frameAddress fa (j + k) = a := by
  simp only [mem_frameSpan, frameAddress_add]

/-- No two frames share an address, up to 2^52 of them. -/
theorem frameSpan_card {start : Word} {n : Nat} (bound : n * 4096 ≤ 2 ^ 64) : (frameSpan start n).card = n := by
  rw [frameSpan, Finset.card_image_of_injOn, Finset.card_range]
  intro a ha b hb same
  simp only [Finset.coe_range, Set.mem_Iio] at ha hb
  simp only [BitVec.add_right_inj, kframeSize] at same
  bv_omega

/-- What the geometry of an arena must satisfy: its end is a 64-bit number. -/
structure ArenaFits (fa : KframeAlloc) : Prop where
  aligned : fa.frameStart.toNat % 4096 = 0
  noWrap : fa.frameStart.toNat + fa.frameCount.toNat * 4096 < 2 ^ 64

namespace ArenaFits

variable {fa : KframeAlloc}

theorem frameAddress_toNat (fits : ArenaFits fa) {k : Nat} (hk : k ≤ fa.frameCount.toNat) :
    (frameAddress fa k).toNat = fa.frameStart.toNat + k * 4096 := by
  have noWrap := fits.noWrap
  unfold frameAddress kframeSize
  bv_omega

theorem frameEnd_toNat (fits : ArenaFits fa) :
    (fa.frameStart + fa.frameCount * kframeSize).toNat =
      fa.frameStart.toNat + fa.frameCount.toNat * 4096 := by
  have noWrap := fits.noWrap
  unfold kframeSize
  bv_omega

theorem frameAddress_inj (fits : ArenaFits fa) {j k : Nat} (hj : j < fa.frameCount.toNat)
    (hk : k < fa.frameCount.toNat) (same : frameAddress fa j = frameAddress fa k) : j = k := by
  have left := fits.frameAddress_toNat (Nat.le_of_lt hj)
  have right := fits.frameAddress_toNat (Nat.le_of_lt hk)
  rw [same] at left
  omega

theorem frameAddress_ne_failed (fits : ArenaFits fa) {k : Nat} (hk : k < fa.frameCount.toNat) :
    frameAddress fa k ≠ mapFailed := by
  intro same
  have value := fits.frameAddress_toNat (Nat.le_of_lt hk)
  have aligned := fits.aligned
  have failed : mapFailed.toNat = 2 ^ 64 - 1 := by decide
  rw [same, failed] at value
  omega

/-- The index computed from an address is the index the address was computed from. -/
theorem index_frameAddress (fits : ArenaFits fa) {k : Nat} (hk : k < fa.frameCount.toNat) :
    (frameAddress fa k - fa.frameStart) / kframeSize = BitVec.ofNat 64 k := by
  have value := fits.frameAddress_toNat (Nat.le_of_lt hk)
  have noWrap := fits.noWrap
  have offset : (frameAddress fa k - fa.frameStart).toNat = k * 4096 := by bv_omega
  exact index_of_offset offset

theorem card_frameSpan (fits : ArenaFits fa) {j n : Nat} (hn : j + n ≤ fa.frameCount.toNat) :
    (frameSpan (frameAddress fa j) n).card = n := by
  have noWrap := fits.noWrap
  exact frameSpan_card (by omega)

theorem card_arena (fits : ArenaFits fa) : (arena fa).card = fa.frameCount.toNat := by
  have start : frameAddress fa 0 = fa.frameStart := by simp [frameAddress]
  have card := fits.card_frameSpan (j := 0) (n := fa.frameCount.toNat) (by omega)
  rwa [start] at card

end ArenaFits

/-- The bitmap and the counter record exactly which frames of the arena are held. -/
structure Tracks (fa : KframeAlloc) (p : Pool Word) : Prop where
  fits : ArenaFits fa
  all_eq : p.all = arena fa
  bytes : ∀ k, k < fa.frameCount.toNat → fa.bitmapFrame (BitVec.ofNat 64 k) =
    if frameAddress fa k ∈ p.held then kframeUsedByte else kframeFreeByte
  counted : fa.availableFrameCount.toNat = p.free.card

namespace Tracks

variable {fa : KframeAlloc} {p : Pool Word}

theorem freeAt_iff (tracks : Tracks fa p) {k : Nat} (hk : k < fa.frameCount.toNat) :
    FreeAt fa k ↔ frameAddress fa k ∈ p.free := by
  have inside : frameAddress fa k ∈ p.all := by
    rw [tracks.all_eq, mem_arena]
    exact ⟨k, hk, rfl⟩
  have different : kframeUsedByte ≠ kframeFreeByte := by decide
  rw [FreeAt, tracks.bytes k hk, Pool.mem_free]
  by_cases held : frameAddress fa k ∈ p.held <;> simp [held, inside, different]

theorem span_free (tracks : Tracks fa p) {j n : Nat} (hn : j + n ≤ fa.frameCount.toNat)
    (run : FreeRun fa n j) : frameSpan (frameAddress fa j) n ⊆ p.free := by
  intro a ha
  obtain ⟨k, hk, rfl⟩ := mem_frameSpan_frameAddress.mp ha
  exact (tracks.freeAt_iff (by omega)).mp (run (j + k) (by omega) (by omega))

/-- Marking a run of free frames takes exactly these frames from the pool. -/
theorem mark (tracks : Tracks fa p) {j n : Nat} (hn : j + n ≤ fa.frameCount.toNat)
    (available : frameSpan (frameAddress fa j) n ⊆ p.free) :
    Tracks (markUsed fa (BitVec.ofNat 64 j) n)
      (p.take (frameSpan (frameAddress fa j) n) available) where
  fits := ⟨by simpa using tracks.fits.aligned, by simpa using tracks.fits.noWrap⟩
  all_eq := by simpa [Pool.take, arena] using tracks.all_eq
  bytes := by
    intro k hk
    rw [markUsed_frameCount] at hk
    have bound := fa.frameCount.isLt
    have same : frameAddress (markUsed fa (BitVec.ofNat 64 j) n) k = frameAddress fa k := by
      simp [frameAddress]
    have span : (BitVec.ofNat 64 k - BitVec.ofNat 64 j).toNat < n ↔
        frameAddress fa k ∈ frameSpan (frameAddress fa j) n := by
      rw [mem_frameSpan_frameAddress]
      constructor
      · intro h
        exact ⟨k - j, by bv_omega, by congr 1; bv_omega⟩
      · rintro ⟨m, hm, h⟩
        have := tracks.fits.frameAddress_inj (by omega) hk h
        bv_omega
    rw [same, markUsed_bitmapFrame, fillBitmap_apply _ _ _ _ _ (by omega), tracks.bytes k hk]
    by_cases new : frameAddress fa k ∈ frameSpan (frameAddress fa j) n
    · have taken : frameAddress fa k ∈ (p.take _ available).held := Finset.mem_union_right _ new
      rw [if_pos (span.mpr new), if_pos taken]
    · rw [if_neg (mt span.mp new)]
      simp [Pool.take, new]
  counted := by
    have card := p.card_free_take _ available
    have counted := tracks.counted
    have bound := fa.availableFrameCount.isLt
    rw [tracks.fits.card_frameSpan hn] at card
    rw [markUsed_available]
    bv_omega

theorem kframeAllocateRange_spec (tracks : Tracks fa p) (count : Word) (positive : 0 < count.toNat)
    (out : Word × KframeAlloc) (ran : kframeAllocateRange fa count = out) :
    (∃ j, j + count.toNat ≤ fa.frameCount.toNat ∧ out.1 = frameAddress fa j ∧
      (∀ j', j' < j → ¬ FreeRun fa count.toNat j') ∧
      ∃ available : frameSpan out.1 count.toNat ⊆ p.free, Tracks out.2 (p.take _ available)) ∨
    (out.2 = fa ∧ (∀ j, j + count.toNat ≤ fa.frameCount.toNat → ¬ FreeRun fa count.toNat j) ∧
      (out.1 = mapFailed ∨ ∃ l, 0 < l ∧ l < count.toNat ∧ l ≤ fa.frameCount.toNat ∧
        FreeRun fa l (fa.frameCount.toNat - l) ∧
        out.1 = frameAddress fa (fa.frameCount.toNat - l))) := by
  have distinct := fun k (hk : k < fa.frameCount.toNat) => tracks.fits.frameAddress_ne_failed hk
  unfold kframeAllocateRange at ran
  split at ran
  · rename_i few
    right
    subst ran
    refine ⟨rfl, ?_, Or.inl rfl⟩
    intro j hj run
    have card := Finset.card_le_card (tracks.span_free hj run)
    rw [tracks.fits.card_frameSpan hj, ← tracks.counted] at card
    exact absurd few (by bv_omega)
  · have search := rangeSearch_spec fa count positive distinct fa.frameCount.toNat 0 0 mapFailed
      (by omega) (.start fa count.toNat positive) _ rfl
    rcases search with ⟨hit, j, hj, address, run, lowest⟩ | ⟨miss, l, inv⟩
    · left
      have index := tracks.fits.index_frameAddress (k := j) (by omega)
      simp only [BitVec.ofNat_eq_ofNat] at ran hit address
      rw [if_pos hit, address, index] at ran
      subst ran
      exact ⟨j, hj, rfl, lowest, tracks.span_free hj run, tracks.mark hj _⟩
    · right
      simp only [BitVec.ofNat_eq_ofNat] at ran miss inv
      rw [if_neg miss] at ran
      subst ran
      refine ⟨rfl, inv.earlier, ?_⟩
      by_cases none : l = 0
      · left
        rw [inv.target_eq, if_pos none]
      · right
        refine ⟨l, by omega, inv.short, inv.within, ?_, ?_⟩
        · exact inv.run
        · rw [inv.target_eq, if_neg none]

/-- The request for one frame: some free frame, or nothing when none is free. -/
theorem kframeAllocateRange_one (tracks : Tracks fa p) (out : Word × KframeAlloc)
    (ran : kframeAllocateRange fa 1 = out) :
    (out.1 ∈ p.free ∧ ∃ available : {out.1} ⊆ p.free, Tracks out.2 (p.take {out.1} available)) ∨
    (out = (mapFailed, fa) ∧ p.free = ∅) := by
  have one : (1 : Word).toNat = 1 := by decide
  rcases tracks.kframeAllocateRange_spec 1 (by decide) out ran with
    ⟨j, hj, address, _, available, after⟩ | ⟨same, none, result⟩
  · left
    have single : frameSpan out.1 (1 : Word).toNat = {out.1} := by
      simp [frameSpan]
    simp only [single] at available after
    exact ⟨available (Finset.mem_singleton_self _), available, after⟩
  · right
    rw [one] at none result
    have failed : out.1 = mapFailed := by
      rcases result with failed | ⟨l, positive, short, _⟩
      · exact failed
      · omega
    refine ⟨Prod.ext failed same, ?_⟩
    rw [Finset.eq_empty_iff_forall_notMem]
    intro a ha
    have inside := (Pool.mem_free.mp ha).1
    rw [tracks.all_eq, mem_arena] at inside
    obtain ⟨k, hk, rfl⟩ := inside
    apply none k (by omega)
    intro m low high
    have same : m = k := by omega
    exact same ▸ (tracks.freeAt_iff hk).mpr ha

/-- A page-aligned address of the arena is the address of one of its frames. -/
theorem frame_of_aligned (tracks : Tracks fa p) (start : Word) (aligned : start.toNat % 4096 = 0)
    (above : fa.frameStart ≤ start)
    (below : start.toNat < fa.frameStart.toNat + fa.frameCount.toNat * 4096) :
    ∃ j < fa.frameCount.toNat, start = frameAddress fa j := by
  have base := tracks.fits.aligned
  refine ⟨(start.toNat - fa.frameStart.toNat) / 4096, by bv_omega, ?_⟩
  apply BitVec.eq_of_toNat_eq
  rw [tracks.fits.frameAddress_toNat (by bv_omega)]
  bv_omega

/-- A request inside the arena takes its frames, or fails because one is held. -/
theorem kframeAllocateFixed_spec (tracks : Tracks fa p) {j : Nat} (count : Word)
    (first : j < fa.frameCount.toNat)
    (noWrap : (frameAddress fa j).toNat + count.toNat * 4096 < 2 ^ 64)
    (out : Word × KframeAlloc) (ran : kframeAllocateFixed fa (frameAddress fa j) count = out) :
    (out.1 = frameAddress fa j ∧ j + count.toNat ≤ fa.frameCount.toNat ∧
      ∃ available : frameSpan (frameAddress fa j) count.toNat ⊆ p.free,
        Tracks out.2 (p.take _ available)) ∨
    (out = (mapFailed, fa) ∧ ¬ frameSpan (frameAddress fa j) count.toNat ⊆ p.free) := by
  have start := tracks.fits.frameAddress_toNat (k := j) (by omega)
  have frameEnd := tracks.fits.frameEnd_toNat
  have stop : (frameAddress fa j + count * kframeSize).toNat =
      (frameAddress fa j).toNat + count.toNat * 4096 := by
    unfold kframeSize
    bv_omega
  have index := tracks.fits.index_frameAddress first
  have bound := count.isLt
  simp only [kframeAllocateFixed] at ran
  split at ran
  · rename_i outside
    right
    refine ⟨ran.symm, ?_⟩
    intro sub
    -- the frame just past the arena is part of the request
    have beyond : fa.frameCount.toNat < j + count.toNat := by bv_omega
    have member : frameAddress fa fa.frameCount.toNat ∈
        frameSpan (frameAddress fa j) count.toNat := by
      rw [mem_frameSpan_frameAddress]
      exact ⟨fa.frameCount.toNat - j, by omega, by congr 1; omega⟩
    have inside := (Pool.mem_free.mp (sub member)).1
    rw [tracks.all_eq, mem_arena] at inside
    obtain ⟨k, hk, same⟩ := inside
    have left := tracks.fits.frameAddress_toNat (Nat.le_of_lt hk)
    have right := tracks.fits.frameAddress_toNat (Nat.le_refl _)
    rw [same] at left
    omega
  · rename_i inside
    have within : j + count.toNat ≤ fa.frameCount.toNat := by bv_omega
    rw [index] at ran
    by_cases used : anyUsed fa.bitmapFrame (BitVec.ofNat 64 j) count.toNat = true
    · right
      rw [if_pos used] at ran
      refine ⟨ran.symm, ?_⟩
      intro sub
      obtain ⟨i, hi, byte⟩ := (anyUsed_iff _ _ _ (by omega)).mp used
      have place : i = BitVec.ofNat 64 (j + (i - BitVec.ofNat 64 j).toNat) := by bv_omega
      have member : frameAddress fa (j + (i - BitVec.ofNat 64 j).toNat) ∈
          frameSpan (frameAddress fa j) count.toNat :=
        mem_frameSpan_frameAddress.mpr ⟨_, hi, rfl⟩
      have free := (tracks.freeAt_iff (by omega)).mpr (sub member)
      rw [FreeAt, ← place, byte] at free
      exact absurd free (by decide)
    · left
      rw [if_neg used] at ran
      subst ran
      have available : frameSpan (frameAddress fa j) count.toNat ⊆ p.free := by
        apply tracks.span_free within
        intro k low high
        by_contra busy
        have byte := tracks.bytes k (by omega)
        have held : frameAddress fa k ∈ p.held := by
          by_contra absent
          rw [if_neg absent] at byte
          exact busy byte
        rw [if_pos held] at byte
        exact used ((anyUsed_iff _ _ _ (by omega)).mpr ⟨_, by bv_omega, byte⟩)
      exact ⟨rfl, within, available, tracks.mark within available⟩

theorem kframeFree_spec (tracks : Tracks fa p) {a : Word} (held : a ∈ p.held) :
    Tracks (kframeFree fa a) (p.giveBack a) := by
  have inside := p.within held
  rw [tracks.all_eq, mem_arena] at inside
  obtain ⟨k, hk, rfl⟩ := inside
  have place := tracks.fits.frameAddress_toNat (Nat.le_of_lt hk)
  have frameEnd := tracks.fits.frameEnd_toNat
  have range : ¬ (frameAddress fa k < fa.frameStart ∨
      fa.frameStart + fa.frameCount * kframeSize < frameAddress fa k) := by bv_omega
  simp only [kframeFree, if_neg range, tracks.fits.index_frameAddress hk]
  exact {
    fits := ⟨tracks.fits.aligned, tracks.fits.noWrap⟩
    all_eq := tracks.all_eq
    bytes := by
      intro i hi
      have bound := fa.frameCount.isLt
      change Function.update fa.bitmapFrame (BitVec.ofNat 64 k) kframeFreeByte (BitVec.ofNat 64 i) =
        if frameAddress fa i ∈ p.held.erase (frameAddress fa k) then kframeUsedByte
          else kframeFreeByte
      by_cases same : i = k
      · subst same
        simp
      · have other : BitVec.ofNat 64 i ≠ BitVec.ofNat 64 k := by bv_omega
        have apart : frameAddress fa i ≠ frameAddress fa k :=
          fun h => same (tracks.fits.frameAddress_inj hi hk h)
        rw [Function.update_of_ne other, tracks.bytes i hi]
        simp [apart]
    counted := by
      have card := p.card_free_giveBack held
      have total := p.card_free_add_held
      have arenaCard := tracks.fits.card_arena
      have counted := tracks.counted
      have some : 0 < p.held.card := Finset.card_pos.mpr ⟨_, held⟩
      rw [tracks.all_eq, arenaCard] at total
      have bound := fa.frameCount.isLt
      change (fa.availableFrameCount + 1).toNat = _
      bv_omega }

end Tracks

theorem kframeAllocatorInit_tracks (fa : KframeAlloc) (bitmapFrame : Word → Byte)
    (bitmapSize frameStart size : Word) (nonempty : size ≠ 0)
    (aligned : frameStart.toNat % 4096 = 0) (noWrap : frameStart.toNat + size.toNat < 2 ^ 64)
    (covers : size.toNat / 4096 ≤ bitmapSize.toNat) :
    Tracks (kframeAllocatorInit fa bitmapFrame bitmapSize frameStart size).2
      (Pool.empty (arena (kframeAllocatorInit fa bitmapFrame bitmapSize frameStart size).2)) := by
  have count : (size / kframeSize).toNat = size.toNat / 4096 := BitVec.toNat_udiv
  have fits : ArenaFits (kframeAllocatorInit fa bitmapFrame bitmapSize frameStart size).2 := by
    rw [kframeAllocatorInit, if_neg nonempty]
    exact ⟨aligned, by simp only [count]; omega⟩
  refine ⟨fits, rfl, ?_, ?_⟩
  · intro k hk
    have bitmap : (kframeAllocatorInit fa bitmapFrame bitmapSize frameStart size).2.bitmapFrame =
        fillBitmap bitmapFrame kframeFreeByte 0 bitmapSize.toNat := by
      rw [kframeAllocatorInit, if_neg nonempty]
    have bound := bitmapSize.isLt
    rw [kframeAllocatorInit, if_neg nonempty] at hk
    simp only [count] at hk
    rw [bitmap, fillBitmap_apply _ _ _ _ _ (by omega), if_pos (by bv_omega)]
    simp [Pool.empty]
  · rw [Pool.free_empty, fits.card_arena]
    rw [kframeAllocatorInit, if_neg nonempty]
    rfl

end RealmVm
