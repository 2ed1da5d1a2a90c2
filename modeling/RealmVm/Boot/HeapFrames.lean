import RealmVm.Boot.EnableMmap

/-! Which memory layouts leave the frames of the heaps reserved. -/
namespace RealmVm

open Lib

/-- Each of the `n` frames from `start` on is a frame of the arena and marked used. -/
def Reserved (fa : KframeAlloc) (start : Word) (n : Nat) : Prop :=
  ∀ k < n, ∃ j < fa.frameCount.toNat, frameAddress fa j = start + BitVec.ofNat 64 k * kframeSize ∧
    fa.bitmapFrame (BitVec.ofNat 64 j) = kframeUsedByte

/-- The frames behind both heaps are marked and no later request returns one of them. -/
structure HeapsReserved (b : Booted) : Prop where
  shared : Reserved b.insecure b.sharedPa b.sharedPages.toNat
  secure : Reserved b.secure b.heapPa b.heapPages.toNat
  sharedKept : NeverHandedOut b.insecure (frameSpan b.sharedPa b.sharedPages.toNat)
  secureKept : NeverHandedOut b.secure (frameSpan b.heapPa b.heapPages.toNat)

variable {fa : KframeAlloc}

theorem frameAddress_zero (fa : KframeAlloc) : frameAddress fa 0 = fa.frameStart := by
  unfold frameAddress
  bv_omega

theorem reserved_of_held {p : Pool Word} (tracks : Tracks fa p) {start : Word} {n : Nat}
    (held : p.held = frameSpan start n) : Reserved fa start n := by
  intro k hk
  have member : start + BitVec.ofNat 64 k * kframeSize ∈ p.held := held ▸ mem_frameSpan.mpr ⟨k, hk, rfl⟩
  have inside := p.within member
  rw [tracks.all_eq] at inside
  obtain ⟨j, hj, same⟩ := mem_arena.mp inside
  refine ⟨j, hj, same, ?_⟩
  rw [tracks.bytes j hj, same, if_pos member]

/-- On a fresh arena the frames from its start on are reserved as far as it reaches;
otherwise the failure value comes back and nothing is marked. -/
theorem reserve_first (tracks : Tracks fa (Pool.empty (arena fa))) (some : 0 < fa.frameCount.toNat)
    (count : Word) (noWrap : fa.frameStart.toNat + 4096 * count.toNat < 2 ^ 64) :
    (count.toNat ≤ fa.frameCount.toNat ∧ (kframeAllocateFixed fa fa.frameStart count).1 = fa.frameStart ∧
      ∃ p, Tracks (kframeAllocateFixed fa fa.frameStart count).2 p ∧
        p.held = frameSpan fa.frameStart count.toNat) ∨
    (fa.frameCount.toNat < count.toNat ∧ kframeAllocateFixed fa fa.frameStart count = (mapFailed, fa)) := by
  have origin := frameAddress_zero fa
  have spec := tracks.kframeAllocateFixed_spec count some (by rw [origin, Nat.mul_comm]; exact noWrap) _ rfl
  rw [origin, Nat.zero_add] at spec
  rcases spec with ⟨result, within, available, after⟩ | ⟨failed, busy⟩
  · exact Or.inl ⟨within, result, _, after, by simp [Pool.empty]⟩
  · refine Or.inr ⟨Nat.lt_of_not_le fun within => busy ?_, failed⟩
    intro a ha
    obtain ⟨k, hk, rfl⟩ := mem_frameSpan.mp ha
    rw [Pool.free_empty, mem_arena]
    exact ⟨k, by omega, rfl⟩

/-- A fresh frame is not marked. -/
theorem not_reserved_of_fresh (tracks : Tracks fa (Pool.empty (arena fa))) {n : Nat} (positive : 0 < n) :
    ¬ Reserved fa fa.frameStart n := by
  intro reserved
  obtain ⟨j, hj, _, used⟩ := reserved 0 positive
  have free : fa.bitmapFrame (BitVec.ofNat 64 j) = kframeFreeByte := by
    rw [tracks.bytes j hj]
    exact if_neg (Finset.notMem_empty _)
  rw [free] at used
  exact absurd used (by decide)

namespace MemoryLayout

variable (l : MemoryLayout) (ns realm : KframeAlloc) (bitmapNs bitmap : Word → Byte)

def insecureFrames : KframeAlloc :=
  (kframeAllocatorInit ns bitmapNs (pageUp (l.bitmapNsEnd - l.bitmapNsStart))
    ((l.sharedNsStart - pageDown l.binaryStart + l.currentPaBase) ||| l.sharedBit)
    (pageUp (l.sharedNsEnd - l.sharedNsStart))).2

def secureFrames : KframeAlloc :=
  (kframeAllocatorInit realm bitmap (pageUp (l.bitmapEnd - l.bitmapStart))
    (l.sharedNsEnd - pageDown l.binaryStart + l.currentPaBase) (pageUp (l.ramEnd - l.sharedNsEnd))).2

/-- What a fresh arena of the layout looks like. -/
structure Fresh (fa : KframeAlloc) (start size : Word) : Prop where
  tracks : Tracks fa (Pool.empty (arena fa))
  frameStart : fa.frameStart = start
  frameCount : fa.frameCount.toNat = size.toNat / 4096
  roomy : Roomy fa

theorem fresh_init (fa : KframeAlloc) (bitmap : Word → Byte) (bitmapSize start size : Word)
    (positive : 0 < size.toNat) (aligned : start.toNat % 4096 = 0) (whole : size.toNat % 4096 = 0)
    (wholeBitmap : bitmapSize.toNat % 4096 = 0)
    (below : start.toNat < 2 ^ 49) (short : size.toNat ≤ 2 ^ 35) (shortBitmap : bitmapSize.toNat ≤ 2 ^ 35)
    (covers : size.toNat ≤ bitmapSize.toNat * 4096) :
    Fresh (kframeAllocatorInit fa bitmap (pageUp bitmapSize) start (pageUp size)).2 start size := by
  have same : pageUp size = size := by
    apply BitVec.eq_of_toNat_eq
    rw [pageUp_toNat size (by omega)]
    omega
  have sameBitmap : pageUp bitmapSize = bitmapSize := by
    apply BitVec.eq_of_toNat_eq
    rw [pageUp_toNat bitmapSize (by omega)]
    omega
  rw [same, sameBitmap]
  have nonempty : size ≠ 0 := by bv_omega
  have count : (size / kframeSize).toNat = size.toNat / 4096 := BitVec.toNat_udiv
  refine ⟨kframeAllocatorInit_tracks fa bitmap bitmapSize start size nonempty aligned (by omega) (by omega),
    ?_, ?_, ?_⟩ <;> rw [kframeAllocatorInit, if_neg nonempty]
  · exact count
  · unfold Roomy
    simp only [count]
    omega

/- The physical start and the page count of the two heaps. -/
def sharedPa : Word := (l.sharedNsStart - kernelVaBase + l.currentPaBase) ||| l.sharedBit
def sharedPages : Word := (l.sharedNsEnd - l.sharedNsStart) / 2 / pageSize4KB
def heapPa : Word := l.sharedNsEnd - kernelVaBase + l.currentPaBase
def heapPages : Word := kernelHeapSize / pageSize4KB

theorem heapPa_spec : l.heapPa.toNat % 4096 = 0 ∧ 0 < l.heapPa.toNat ∧ l.heapPa.toNat < 2 ^ 48 := by
  obtain ⟨_, _, _, _, _, a6, _, a8, _⟩ := l.aligned
  have bounds := l.bounds
  unfold heapPa
  bv_omega

theorem sharedPa_spec : l.sharedPa.toNat % 4096 = 0 ∧ 0 < l.sharedPa.toNat ∧ l.sharedPa.toNat < 2 ^ 48 := by
  obtain ⟨_, _, _, _, a5, _, _, a8, a9⟩ := l.aligned
  have bounds := l.bounds
  have left : (l.sharedNsStart - kernelVaBase + l.currentPaBase).toNat % 2 ^ 12 = 0 ∧
      0 < (l.sharedNsStart - kernelVaBase + l.currentPaBase).toNat ∧
      (l.sharedNsStart - kernelVaBase + l.currentPaBase).toNat < 2 ^ 48 := by bv_omega
  have bit : l.sharedBit.toNat % 2 ^ 12 = 0 := a9
  unfold sharedPa
  rw [BitVec.toNat_or]
  refine ⟨?_, Nat.lt_of_lt_of_le left.2.1 Nat.left_le_or, Nat.or_lt_two_pow left.2.2 l.physical.2⟩
  show _ % 2 ^ 12 = 0
  rw [Nat.or_mod_two_pow, left.1, bit]
  rfl

theorem fresh_secure : Fresh (l.secureFrames realm bitmap) l.heapPa (l.ramEnd - l.sharedNsEnd) := by
  obtain ⟨_, _, a3, a4, _, a6, a7, a8, _⟩ := l.aligned
  obtain ⟨aligned, _, below⟩ := l.heapPa_spec
  have bounds := l.bounds
  rw [secureFrames, l.pageDown_binaryStart]
  refine fresh_init realm bitmap _ l.heapPa _ ?_ aligned ?_ ?_ ?_ ?_ ?_ l.covers.2
  all_goals bv_omega

theorem fresh_insecure : Fresh (l.insecureFrames ns bitmapNs) l.sharedPa (l.sharedNsEnd - l.sharedNsStart) := by
  obtain ⟨a1, a2, _, _, a5, a6, _, a8, a9⟩ := l.aligned
  obtain ⟨aligned, _, below⟩ := l.sharedPa_spec
  have bounds := l.bounds
  rw [insecureFrames, l.pageDown_binaryStart]
  refine fresh_init ns bitmapNs _ l.sharedPa _ ?_ aligned ?_ ?_ ?_ ?_ ?_ l.covers.1
  all_goals bv_omega

theorem heapStart_eq : pageUp (l.sharedNsEnd - l.binaryStart) + kernelVaBase = l.sharedNsEnd := by
  obtain ⟨_, _, _, _, _, a6, _, _, _⟩ := l.aligned
  have bounds := l.bounds
  have up := pageUp_toNat (l.sharedNsEnd - l.binaryStart) (by bv_omega)
  apply BitVec.eq_of_toNat_eq
  rw [BitVec.toNat_add, up]
  bv_omega

theorem sharedPages_toNat : l.sharedPages.toNat = (l.sharedNsEnd.toNat - l.sharedNsStart.toNat) / 2 / 4096 := by
  have bounds := l.bounds
  have size : (l.sharedNsEnd - l.sharedNsStart).toNat = l.sharedNsEnd.toNat - l.sharedNsStart.toNat := by
    bv_omega
  rw [sharedPages, BitVec.toNat_udiv, BitVec.toNat_udiv, size]
  rfl

/-- `brk` accepts the start of a heap that does not wrap. -/
theorem brk_start (start size : Word) (noWrap : start.toNat + size.toNat < 2 ^ 64) :
    brk ⟨start, size, 0, 0⟩ start = (0, ⟨start, size, start, start⟩) := by
  have accepted : ¬ (start < start ∨ start + size < start) := by bv_omega
  simp only [brk, ne_eq, not_true_eq_false, if_false, if_neg accepted]

theorem kframeAllocateFixed_ne_zero (fa : KframeAlloc) (start count : Word) (proper : start ≠ 0) :
    (kframeAllocateFixed fa start count).1 ≠ 0 := by
  have failed : mapFailed ≠ 0 := by decide
  unfold kframeAllocateFixed
  simp only
  split
  · exact failed
  · split
    · exact failed
    · exact proper

/-- The boot code passes its tests whatever the layout: a failed reservation is -1. -/
theorem enableMmap_eq : enableMmap l ns realm bitmapNs bitmap =
    some ⟨(kframeAllocateFixed (l.insecureFrames ns bitmapNs) l.sharedPa l.sharedPages).2,
      (kframeAllocateFixed (l.secureFrames realm bitmap) l.heapPa heapPages).2,
      ⟨l.sharedNsStart, (l.sharedNsEnd - l.sharedNsStart) / 2, l.sharedNsStart, l.sharedNsStart⟩,
      ⟨l.sharedNsEnd, kernelHeapSize, l.sharedNsEnd, l.sharedNsEnd⟩,
      l.sharedPa, l.sharedPages, l.heapPa, heapPages⟩ := by
  have bounds := l.bounds
  have size : kernelHeapSize.toNat = 0x1000000 := rfl
  have half : ((l.sharedNsEnd - l.sharedNsStart) / 2).toNat = (l.sharedNsEnd - l.sharedNsStart).toNat / 2 :=
    BitVec.toNat_udiv
  have heap := brk_start l.sharedNsEnd kernelHeapSize (by omega)
  have shared := brk_start l.sharedNsStart ((l.sharedNsEnd - l.sharedNsStart) / 2) (by rw [half]; bv_omega)
  have sharedPassed := kframeAllocateFixed_ne_zero (l.insecureFrames ns bitmapNs) l.sharedPa l.sharedPages
    (by have := l.sharedPa_spec.2.1; bv_omega)
  have heapPassed := kframeAllocateFixed_ne_zero (l.secureFrames realm bitmap) l.heapPa heapPages
    (by have := l.heapPa_spec.2.1; bv_omega)
  unfold enableMmap
  simp only [l.heapStart_eq, kBrk, sharedBrk, heap, shared, lt_self_iff_false, or_self, if_false]
  exact (if_neg sharedPassed).trans (if_neg heapPassed)

/-- A reservation that fits its fresh arena marks its frames and keeps them for good. -/
theorem Fresh.reserve {fa : KframeAlloc} {start size : Word} (fresh : Fresh fa start size)
    (positive : 4096 ≤ size.toNat) (count : Word) (fits : 4096 * count.toNat ≤ size.toNat) :
    Reserved (kframeAllocateFixed fa start count).2 start count.toNat ∧
      NeverHandedOut (kframeAllocateFixed fa start count).2 (frameSpan start count.toNat) := by
  obtain ⟨tracks, frameStart, frameCount, roomy⟩ := fresh
  subst frameStart
  have noWrap : fa.frameStart.toNat + 4096 * count.toNat < 2 ^ 64 := by
    unfold Roomy at roomy
    omega
  rcases reserve_first tracks (by omega) count noWrap with ⟨_, _, p, after, held⟩ | ⟨beyond, _⟩
  · refine ⟨reserved_of_held after held, held ▸ neverHandedOut_of_held after ?_⟩
    have kept := kframeAllocateFixed_arena fa fa.frameStart count
    rw [Roomy, kept.1, kept.2]
    exact roomy
  · omega

/-- A reservation that does not fit marks not even its first frame. -/
theorem Fresh.not_reserved {fa : KframeAlloc} {start size : Word} (fresh : Fresh fa start size)
    (positive : 4096 ≤ size.toNat) (count : Word) (noWrap : start.toNat + 4096 * count.toNat < 2 ^ 64)
    (short : size.toNat < 4096 * count.toNat) :
    ¬ Reserved (kframeAllocateFixed fa start count).2 start count.toNat := by
  obtain ⟨tracks, frameStart, frameCount, _⟩ := fresh
  subst frameStart
  rcases reserve_first tracks (by omega) count noWrap with ⟨within, _⟩ | ⟨beyond, failed⟩
  · omega
  · rw [failed]
    exact not_reserved_of_fresh tracks (by omega)

theorem not_heapsReserved (short : l.ramEnd - l.sharedNsEnd < kernelHeapSize) :
    ¬ ∀ b, enableMmap l ns realm bitmapNs bitmap = some b → HeapsReserved b := by
  intro reserved
  have marked := (reserved _ (l.enableMmap_eq ns realm bitmapNs bitmap)).secure
  obtain ⟨_, _, _, _, _, a6, a7, _, _⟩ := l.aligned
  have bounds := l.bounds
  have below := l.heapPa_spec.2.2
  have pages : heapPages.toNat = 0x1000 := rfl
  have size : kernelHeapSize.toNat = 0x1000000 := rfl
  exact (l.fresh_secure realm bitmap).not_reserved (by bv_omega) heapPages (by omega) (by bv_omega) marked

/-- Whatever the layout, the boot code goes on; the frames of the heaps are reserved
exactly when the private heap fits between the shared memory and the end of RAM. -/
theorem heaps_reserved_iff :
    (∀ b, enableMmap l ns realm bitmapNs bitmap = some b → HeapsReserved b) ↔
      kernelHeapSize ≤ l.ramEnd - l.sharedNsEnd := by
  constructor
  · intro reserved
    cases Nat.lt_or_ge (l.ramEnd - l.sharedNsEnd).toNat kernelHeapSize.toNat with
    | inl short => exact absurd reserved (l.not_heapsReserved ns realm bitmapNs bitmap short)
    | inr fits => exact fits
  · intro fits b booted
    rw [enableMmap_eq] at booted
    cases booted
    obtain ⟨_, _, _, _, a5, a6, a7, _, _⟩ := l.aligned
    have bounds := l.bounds
    have pages : heapPages.toNat = 0x1000 := rfl
    have size : kernelHeapSize.toNat = 0x1000000 := rfl
    have shared := (l.fresh_insecure ns bitmapNs).reserve (by bv_omega) l.sharedPages
      (by rw [l.sharedPages_toNat]; bv_omega)
    have secure := (l.fresh_secure realm bitmap).reserve (by bv_omega) heapPages (by bv_omega)
    exact ⟨shared.1, secure.1, shared.2, secure.2⟩

end MemoryLayout

/- The image of the linker script with 6 MB up to the end of the shared memory: RAM is
aligned to 16 MB, so 10 MB are left. -/
def linkedLayout : MemoryLayout where
  binaryStart := 0xFFFFF00000000000
  bitmapNsStart := 0xFFFFF00000200000
  bitmapNsEnd := 0xFFFFF00000204000
  bitmapStart := 0xFFFFF00000204000
  bitmapEnd := 0xFFFFF00000208000
  sharedNsStart := 0xFFFFF00000400000
  sharedNsEnd := 0xFFFFF00000600000
  ramEnd := 0xFFFFF00001000000
  currentPaBase := 0x42000000
  sharedBit := 0x100000000
  base := rfl
  aligned := by decide
  ascending := by decide
  ram := by decide
  physical := by decide
  covers := by decide

/-- The boot code goes on, with the private heap beyond frames that are marked free. -/
theorem linked_layout_not_reserved :
    ¬ ∀ b, enableMmap linkedLayout ⟨0, 0, fun _ => 0, 0, 0⟩ ⟨0, 0, fun _ => 0, 0, 0⟩ (fun _ => 0)
      (fun _ => 0) = some b → HeapsReserved b :=
  linkedLayout.not_heapsReserved _ _ _ _ (by rw [linkedLayout]; decide)

end RealmVm
