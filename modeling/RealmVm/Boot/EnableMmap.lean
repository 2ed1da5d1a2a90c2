import RealmVm.Heap.Brk
import RealmVm.Vma.FrameRequests

/-! `enable_mmap` up to the point where the heaps are mapped. -/
namespace RealmVm

def kernelVaBase : Word := 0xFFFFF00000000000
def kernelHeapSize : Word := 0x1000000
def systemRamLength : Word := 0x800000000

/-- The linker symbols at their virtual addresses, the physical address the kernel was
loaded at, and the address bit of shared memory. The kernel runs at its base address,
the symbols ascend, the image lies in RAM, physical addresses have 48 bits, and each
bitmap has a byte for every frame of its arena. -/
structure MemoryLayout where
  binaryStart : Word
  bitmapNsStart : Word
  bitmapNsEnd : Word
  bitmapStart : Word
  bitmapEnd : Word
  sharedNsStart : Word
  sharedNsEnd : Word
  ramEnd : Word
  currentPaBase : Word
  sharedBit : Word
  base : binaryStart = kernelVaBase
  aligned : bitmapNsStart.toNat % 4096 = 0 ∧ bitmapNsEnd.toNat % 4096 = 0 ∧ bitmapStart.toNat % 4096 = 0 ∧
    bitmapEnd.toNat % 4096 = 0 ∧ sharedNsStart.toNat % 4096 = 0 ∧ sharedNsEnd.toNat % 4096 = 0 ∧
    ramEnd.toNat % 4096 = 0 ∧ currentPaBase.toNat % 4096 = 0 ∧ sharedBit.toNat % 4096 = 0
  ascending : binaryStart < bitmapNsStart ∧ bitmapNsStart < bitmapNsEnd ∧ bitmapNsEnd ≤ bitmapStart ∧
    bitmapStart < bitmapEnd ∧ bitmapEnd ≤ sharedNsStart ∧ sharedNsStart < sharedNsEnd ∧
    sharedNsEnd < ramEnd
  ram : ramEnd - binaryStart ≤ systemRamLength
  physical : currentPaBase.toNat + systemRamLength.toNat ≤ 2 ^ 48 ∧ sharedBit.toNat < 2 ^ 48
  covers : (sharedNsEnd - sharedNsStart).toNat ≤ (bitmapNsEnd - bitmapNsStart).toNat * 4096 ∧
    (ramEnd - sharedNsEnd).toNat ≤ (bitmapEnd - bitmapStart).toNat * 4096

/- The two allocators after the reservations, and the physical ranges that the two
mapping loops go over. -/
structure Booted where
  insecure : KframeAlloc
  secure : KframeAlloc
  sharedHeap : HeapBreak
  heap : HeapBreak
  sharedPa : Word
  sharedPages : Word
  heapPa : Word
  heapPages : Word

/-- `none` where the code stops: `crash()` or the endless loop behind a failed test. The
arguments are the allocators before initialisation and the memory behind the bitmaps. -/
def enableMmap (l : MemoryLayout) (ns realm : KframeAlloc) (bitmapNs bitmap : Word → Byte) :
    Option Booted :=
  let sharedSize := l.sharedNsEnd - l.sharedNsStart
  let sharedStart := (l.sharedNsStart - pageDown l.binaryStart + l.currentPaBase) ||| l.sharedBit
  let insecure := (kframeAllocatorInit ns bitmapNs (pageUp (l.bitmapNsEnd - l.bitmapNsStart)) sharedStart
    (pageUp sharedSize)).2
  let privateStart := l.sharedNsEnd - pageDown l.binaryStart + l.currentPaBase
  let secure := (kframeAllocatorInit realm bitmap (pageUp (l.bitmapEnd - l.bitmapStart)) privateStart
    (pageUp (l.ramEnd - l.sharedNsEnd))).2
  let heapStart := pageUp (l.sharedNsEnd - l.binaryStart) + kernelVaBase
  let heap := kBrk ⟨heapStart, kernelHeapSize, 0, 0⟩ heapStart
  let sharedHeap := sharedBrk ⟨l.sharedNsStart, sharedSize / 2, 0, 0⟩ l.sharedNsStart
  if heap.1 < 0 ∨ sharedHeap.1 < 0 then none
  else
    let sharedPa := (sharedHeap.2.heapStart - kernelVaBase + l.currentPaBase) ||| l.sharedBit
    let sharedPages := sharedHeap.2.heapSize / pageSize4KB
    let shared := kframeAllocateFixed insecure sharedPa sharedPages
    if shared.1 = 0 then none
    else
      let heapPa := heap.2.heapStart - kernelVaBase + l.currentPaBase
      let heapPages := heap.2.heapSize / pageSize4KB
      let reserved := kframeAllocateFixed secure heapPa heapPages
      if reserved.1 = 0 then none
      else some ⟨shared.2, reserved.2, sharedHeap.2, heap.2, sharedPa, sharedPages, heapPa, heapPages⟩

namespace MemoryLayout

variable (l : MemoryLayout)

theorem pageDown_binaryStart : pageDown l.binaryStart = kernelVaBase := by
  rw [l.base]
  decide

/-- The layout as inequalities between numbers. -/
theorem bounds : kernelVaBase.toNat = 0xFFFFF00000000000 ∧ l.binaryStart = kernelVaBase ∧
    kernelVaBase.toNat < l.bitmapNsStart.toNat ∧ l.bitmapNsStart.toNat < l.bitmapNsEnd.toNat ∧
    l.bitmapNsEnd.toNat ≤ l.bitmapStart.toNat ∧ l.bitmapStart.toNat < l.bitmapEnd.toNat ∧
    l.bitmapEnd.toNat ≤ l.sharedNsStart.toNat ∧ l.sharedNsStart.toNat < l.sharedNsEnd.toNat ∧
    l.sharedNsEnd.toNat < l.ramEnd.toNat ∧ l.ramEnd.toNat ≤ 0xFFFFF00800000000 ∧
    l.currentPaBase.toNat + 0x800000000 ≤ 2 ^ 48 ∧ l.sharedBit.toNat < 2 ^ 48 := by
  obtain ⟨first, second, third, fourth, fifth, sixth, seventh⟩ := l.ascending
  have ram := l.ram
  have origin : kernelVaBase.toNat = 0xFFFFF00000000000 := rfl
  rw [l.base] at first ram
  unfold systemRamLength at ram
  exact ⟨origin, l.base, first, second, third, fourth, fifth, sixth, seventh, by bv_omega, l.physical⟩

end MemoryLayout

end RealmVm
