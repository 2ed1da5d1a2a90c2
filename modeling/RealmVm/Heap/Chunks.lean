import RealmVm.Heap.Brk
import RealmVm.Lib.Loop

/-! The two heaps of the kernel: `heap_init`, `_malloc`, `split` and `_free`. Memory is a
store of 64-bit words by address; the header of a chunk is four of them. -/
namespace RealmVm

open Lib

abbrev HeapMemory := Word → Word

/- `mem_chunk_t`. -/
structure Chunk where
  size : Word
  used : Word
  address : Word
  next : Word
deriving DecidableEq

namespace HeapMemory

def chunk (m : HeapMemory) (c : Word) : Chunk := ⟨m c, m (c + 8), m (c + 16), m (c + 24)⟩

def setSize (m : HeapMemory) (c v : Word) : HeapMemory := Function.update m c v
def setUsed (m : HeapMemory) (c v : Word) : HeapMemory := Function.update m (c + 8) v
def setAddress (m : HeapMemory) (c v : Word) : HeapMemory := Function.update m (c + 16) v
def setNext (m : HeapMemory) (c v : Word) : HeapMemory := Function.update m (c + 24) v

def next (m : HeapMemory) (c : Word) : Word := (m.chunk c).next

end HeapMemory

def sizeofMemChunk : Word := 32
def minHeapAlloc : Word := 8 + sizeofMemChunk
def heapMinSize : Word := 0x2000

/- `align(n, size)`: the second argument is not looked at. -/
def align (n _size : Word) : Word := (n + 7) &&& ~~~7

/- A `struct group_heap` and the break it grows by. -/
structure Heap where
  head : Word
  tail : Word
  brk : HeapBreak

/-- One half of `heap_init`. The chunk it records is longer than what the break gave. -/
def initHeap (shared : Bool) (m : HeapMemory) (b : HeapBreak) : Bool × HeapMemory × Heap :=
  let head := (sbrk shared b 0).1
  let out := sbrk shared b heapMinSize
  let heap : Heap := ⟨head, head, out.2⟩
  if out.1 = 0 then (false, m, heap)
  else
    let m := m.setSize head (heapMinSize + pageUp (out.1 + 1 - head))
    let m := m.setUsed head 0
    (true, m.setNext head 0, heap)

/- `private_heap`, then `shared_heap`; both are `{0, 0}` before. -/
def heapInit (m : HeapMemory) (privateBreak sharedBreak : HeapBreak) : Int × HeapMemory × Heap × Heap :=
  match initHeap false m privateBreak with
  | (false, m, privateHeap) => (0, m, privateHeap, ⟨0, 0, sharedBreak⟩)
  | (true, m, privateHeap) =>
    match initHeap true m sharedBreak with
    | (false, m, sharedHeap) => (0, m, privateHeap, sharedHeap)
    | (true, m, sharedHeap) => (1, m, privateHeap, sharedHeap)

def split (m : HeapMemory) (ptr startSize : Word) : Int × HeapMemory :=
  if (m.chunk ptr).used ≠ 0 then (0, m)
  else
    let totalSize := align (2 * sizeofMemChunk) 8 + startSize
    if (m.chunk ptr).size ≤ totalSize then (0, m)
    else
      let startSize := align (startSize + sizeofMemChunk) 8
      let tmp := ptr + startSize
      -- the new chunk's `address` stays what it was in memory
      let m := m.setSize tmp ((m.chunk ptr).size - startSize)
      let m := m.setNext tmp (m.chunk ptr).next
      let m := m.setUsed tmp 0
      let m := m.setSize ptr startSize
      (1, m.setNext ptr tmp)

/- From the label `success` on. -/
def mallocSuccess (m : HeapMemory) (heap : Heap) (tmp : Word) : Word × HeapMemory × Heap :=
  let m := m.setUsed tmp 1
  let m := m.setAddress tmp (tmp + sizeofMemChunk)
  let tail :=
    if tmp = heap.tail then (if (m.chunk tmp).next = 0 then tmp else (m.chunk tmp).next) else heap.tail
  ((m.chunk tmp).address, m, { heap with tail := tail })

/-- First fit: is this chunk the one? -/
def fits (m : HeapMemory) (allocSize tmp : Word) : Bool :=
  (m.chunk tmp).used == 0 && decide (allocSize ≤ (m.chunk tmp).size)

/-- `none` when the list has more chunks than `fuel`. -/
def malloc (fuel : Nat) (shared : Bool) (m : HeapMemory) (heap : Heap) (size : Word) :
    Option (Word × HeapMemory × Heap) :=
  if size = 0 then some (0, m, heap)
  else
    let allocSize := align (size + sizeofMemChunk) 8
    match follow m.next (fun tmp => tmp == 0 || fits m allocSize tmp) fuel heap.head with
    | none => none
    | some tmp =>
      if tmp ≠ 0 then
        if allocSize + minHeapAlloc < (m.chunk tmp).size then
          let out := split m tmp size
          if out.1 = 0 then some (0, out.2, heap) else some (mallocSuccess out.2 heap tmp)
        else some (mallocSuccess m heap tmp)
      else
        let out := sbrk shared heap.brk allocSize
        let tmp := out.1
        if tmp = 0 then some (0, m, { heap with brk := out.2 })
        else
          -- the new chunk is not linked to the list
          let m := m.setSize tmp allocSize
          let m := m.setNext tmp 0
          let m := m.setUsed tmp 0
          let m := m.setAddress tmp 0
          some (mallocSuccess m { heap with tail := tmp, brk := out.2 } tmp)

/-- The search loop of `_free`: `prev` and `ptr` as it leaves them. -/
def freeScan (m : HeapMemory) (addr : Word) : Nat → Word → Word → Option (Word × Word)
  | 0, _, _ => none
  | fuel + 1, prev, ptr =>
    if ptr = 0 ∨ (m.chunk ptr).address = addr then some (prev, ptr)
    else freeScan m addr fuel ptr (m.chunk ptr).next

/- `ptr` takes over an unused chunk behind it. -/
def absorbNext (m : HeapMemory) (ptr : Word) : HeapMemory :=
  let next := (m.chunk ptr).next
  if next ≠ 0 ∧ (m.chunk next).used = 0 then
    let m := m.setSize ptr ((m.chunk ptr).size + (m.chunk next).size)
    m.setNext ptr (m.chunk (m.chunk ptr).next).next
  else m

/- The chunk that is freed stays `used`. -/
def coalesce (m : HeapMemory) (prev ptr : Word) : HeapMemory :=
  let m := absorbNext m ptr
  if ptr ≠ prev ∧ (m.chunk prev).used = 0 then
    let m := m.setSize prev ((m.chunk prev).size + (m.chunk ptr).size)
    let m := m.setAddress prev 0
    m.setNext prev (m.chunk ptr).next
  else m

def free (fuel : Nat) (m : HeapMemory) (heap : Heap) (addr : Word) : Option HeapMemory :=
  match freeScan m addr fuel heap.head heap.head with
  | none => none
  | some (prev, ptr) => some (if ptr = 0 then m else coalesce m prev ptr)

/-! What a store does to the headers. -/

/-- The two headers have no word in common. -/
def HeadersApart (c d : Word) : Prop := 32 ≤ (c - d).toNat ∧ 32 ≤ (d - c).toNat

namespace HeapMemory

variable {m : HeapMemory} {c d v : Word}

@[simp] theorem chunk_setSize : (m.setSize c v).chunk c = { m.chunk c with size := v } := by
  simp [chunk, setSize]

@[simp] theorem chunk_setUsed : (m.setUsed c v).chunk c = { m.chunk c with used := v } := by
  simp [chunk, setUsed]

@[simp] theorem chunk_setAddress : (m.setAddress c v).chunk c = { m.chunk c with address := v } := by
  simp [chunk, setAddress]

@[simp] theorem chunk_setNext : (m.setNext c v).chunk c = { m.chunk c with next := v } := by
  simp [chunk, setNext]

/-- A store outside the header does not change it. -/
theorem chunk_update {a : Word} (outside : 32 ≤ (a - c).toNat) : chunk (Function.update m a v) c = m.chunk c := by
  have size : c ≠ a := by rintro rfl; simp at outside
  have used : c + 8 ≠ a := by bv_omega
  have address : c + 16 ≠ a := by bv_omega
  have next : c + 24 ≠ a := by bv_omega
  simp only [chunk, Function.update_of_ne size, Function.update_of_ne used, Function.update_of_ne address,
    Function.update_of_ne next]

theorem chunk_setSize_apart (apart : HeadersApart c d) : (m.setSize c v).chunk d = m.chunk d :=
  chunk_update apart.1

theorem chunk_setUsed_apart (apart : HeadersApart c d) : (m.setUsed c v).chunk d = m.chunk d :=
  chunk_update (by obtain ⟨low, high⟩ := apart; bv_omega)

theorem chunk_setAddress_apart (apart : HeadersApart c d) : (m.setAddress c v).chunk d = m.chunk d :=
  chunk_update (by obtain ⟨low, high⟩ := apart; bv_omega)

theorem chunk_setNext_apart (apart : HeadersApart c d) : (m.setNext c v).chunk d = m.chunk d :=
  chunk_update (by obtain ⟨low, high⟩ := apart; bv_omega)

end HeapMemory

theorem HeadersApart.symm {c d : Word} (apart : HeadersApart c d) : HeadersApart d c := ⟨apart.2, apart.1⟩

theorem headersApart_of_le {c d : Word} (order : c.toNat + 32 ≤ d.toNat) (fits : d.toNat + 32 ≤ 2 ^ 64) :
    HeadersApart c d := by
  constructor <;> bv_omega

end RealmVm
