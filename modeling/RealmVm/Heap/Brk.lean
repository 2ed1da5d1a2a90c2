import RealmVm.Basic

/-! The two program breaks, of the private and of the shared heap. -/
namespace RealmVm

/- `heap_start`, `heap_size`, `k_sbrk_base` and `k_sbrk`, or their shared counterparts. -/
structure HeapBreak where
  heapStart : Word
  heapSize : Word
  sbrkBase : Word
  sbrk : Word
deriving DecidableEq

/- `-ENOMEM`, returned in the place of an address. -/
def enomemAddress : Word := -12

def brk (b : HeapBreak) (address : Word) : Int × HeapBreak :=
  if b.sbrkBase ≠ 0 then (-1, b)
  else if address < b.heapStart ∨ b.heapStart + b.heapSize < address then (-12, b)
  else (0, { b with sbrkBase := address, sbrk := address })

def kBrk (b : HeapBreak) (address : Word) : Int × HeapBreak := brk b address
def sharedBrk (b : HeapBreak) (address : Word) : Int × HeapBreak := brk b address

/- The branch for a negative length. -/
def sbrkDown (b : HeapBreak) (length : Word) : Word × HeapBreak :=
  let moved := b.sbrk - (0 - length)
  let sbrk := if moved < b.sbrkBase then b.sbrkBase else moved
  (sbrk, { b with sbrk := sbrk })

def kSbrk (b : HeapBreak) (length : Word) : Word × HeapBreak :=
  if length.slt 0 then sbrkDown b length
  else if length = 0 then (b.sbrk, b)
  else if b.heapStart + b.heapSize < length + b.sbrk then (enomemAddress, b)
  else (b.sbrk + length, { b with sbrk := b.sbrk + length })

def sharedSbrk (b : HeapBreak) (length : Word) : Word × HeapBreak :=
  if length.slt 0 then sbrkDown b length
  else if length = 0 then (b.sbrk, b)
  else if b.heapStart + b.heapSize < length + b.sbrk then (enomemAddress, b)
  else if length + b.sbrk < b.heapStart then (b.sbrkBase, { b with sbrk := b.sbrkBase })
  else (b.sbrk + length, { b with sbrk := b.sbrk + length })

/-- `k_sbrk` or `shared_sbrk`. -/
def sbrk (shared : Bool) (b : HeapBreak) (length : Word) : Word × HeapBreak :=
  if shared then sharedSbrk b length else kSbrk b length

/-- Asked for nothing, both give the break. -/
theorem sbrk_zero (shared : Bool) (b : HeapBreak) : sbrk shared b 0 = (b.sbrk, b) := by
  cases shared <;> rfl

/-- Within the heap both move the break up and return where it is now. -/
theorem sbrk_up (shared : Bool) {b : HeapBreak} (length : Word) (positive : 0 < length.toNat)
    (small : length.toNat < 2 ^ 63) (inside : b.heapStart ≤ b.sbrk)
    (fits : b.sbrk.toNat + length.toNat ≤ b.heapStart.toNat + b.heapSize.toNat)
    (noWrap : b.heapStart.toNat + b.heapSize.toNat < 2 ^ 64) :
    sbrk shared b length = (b.sbrk + length, { b with sbrk := b.sbrk + length }) := by
  have sign : length.msb = false := BitVec.msb_eq_false_iff_two_mul_lt.mpr (by omega)
  have up : length.slt 0 = false := BitVec.slt_zero_eq_msb.trans sign
  have some : length ≠ 0 := by bv_omega
  have room : ¬ b.heapStart + b.heapSize < length + b.sbrk := by bv_omega
  have above : ¬ length + b.sbrk < b.heapStart := by bv_omega
  cases shared with
  | true =>
    simp only [sbrk, if_true, sharedSbrk, up, Bool.false_eq_true, if_false, if_neg some, if_neg room, if_neg above]
  | false => simp only [sbrk, kSbrk, up, Bool.false_eq_true, if_false, if_neg some, if_neg room]

end RealmVm
