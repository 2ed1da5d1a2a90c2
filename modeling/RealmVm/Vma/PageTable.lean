import RealmVm.Vma.Walk

/-! `page_table_map` and its three wrappers. -/
namespace RealmVm

/- The tables by physical address, and the pointers through which the kernel edits them.
`length` and `flags` of the source's structure are read by nothing here. -/
structure TranslationTables where
  pgd : Word
  pud : Word
  pmd : Word
  pt3 : Word
  startVa : Word
  startPa : Word
  vaPgd : Word
  vaPud : Word
  vaPmd : Word
  vaPt3 : Word

/- `512 * 0x400 * 0x400 * 0x400` is an `int` product: 2^39 does not fit and wraps to 0.
The division by it is an AArch64 UDIV, which yields 0, like division of bit vectors. -/
def bytes512gb : Word := ((512 : CInt) * 0x400 * 0x400 * 0x400).signExtend 64
def bytes1gb : Word := ((0x400 : CInt) * 0x400 * 0x400).signExtend 64
def bytes2mb : Word := ((0x2 : CInt) * 0x400 * 0x400).signExtend 64

/-- Reads an entry and, when it is invalid, writes a link to `table`. The two addresses
are separate arguments because the level-2 step computes them differently. -/
def linkLevel (m : Memory) (readAt writeAt table : Word) : Memory :=
  let entry := m.load readAt
  if isValid entry then m else m.store writeAt (linkEntry entry table)

/-- `none` when `crash()` is called, which does not return. -/
def pageTableMap (m : Memory) (t : TranslationTables) (va pa : Word) (flags isDev : CInt) :
    Option (CInt × Memory) :=
  let index := va - t.startVa
  let which512gb := index / bytes512gb
  let which1gb := index / bytes1gb
  let which2mb := index / bytes2mb
  if 0 < which512gb then none
  else if 512 < vaOffset48L0 va then some (-1, m)
  else
    let l0 := entryAddress t.vaPgd (vaOffset48L0 va)
    let m := linkLevel m l0 l0 (t.pud + which512gb * pageSize4KB)
    let l1 := entryAddress t.vaPud (vaOffset48L1 va)
    let m := linkLevel m l1 l1 (t.pmd + which1gb * pageSize4KB)
    -- read at `offset + which_1gb * 512`, written at `offset + (which_1gb * 512) / 4096`
    let m := linkLevel m (entryAddress t.vaPmd (vaOffset48L2 va + which1gb * 512))
      (entryAddress t.vaPmd (vaOffset48L2 va + which1gb * 512 / pageSize4KB))
      (t.pt3 + which2mb * pageSize4KB)
    some (0, m.store (entryAddress t.vaPt3 (vaOffset48L3 va + which2mb * 512))
      (leafEntry pa flags isDev))

def pageTableMapUser (m : Memory) (t : TranslationTables) (va pa : Word) (flags : CInt) :
    Option (CInt × Memory) :=
  pageTableMap m t va pa (permToPt flags ||| ptUser) 0

def pageTableMapKernel (m : Memory) (t : TranslationTables) (va pa : Word) (flags : CInt) :
    Option (CInt × Memory) :=
  pageTableMap m t va pa (permToPt flags ||| ptKernel) 0

def pageTableMapDevice (m : Memory) (t : TranslationTables) (va pa : Word) (flags : CInt) :
    Option (CInt × Memory) :=
  pageTableMap m t va pa (orAssign (permToPt flags) (ptKernel.signExtend 64 ||| ptNx)) 1

theorem plain_user (prot : CInt) : PlainFlags (permToPt prot ||| ptUser) := by
  rcases permToPt_cases prot with h | h <;> rw [h] <;> decide

theorem plain_kernel (prot : CInt) : PlainFlags (permToPt prot ||| ptKernel) := by
  rcases permToPt_cases prot with h | h <;> rw [h] <;> decide

theorem plain_device (prot : CInt) :
    PlainFlags (orAssign (permToPt prot) (ptKernel.signExtend 64 ||| ptNx)) := by
  rcases permToPt_cases prot with h | h <;> rw [h] <;> decide

end RealmVm
