import RealmVm.Vma.Walk

/-! Stage-1 permission checks: what `AT` reports for an address under the current tables. -/
namespace RealmVm

open Lib.Bits

inductive El where
  | el0 | el1
deriving DecidableEq

/- Physical memory and the two table bases. -/
structure Mmu where
  word : Word → Word
  ttbr0 : Word
  ttbr1 : Word

/-- T0SZ = T1SZ = 16 and no tag byte: the upper 16 bits select the half. -/
def Mmu.base (m : Mmu) (va : Word) : Option Word :=
  if va >>> 48 = 0 then some (nextLevelTableAddress m.ttbr0)
  else if va >>> 48 = 0xFFFF then some (nextLevelTableAddress m.ttbr1)
  else none

/- A hierarchical attribute bit, joined over the table descriptors on the way. -/
def tableAttribute (word : Word → Word) (pgd va : Word) (bit : Nat) : Bool :=
  let l0 := word (entryAddress pgd (vaOffset48L0 va))
  let l1 := word (entryAddress (nextLevelTableAddress l0) (vaOffset48L1 va))
  let l2 := word (entryAddress (nextLevelTableAddress l1) (vaOffset48L2 va))
  l0.getLsbD bit || (isLink l1 && (l1.getLsbD bit || (isLink l2 && l2.getLsbD bit)))

/-- AP[1] (bit 6) opens the page to EL0, AP[2] (bit 7) makes it read-only, AF is bit 10. -/
def Mmu.permits (m : Mmu) (el : El) (write : Bool) (va : Word) : Bool :=
  match m.base va with
  | none => false
  | some pgd =>
    match walkLeaf m.word pgd va with
    | none => false
    | some leaf =>
      let user := leaf.desc.getLsbD 6 && !tableAttribute m.word pgd va 61
      let readOnly := leaf.desc.getLsbD 7 || tableAttribute m.word pgd va 62
      leaf.desc.getLsbD 10 && (el == .el1 || user) && !(write && readOnly)

/- Bit 0 of PAR_EL1 after the address translation instruction. -/
def faultBit (m : Mmu) (el : El) (write : Bool) (va : Word) : CInt :=
  if m.permits el write va then 0 else 1

def accessOk (m : Mmu) (el : El) (va : Word) (prot : CInt) : CInt :=
  if prot = protRw ∨ prot = protW then faultBit m el true va
  else if prot = protR then faultBit m el false va
  else if prot = protRwx then faultBit m el true va
  else 0

/-- AT S1E0R / S1E0W. -/
def accessUserOk (m : Mmu) (va : Word) (prot : CInt) : CInt := accessOk m .el0 va prot

/-- AT S1E1R / S1E1W. -/
def accessKernelOk (m : Mmu) (va : Word) (prot : CInt) : CInt := accessOk m .el1 va prot

end RealmVm
