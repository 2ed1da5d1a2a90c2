import RealmVm.Elf.Format
import RealmVm.Fd.Table
import RealmVm.Hypercall.Guest
import RealmVm.Lib.WordBytes
import RealmVm.User.Access
import RealmVm.Vma.Mmap

/-! `load_executable`: the image of an ELF file in the memory of a new process. Memory is
the physical one; the kernel reaches its own data through `pa` and the process through its
tables, which TTBR0 holds by then. -/
namespace RealmVm

open Lib

def enoexec : Int := 8

/- `e_type` and `e_entry` -/
def eType (m : Word → Byte) (ehdr : Word) : Half := load16 m (ehdr + 16)
def eEntry (m : Word → Byte) (ehdr : Word) : Word := load64 m (ehdr + 24)

def etExec : Half := 2
def etDyn : Half := 3

def pfR : BitVec 32 := 4
def pfW : BitVec 32 := 2
def pfX : BitVec 32 := 1

def elfPfToProt (pflags : BitVec 32) : CInt :=
  let prot : CInt := if pflags &&& pfR ≠ 0 then protR else 0
  let prot := prot ||| (if pflags &&& pfW ≠ 0 then protW else 0)
  prot ||| (if pflags &&& pfX ≠ 0 then protX else 0)

/- The members of `process_t` that are read or written here. -/
structure Process where
  t : TranslationTables
  headRegion : Word
  entry : Word
  stackBase : Word
  stackSize : Word

/- The arguments and what the calls outside return: `buf` is the block of `kmalloc`, `behind`
what is read from it where no data was copied to, `count` the result of `sys_read`, `blocks`
those of `kcalloc` in turn, `attributes` the bits of PAR_EL1 around the address. -/
structure LoadCall where
  data : Word
  size : Word
  buf : Word
  behind : Word → Byte
  count : Int
  blocks : Nat → Word
  mmapStart : Word
  ttbr1 : Word
  attributes : Word

def Memory.kernelByte (m : Memory) (va : Word) : Byte := WordBytes.byte m.word (m.pa va)

/-- `data && size > 0` -/
def LoadCall.HasData (call : LoadCall) : Prop := call.data ≠ 0 ∧ 0 < call.size

instance (call : LoadCall) : Decidable call.HasData := inferInstanceAs (Decidable (_ ∧ _))

/- The bytes from `data` on, by offset. -/
def LoadCall.image (call : LoadCall) (m : Memory) : Word → Byte := fun i => m.kernelByte (call.data + i)

/- The bytes from `buf` on, by offset. The loop does not write to them, so they are taken
once, after the copy. -/
def LoadCall.header (call : LoadCall) (m : Memory) : Word → Byte := fun i =>
  if call.HasData ∧ i < call.size then call.image m i else call.behind i

def sysMmapUser (fuel : Nat) (s : AddressSpace) (t : TranslationTables) (region mmapStart block address size : Word)
    (prot flags : CInt) : Option (Word × AddressSpace) :=
  genericMmap fuel s t region mmapStart block 0 1 address size (permToPt prot ||| ptUser) flags

/- The physical address, when the walk finds one. -/
def Mmu.translate (m : Mmu) (va : Word) : Option Word := (m.base va).bind fun pgd => walk m.word pgd va

/-- PAR_EL1 after `AT S1E1R`: the page with its attributes, or bit 0. -/
def Mmu.parEl1 (m : Mmu) (attributes va : Word) : Word :=
  if m.permits .el1 false va then
    match m.translate va with
    | none => 1
    | some pa => (pa &&& 0x0000FFFFFFFFF000) ||| (attributes &&& 0xFF00000000000FFE)
  else 1

/-- The loop of `copy_to_user` over physical memory, `copied` bytes after its start. `none`
when a store faults, from which the kernel does not come back. -/
def Memory.copyBytes (m : Memory) (ttbr0 ttbr1 dst src : Word) : Nat → Nat → Option Memory
  | 0, _ => some m
  | left + 1, copied =>
    let mmu : Mmu := ⟨m.word, ttbr0, ttbr1⟩
    let d := dst + BitVec.ofNat 64 copied
    if mmu.permits .el1 true d then
      match mmu.translate d with
      | none => none
      | some a =>
        let b := m.kernelByte (src + BitVec.ofNat 64 copied)
        Memory.copyBytes { m with word := WordBytes.setByte m.word a b } ttbr0 ttbr1 dst src left (copied + 1)
    else none

def Memory.copyToUser (m : Memory) (ttbr0 ttbr1 dst src count : Word) : Option (Word × Memory) :=
  if accessKernelOk ⟨m.word, ttbr0, ttbr1⟩ dst protRw ≠ 0 then some (-einvalWord, m)
  else (m.copyBytes ttbr0 ttbr1 dst src count.toNat 0).map fun m => (count, m)

/- One turn of the loop over the program headers, for a PT_LOAD. -/
def loadSegment (fuel : Nat) (call : LoadCall) (p : Process) (block : Word) (phdr : Phdr) (s : AddressSpace) :
    Option (Int × AddressSpace) :=
  let sz := phdr.pFilesz
  let prot := elfPfToProt phdr.pFlags ||| protW
  let base := pageDown phdr.pVaddr
  let loadSize := pageUp phdr.pMemsz
  let srcOffset := phdr.pOffset + call.data
  match sysMmapUser fuel s p.t p.headRegion call.mmapStart block base loadSize prot mapFixed with
  | none => none
  | some (address, s) =>
    if address = mapFailed ∨ address = 0 then some (-enomem, s)
    else
      match s.memory.copyToUser p.t.pgd call.ttbr1 (pageDown phdr.pVaddr) srcOffset sz with
      | none => none
      | some (_, memory) =>
        let mmu : Mmu := ⟨memory.word, p.t.pgd, call.ttbr1⟩
        let pa := getPhysicalAddress ⟨mmu.parEl1 call.attributes, 0⟩ address
        match pageTableMapUser memory p.t address pa (elfPfToProt phdr.pFlags) with
        | none => none
        | some (_, memory) => some (0, { s with memory := memory })

/- `mapped` regions were asked for before. -/
def loadSegments (fuel : Nat) (call : LoadCall) (p : Process) :
    Nat → List Phdr → AddressSpace → Option (Int × AddressSpace)
  | _, [], s => some (0, s)
  | mapped, phdr :: rest, s =>
    if phdr.pType = ptLoad then
      match loadSegment fuel call p (call.blocks mapped) phdr s with
      | none => none
      | some (ret, s) => if ret ≠ 0 then some (ret, s) else loadSegments fuel call p (mapped + 1) rest s
    else loadSegments fuel call p mapped rest s

/-- `none` when the kernel crashes or the fuel for the list of regions runs out. -/
def loadExecutable (fuel : Nat) (call : LoadCall) (p : Process) (s : AddressSpace) :
    Option (Int × Process × AddressSpace) :=
  if call.buf = 0 then some (-enomem, p, s)
  else if ¬ call.HasData ∧ call.count ≤ 0 then some (-enoexec, p, s)
  else
    let hdr := call.header s.memory
    if ¬ (eType hdr 0 = etExec ∨ eType hdr 0 = etDyn) then some (-enoexec, p, s)
    else
      let p := { p with entry := eEntry hdr 0 }
      match loadSegments fuel call p 0 (phdrs hdr 0) s with
      | none => none
      | some (ret, s) =>
        if ret ≠ 0 then some (ret, p, s)
        else
          let p := { p with stackBase := 0x7ff000, stackSize := 0x4000 }
          match sysMmapUser fuel s p.t p.headRegion call.mmapStart (call.blocks (loads hdr 0).length)
            (p.stackBase - p.stackSize) p.stackSize protRw mapFixed with
          | none => none
          | some (address, s) => if address = 0 then some (-enomem, p, s) else some (0, p, s)

end RealmVm
