import RealmVm.Boot.EnableMmap
import RealmVm.Elf.Format
import RealmVm.Lib.Loop

/-! The two phases of the kernel's relocation: `relocate_kernel` and `shift_to_va`. -/
namespace RealmVm

open Lib

def maxRelocations : Nat := 272

/- `rela_section`, `rela_table` and `reloc_symbol_table`. -/
structure RelaSection where
  header : Word
  table : Word
  symbols : Word
deriving DecidableEq

/- The search for the first RELA section, with `left` section headers to go. -/
def findRela (m : Word → Byte) (base sections : Word) : Nat → Word → Option RelaSection
  | 0, _ => none
  | left + 1, i =>
    let section_ := sections + 64 * i
    if shType m section_ = elf64ShtRela then
      some ⟨section_, base + shOffset m section_,
        shOffset m (sections + 64 * (shLink m section_).setWidth 64) + base⟩
    else findRela m base sections left (i + 1)

/- `rela_section->sh_size / rela_section->sh_entsize`, read again before every turn. -/
def RelaSection.count (r : RelaSection) (m : Word → Byte) : Word := shSize m r.header / shEntsize m r.header

def RelaSection.entry (r : RelaSection) (i : Word) : Word := r.table + 24 * i

/- `base + r_offset` -/
def RelaSection.target (r : RelaSection) (m : Word → Byte) (base i : Word) : Word := base + rOffset m (r.entry i)

def RelaSection.handled (r : RelaSection) (m : Word → Byte) (i : Word) : Bool :=
  let type := elf64RType (rInfo m (r.entry i))
  type = raarch64Abs64 || type = raarch64GlobData || type = raarch64JumpSlot

def RelaSection.symbol (r : RelaSection) (m : Word → Byte) (i : Word) : Word :=
  r.symbols + 24 * elf64RSym (rInfo m (r.entry i))

def RelaSection.addendValue (r : RelaSection) (m : Word → Byte) (i : Word) : Word :=
  stValue m (r.symbol m i) + rAddend m (r.entry i)

def RelaSection.relocate (r : RelaSection) (base : Word) (m : Word → Byte) (i : Word) : Word → Byte :=
  if r.handled m i then
    store64 m (r.target m base i) (base + stValue m (r.symbol m i) + rAddend m (r.entry i))
  else m

/- The counter is an `Elf64_Half`. -/
def relocateLoop (r : RelaSection) (base : Word) : Nat → (Word → Byte) → Half → Option (Word → Byte)
  | 0, _, _ => none
  | fuel + 1, m, i =>
    if i.setWidth 64 < r.count m then relocateLoop r base fuel (r.relocate base m (i.setWidth 64)) (i + 1)
    else some m

/- `global_relocations[i]`, for the table at `relocations`. -/
def storeAddress (relocations i : Word) : Word := relocations + 16 * i
def storeValue (relocations i : Word) : Word := relocations + 16 * i + 8

def clearRelocations (relocations : Word) : Nat → (Word → Byte) → Word → Byte
  | 0, m => m
  | n + 1, m =>
    let m := clearRelocations relocations n m
    store64 (store64 m (storeAddress relocations (BitVec.ofNat 64 n)) 0) (storeValue relocations (BitVec.ofNat 64 n)) 0

def RelaSection.record (r : RelaSection) (base relocations : Word) (m : Word → Byte) (i : Word) : Word → Byte :=
  let m := store64 m (storeAddress relocations i) (r.target m base i)
  store64 m (storeValue relocations i) (load64 m (r.target m base i) - base + kernelVaBase)

/- The memory afterwards, and the elements of `global_relocations` that were written. -/
def recordLoop (r : RelaSection) (base relocations : Word) :
    Nat → (Word → Byte) → Half → Option ((Word → Byte) × List Nat)
  | 0, _, _ => none
  | fuel + 1, m, i =>
    if i.setWidth 64 < r.count m then
      (recordLoop r base relocations fuel (r.record base relocations m (i.setWidth 64)) (i + 1)).map
        fun (m, recorded) => (m, i.toNat :: recorded)
    else some (m, [])

/- `none` also when there is no RELA section, where the source uses null pointers. -/
def relocateKernel (fuel : Nat) (m : Word → Byte) (base relocations : Word) : Option ((Word → Byte) × List Nat) :=
  match findRela m base (eShoff m base + base) (eShnum m base).toNat 0 with
  | none => none
  | some r =>
    match relocateLoop r base fuel m 0 with
    | none => none
    | some m => recordLoop r base relocations fuel (clearRelocations relocations maxRelocations m) 0

/- The loop of `shift_to_va`, with `left` elements to go. -/
def shiftLoop (relocations : Word) : Nat → Word → (Word → Byte) → Word → Byte
  | 0, _, m => m
  | left + 1, i, m =>
    let address := load64 m (storeAddress relocations i)
    if address = 0 then m
    else shiftLoop relocations left (i + 1) (store64 m address (load64 m (storeValue relocations i)))

def shiftToVa (m : Word → Byte) (relocations : Word) : Word → Byte := shiftLoop relocations maxRelocations 0 m

end RealmVm
