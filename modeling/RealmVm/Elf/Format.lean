import RealmVm.Basic
import RealmVm.Lib.Bytes

/-! ELF64 structures as they lie in memory: the members that the kernel reads. -/
namespace RealmVm

open Lib

abbrev Half := BitVec 16

def load16 (m : Word → Byte) (a : Word) : Half := BitVec.ofNat 16 (Bytes.load m a 2)
def load32 (m : Word → Byte) (a : Word) : BitVec 32 := BitVec.ofNat 32 (Bytes.load m a 4)
def load64 (m : Word → Byte) (a : Word) : Word := BitVec.ofNat 64 (Bytes.load m a 8)
def store64 (m : Word → Byte) (a v : Word) : Word → Byte := Bytes.store m a (Bytes.encode 8 v.toNat)

/- `Elf64_Ehdr` -/
def ePhoff (m : Word → Byte) (ehdr : Word) : Word := load64 m (ehdr + 32)
def ePhnum (m : Word → Byte) (ehdr : Word) : Half := load16 m (ehdr + 56)
def eShoff (m : Word → Byte) (ehdr : Word) : Word := load64 m (ehdr + 40)
def eShnum (m : Word → Byte) (ehdr : Word) : Half := load16 m (ehdr + 60)

/- `Elf64_Shdr`, 64 bytes -/
def shType (m : Word → Byte) (shdr : Word) : BitVec 32 := load32 m (shdr + 4)
def shOffset (m : Word → Byte) (shdr : Word) : Word := load64 m (shdr + 24)
def shSize (m : Word → Byte) (shdr : Word) : Word := load64 m (shdr + 32)
def shLink (m : Word → Byte) (shdr : Word) : BitVec 32 := load32 m (shdr + 40)
def shEntsize (m : Word → Byte) (shdr : Word) : Word := load64 m (shdr + 56)

/- `Elf64_Rela`, 24 bytes -/
def rOffset (m : Word → Byte) (rela : Word) : Word := load64 m rela
def rInfo (m : Word → Byte) (rela : Word) : Word := load64 m (rela + 8)
def rAddend (m : Word → Byte) (rela : Word) : Word := load64 m (rela + 16)

def elf64RSym (info : Word) : Word := info >>> 32
def elf64RType (info : Word) : Word := info &&& 0xFFFFFFFF

/- `Elf64_Sym`, 24 bytes -/
def stName (m : Word → Byte) (sym : Word) : BitVec 32 := load32 m sym
def stValue (m : Word → Byte) (sym : Word) : Word := load64 m (sym + 8)

def elf64ShtRela : BitVec 32 := 4
def shtDynsym : BitVec 32 := 11

/- `Elf64_Phdr`, 56 bytes, read as a whole. -/
structure Phdr where
  pType : BitVec 32
  pFlags : BitVec 32
  pOffset : Word
  pVaddr : Word
  pFilesz : Word
  pMemsz : Word
  pAlign : Word
deriving DecidableEq

def phdrAt (m : Word → Byte) (phdr : Word) : Phdr :=
  ⟨load32 m phdr, load32 m (phdr + 4), load64 m (phdr + 8), load64 m (phdr + 16), load64 m (phdr + 32),
    load64 m (phdr + 40), load64 m (phdr + 48)⟩

/- `phdr[i]` for the `e_phnum` values of `i`. -/
def phdrs (m : Word → Byte) (ehdr : Word) : List Phdr :=
  (List.range (ePhnum m ehdr).toNat).map fun i => phdrAt m (ehdr + ePhoff m ehdr + 56 * BitVec.ofNat 64 i)

def ptLoad : BitVec 32 := 1

def loads (m : Word → Byte) (ehdr : Word) : List Phdr := (phdrs m ehdr).filter fun phdr => phdr.pType = ptLoad

def raarch64Abs64 : Word := 257
def raarch64GlobData : Word := 1025
def raarch64JumpSlot : Word := 1026

variable {m m' : Word → Byte} {a b v : Word}

theorem load64_congr (same : ∀ x ∈ Bytes.span a 8, m x = m' x) : load64 m a = load64 m' a :=
  congrArg (BitVec.ofNat 64) (Bytes.load_congr (by decide) same)

@[simp] theorem load64_store64 (m : Word → Byte) (a v : Word) : load64 (store64 m a v) a = v := by
  unfold load64 store64
  rw [Bytes.load_store m a (Nat.lt_of_lt_of_eq v.isLt (by decide)) (by decide)]
  exact (BitVec.ofNat_toNat 64 v).trans (BitVec.setWidth_eq v)

theorem load64_store64_apart (apart : Disjoint (Bytes.span a 8) (Bytes.span b 8)) :
    load64 (store64 m b v) a = load64 m a :=
  congrArg (BitVec.ofNat 64) (Bytes.load_store_apart (by decide) apart)

theorem store64_outside {x : Word} (outside : x ∉ Bytes.span a 8) : store64 m a v x = m x :=
  Bytes.store_outside (by rwa [Bytes.length_encode])

theorem load64_of_bytes (bytes : Bytes.bytesAt m a 8 = Bytes.encode 8 v.toNat) : load64 m a = v := by
  unfold load64 Bytes.load
  rw [bytes]
  exact Bytes.ofNat_decode_encode 8 (by decide) v

theorem eq_of_load64 (same : load64 m a = load64 m' a) : ∀ x ∈ Bytes.span a 8, m x = m' x := by
  have value := congrArg BitVec.toNat same
  have first := Bytes.load_lt m a 8
  have second := Bytes.load_lt m' a 8
  have size : 256 ^ 8 = 2 ^ 64 := by decide
  rw [size] at first second
  unfold load64 at value
  rw [BitVec.toNat_ofNat, BitVec.toNat_ofNat, Nat.mod_eq_of_lt first, Nat.mod_eq_of_lt second] at value
  exact Bytes.eq_of_load (by decide) value

end RealmVm
