import RealmVm.Elf.Format

/-! `image_generator.c`: the program that turns the ELF file of the kernel into a flat image.
The file is its bytes by offset. `none` is a run without an image: an element of
`PROG_SEGMENTS` outside the array, or a mapping that the host refuses. -/
namespace RealmVm.ImageGenerator

open Lib

structure Segment where
  pOffset : Word
  pVaddr : Word
  pFilesz : Word
  pMemsz : Word
  pAlign : Word
  pVaddrEnd : Word
deriving DecidableEq

def maxSegments : Nat := 40

/- `PAGEUP(x)`. The mask is an `unsigned int`, so the upper half of the sum is lost. -/
def pageup (x : Word) : Word := (x + 0x1000 - 1) &&& 0xFFFFF000

def segment (phdr : Phdr) : Segment :=
  ⟨phdr.pOffset, phdr.pVaddr, phdr.pFilesz, phdr.pMemsz, phdr.pAlign, pageup (phdr.pVaddr + phdr.pMemsz)⟩

structure Scan where
  segments : List Segment
  lowestVirtAddr : Word

def scanHeaders : Scan → List Phdr → Option Scan
  | scan, [] => some scan
  | scan, phdr :: rest =>
    if phdr.pType = ptLoad then
      if scan.segments.length < maxSegments then
        scanHeaders ⟨scan.segments ++ [segment phdr],
          if phdr.pVaddr < scan.lowestVirtAddr then phdr.pVaddr else scan.lowestVirtAddr⟩ rest
      else none
    else scanHeaders scan rest

def raise (highest : Word) (s : Segment) : Word := if s.pVaddr > highest then s.pVaddrEnd else highest

/- What the array holds behind the segments. -/
def emptySegment : Segment := ⟨0, 0, 0, 0, 0, 0⟩

/- The loop looks at one element more than there are segments. -/
def highestVaddr (segments : List Segment) : Option Word :=
  if segments.length < maxSegments then some ((segments ++ [emptySegment]).foldl raise 0) else none

/- The arguments of one `memcpy`: offsets into the image and into the file. -/
structure Copy where
  dst : Word
  src : Word
  toWrite : Word
deriving DecidableEq

def copyUpTo (lowest : Word) (s next : Segment) : Copy :=
  let toWrite := next.pVaddr - s.pVaddr
  ⟨s.pVaddr - lowest, s.pOffset, if s.pOffset + s.pFilesz < next.pMemsz then pageup toWrite else toWrite⟩

def copyLast (stSize lowest : Word) (s : Segment) : Copy :=
  ⟨s.pVaddr - lowest, s.pOffset, if stSize - s.pOffset < s.pMemsz then stSize - s.pOffset else s.pMemsz⟩

def copies (stSize lowest : Word) : List Segment → List Copy
  | [] => []
  | [s] => [copyLast stSize lowest s]
  | s :: next :: rest => copyUpTo lowest s next :: copies stSize lowest (next :: rest)

def fill (file : Word → Byte) (copies : List Copy) : Word → Byte :=
  Bytes.storeAll (fun _ => 0) (copies.map fun c => (c.dst, Bytes.bytesAt file c.src c.toWrite.toNat))

structure Image where
  size : Word
  copies : List Copy
  bytes : Word → Byte

/- Lengths that no host maps: zero, and more than a process can address. -/
def mmapRefuses (length : Word) : Bool := length = 0 || 0x800000000000 < length

/- `main` for an output file that did not exist before, without the user binary. -/
def main (file : Word → Byte) (stSize : Word) (bFlag : Bool) : Option Image :=
  match scanHeaders ⟨[], -1⟩ (phdrs file 0) with
  | none => none
  | some scan =>
    match highestVaddr scan.segments with
    | none => none
    | some highest =>
      let mapSize := highest - scan.lowestVirtAddr
      if mmapRefuses mapSize || scan.segments.isEmpty then none
      else
        let copies := copies stSize scan.lowestVirtAddr scan.segments
        let filled := fill file copies
        some ⟨mapSize / 0x1000 * 0x1000, copies, if bFlag then Bytes.store filled 0 [0] else filled⟩

end RealmVm.ImageGenerator
