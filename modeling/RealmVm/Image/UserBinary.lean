import RealmVm.Image.FlatImage
import RealmVm.Image.SymbolAddress

/-! The image with the first program inside: `main` of `image_generator.c` as a whole, and how the VMM loads what it
makes. -/
namespace RealmVm.ImageGenerator

open Lib

/- `../user/test.elf`: the result of `open`, the bytes behind it, and what `user_buffer` held before. -/
structure TestElf where
  testFd : CInt
  contents : List Byte
  stale : Nat → Byte

namespace TestElf

variable (t : TestElf)

/- `lseek` gives the size, and -1 where `open` failed. -/
def testCount : Word :=
  let testCount : Word := if t.testFd.slt 0 then -1 else BitVec.ofNat 64 t.contents.length
  if testCount > 8192 then 8192 else testCount

/- After `read`, which stores nothing where `open` failed. -/
def userBuffer (i : Nat) : Byte := if t.testFd.slt 0 then t.stale i else t.contents.getD i (t.stale i)

/- The test of the descriptor does not see -1. -/
def copyUserData (testElfPtr : Word) (newMap : Word → Byte) : Word → Byte :=
  if t.testFd ≠ 0 ∧ testElfPtr ≠ 0 then
    Bytes.store newMap testElfPtr ((List.range t.testCount.toNat).map t.userBuffer)
  else newMap

end TestElf

theorem userBinary_noZero : 0 ∉ ([0x75, 0x73, 0x65, 0x72, 0x5f, 0x62, 0x69, 0x6e, 0x61, 0x72, 0x79] : List Byte) := by
  decide

def userBinary : CString :=
  ⟨[0x75, 0x73, 0x65, 0x72, 0x5f, 0x62, 0x69, 0x6e, 0x61, 0x72, 0x79], userBinary_noZero⟩

/- The file as it is mapped at `addr`. -/
def mapped (file : Word → Byte) (addr : Word) : Word → Byte := fun a => file (a - addr)

/- `main` as a whole, for an output file that did not exist before. -/
def mainWithUser (file : Word → Byte) (stSize addr : Word) (bFlag : Bool) (t : TestElf) : Option Image :=
  (getSymbolAddress (mapped file addr) addr userBinary).bind fun testElfPtr =>
    (main file stSize false).map fun image =>
      let newMap := t.copyUserData testElfPtr image.bytes
      { image with bytes := if bFlag then Bytes.store newMap 0 [0] else newMap }

/- The output file. -/
def Image.file (image : Image) : List Byte := Bytes.bytesAt image.bytes 0 image.size.toNat

/- `read_kernel`, and the write to the memory of the slot that the guest finds at `guestAddr`. `none` is the panic. -/
def loadKernel (slotRamSize guestAddr : Word) (buffer : List Byte) (m : Word → Byte) : Option (Word → Byte) :=
  if slotRamSize.toNat < buffer.length then none else some (Bytes.store m guestAddr buffer)

/-- A file that the program fits into: its segments can be copied and begin at address 0, and what the search for the
symbol comes to first is `user_binary`, 8 KB in the memory of a segment. -/
structure Embeds (file : Word → Byte) (stSize addr testElfPtr : Word) : Prop where
  linear : Linear stSize (loads file 0)
  copyable : Copyable stSize (loads file 0)
  zero : lowest (loads file 0) = 0
  symbol : ∃ d count b, DynamicImage (mapped file addr) addr d count ∧ b < reached count ∧
    FirstBegins (mapped file addr) addr d userBinary b ∧ valueOf (mapped file addr) addr d b = testElfPtr
  proper : testElfPtr ≠ 0
  small : testElfPtr.toNat < 2 ^ 31
  room : ∃ s ∈ loads file 0, start s ≤ testElfPtr.toNat ∧ testElfPtr.toNat + 8192 ≤ past s

/-- A program that is there and short enough. -/
structure TestElf.Present (t : TestElf) : Prop where
  opened : 0 < t.testFd.toInt
  short : t.contents.length ≤ 8192

/-- The image of the file with the program in its place. -/
structure Embedded (file : Word → Byte) (testElfPtr : Word) (bFlag : Bool) (t : TestElf) (image : Image) : Prop where
  size : image.size.toNat = roundUp (lastPast 0 (loads file 0))
  segments : ∀ s ∈ loads file 0, ∀ i < s.pFilesz.toNat, (bFlag = true → start s + i ≠ 0) →
    (start s + i < testElfPtr.toNat ∨ testElfPtr.toNat + t.contents.length ≤ start s + i) →
      image.bytes (BitVec.ofNat 64 (start s + i)) = file (s.pOffset + BitVec.ofNat 64 i)
  program : ∀ i (inside : i < t.contents.length),
    image.bytes (testElfPtr + BitVec.ofNat 64 i) = t.contents[i]

namespace TestElf.Present

variable {t : TestElf}

theorem buffer (present : t.Present) : (List.range t.testCount.toNat).map t.userBuffer = t.contents := by
  have opened := present.opened
  have short := present.short
  have there : t.testFd.slt 0 = false := by
    rw [BitVec.slt]
    exact decide_eq_false (Int.not_lt.mpr (Int.le_of_lt opened))
  have size : (BitVec.ofNat 64 t.contents.length).toNat = t.contents.length := Nat.mod_eq_of_lt (by omega)
  have small : ¬ BitVec.ofNat 64 t.contents.length > 8192 := by
    rw [gt_iff_lt, BitVec.lt_def, size]
    exact Nat.not_lt.mpr short
  have count : t.testCount.toNat = t.contents.length := by
    simp only [testCount, there, Bool.false_eq_true, if_false, if_neg small, size]
  rw [count]
  apply List.ext_getElem
  · simp
  · intro i first second
    simp only [List.getElem_map, List.getElem_range, userBuffer, there, Bool.false_eq_true, if_false]
    exact (List.getElem_eq_getD _).symm

theorem copied (present : t.Present) {testElfPtr : Word} (proper : testElfPtr ≠ 0) (newMap : Word → Byte) :
    t.copyUserData testElfPtr newMap = Bytes.store newMap testElfPtr t.contents := by
  have nonzero : t.testFd ≠ 0 := by
    intro none
    have opened := present.opened
    rw [none] at opened
    exact absurd opened (by decide)
  rw [copyUserData, if_pos ⟨nonzero, proper⟩, present.buffer]

end TestElf.Present

section Made

variable {file : Word → Byte} {stSize addr testElfPtr : Word}

theorem copyable_made (copyable : Copyable stSize (loads file 0)) (linear : Linear stSize (loads file 0)) :
    ∃ image, main file stSize false = some image ∧
      image.size.toNat = roundUp (lastPast 0 (loads file 0)) - (lowest (loads file 0)).toNat ∧
      ∀ s ∈ loads file 0, ∀ i < s.pFilesz.toNat,
        image.bytes (s.pVaddr - lowest (loads file 0) + BitVec.ofNat 64 i) = file (s.pOffset + BitVec.ofNat 64 i) := by
  obtain ⟨spare, nonempty, low, aligned, parity, fits⟩ := copyable
  have whole := (roundUp_facts (lastPast 0 (loads file 0))).2.2
  have top := (linear.highest low).1 parity
  have mapSize : (((loads file 0).map segment).foldl raise 0 - lowest (loads file 0)).toNat =
      roundUp (lastPast 0 (loads file 0)) - (lowest (loads file 0)).toNat := by
    rw [← top]
    exact BitVec.toNat_sub_of_le (by rw [BitVec.le_def, top]; exact Nat.le_of_lt nonempty)
  have accepted : mmapRefuses (((loads file 0).map segment).foldl raise 0 - lowest (loads file 0)) = false := by
    apply (mmapRefuses_iff _).mpr
    omega
  have good := (copies_good_iff low whole linear.ascending linear.within).mpr fits
  refine ⟨_, (main_eq linear).trans ((if_pos spare).trans (if_neg (by rw [accepted]; exact Bool.false_ne_true))), ?_, ?_⟩
  · rw [pages_toNat, mapSize]
    omega
  · exact contents_filled low whole linear.ascending linear.within good _

/-- The address that the search returns. -/
theorem Embeds.found (embeds : Embeds file stSize addr testElfPtr) :
    getSymbolAddress (mapped file addr) addr userBinary = some testElfPtr := by
  obtain ⟨d, count, b, dynamic, inside, first, value⟩ := embeds.symbol
  have same : returnAddr testElfPtr = testElfPtr := (returnAddr_eq_self_iff testElfPtr).mpr (Or.inl embeds.small)
  rw [dynamic.getSymbolAddress_eq, searchSymbols_found inside first, value, same]
  rfl

/-- The generator makes an image with both. -/
theorem Embeds.made (embeds : Embeds file stSize addr testElfPtr) {t : TestElf} (present : t.Present) (bFlag : Bool) :
    ∃ image, mainWithUser file stSize addr bFlag t = some image ∧ Embedded file testElfPtr bFlag t image := by
  obtain ⟨image, made, size, contents⟩ := copyable_made embeds.copyable embeds.linear
  rw [embeds.zero] at size contents
  have low := embeds.copyable.low
  have short := present.short
  obtain ⟨last, held, _, room⟩ := embeds.room
  have inside := (lastPast_le 0 (fun s _ => Nat.zero_le _) embeds.linear.ascending).2
  have whole := roundUp_facts (lastPast 0 (loads file 0))
  have place := inside last held
  have positive : 0 < testElfPtr.toNat := Nat.pos_of_ne_zero fun none => embeds.proper (BitVec.eq_of_toNat_eq none)
  -- what `-b` stores is at address 0
  have first {newMap : Word → Byte} {x : Word} (other : bFlag = true → x.toNat ≠ 0) :
      (if bFlag then Bytes.store newMap 0 [0] else newMap) x = newMap x := by
    cases bFlag with
    | false => rfl
    | true =>
      refine Bytes.store_outside fun member => other rfl ?_
      have near : (x - 0).toNat < 1 := member
      have same : x - 0 = x := BitVec.sub_zero x
      rw [same] at near
      exact Nat.lt_one_iff.mp near
  have run : mainWithUser file stSize addr bFlag t = some { image with
      bytes := if bFlag then Bytes.store (Bytes.store image.bytes testElfPtr t.contents) 0 [0]
        else Bytes.store image.bytes testElfPtr t.contents } := by
    rw [mainWithUser, embeds.found, Option.bind_some, made, Option.map_some, present.copied embeds.proper]
  refine ⟨_, run, size, ?_, ?_⟩
  · intro s member i inFile notFirst outside
    have filled := embeds.linear.filled s member
    have bound := inside s member
    have length : start s + s.pMemsz.toNat = past s := rfl
    have here : (BitVec.ofNat 64 (start s + i)).toNat = start s + i := Nat.mod_eq_of_lt (by omega)
    have address : s.pVaddr - 0 + BitVec.ofNat 64 i = BitVec.ofNat 64 (start s + i) := by
      have vaddr : BitVec.ofNat 64 (start s) = s.pVaddr := (BitVec.ofNat_toNat 64 s.pVaddr).trans (BitVec.setWidth_eq _)
      have same : s.pVaddr - 0 = s.pVaddr := BitVec.sub_zero s.pVaddr
      rw [same, BitVec.ofNat_add, vaddr]
    have found := contents s member i inFile
    rw [address] at found
    refine (first (by rwa [here])).trans (Eq.trans (Bytes.store_outside ?_) found)
    rw [Bytes.span, Set.mem_ofPred_eq, BitVec.toNat_sub, here]
    omega
  · intro i within
    have here : (testElfPtr + BitVec.ofNat 64 i).toNat = testElfPtr.toNat + i := by
      have offset : (BitVec.ofNat 64 i).toNat = i := Nat.mod_eq_of_lt (by omega)
      rw [BitVec.toNat_add_of_lt (by omega), offset]
    refine (first (by rw [here]; omega)).trans ?_
    rw [Bytes.store, Bytes.offset_toNat testElfPtr (by omega)]
    exact (List.getElem_eq_getD _).symm

/-- The image in guest memory. -/
theorem Embedded.loaded {bFlag : Bool} {t : TestElf} {image : Image} (embedded : Embedded file testElfPtr bFlag t image)
    {slotRamSize : Word} (fits : roundUp (lastPast 0 (loads file 0)) ≤ slotRamSize.toNat) (guestAddr : Word)
    (m : Word → Byte) : ∃ m', loadKernel slotRamSize guestAddr image.file m = some m' ∧
      ∀ n < roundUp (lastPast 0 (loads file 0)), m' (guestAddr + BitVec.ofNat 64 n) = image.bytes (BitVec.ofNat 64 n) := by
  have length : image.file.length = image.size.toNat := Bytes.length_bytesAt ..
  have bound := image.size.isLt
  rw [← embedded.size] at fits ⊢
  refine ⟨_, if_neg (by omega), fun n inside => ?_⟩
  have found := Bytes.store_bytesAt m image.bytes guestAddr 0 inside (by omega)
  exact found.trans (congrArg image.bytes (BitVec.zero_add _))

end Made

end RealmVm.ImageGenerator
