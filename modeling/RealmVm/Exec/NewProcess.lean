import RealmVm.Elf.LoadExecutable

/-! `create_new_process`: the arguments and the environment on the stack of the process. -/
namespace RealmVm

open Lib

def einval : Int := 22

/- A string as the kernel is given it, without its end. -/
structure CString where
  bytes : List Byte
  noZero : 0 ∉ bytes

def CString.strlen (s : CString) : Nat := s.bytes.length

/-- The bytes of the string and its end. -/
def StringAt (m : Word → Byte) (a : Word) (s : CString) : Prop := Bytes.bytesAt m a (s.strlen + 1) = s.bytes ++ [0]

instance (m : Word → Byte) (a : Word) (s : CString) : Decidable (StringAt m a s) :=
  inferInstanceAs (Decidable (_ = _))

/- `char *const arg[]` with a null pointer behind the strings; `none` is a null pointer in
the place of the array. -/
abbrev StringArray := Option (List CString)

def StringArray.strings (arg : StringArray) : List CString := arg.getD []

def checkAndGetCount (arg : StringArray) : CInt :=
  match arg with
  | none => BitVec.ofInt 32 (-einval)
  | some strings => BitVec.ofNat 32 strings.length

/-- The loops to `count`. -/
def StringArray.upTo (arg : StringArray) (count : CInt) : List CString := arg.strings.take count.toInt.toNat

/-- `total_count` after one of the loops: each sum is cut to an `int`. -/
def addStringSizes (totalCount : CInt) (strings : List CString) : CInt :=
  strings.foldl (fun total s => total + BitVec.ofNat 32 (8 + s.strlen + 1)) totalCount

def totalCount (argv envp : StringArray) (argCount envCount : CInt) : CInt :=
  let total := addStringSizes 0 (argv.upTo argCount)
  let total := addStringSizes total (envp.upTo envCount)
  let total := if envCount = 0 then total + 8 else total
  total + 2 * 8

/- `context_t`, the members that are set here. -/
structure Context where
  elrEl1 : Word
  x : Nat → Word
  sp : Word

/- `process_t`: what `load_executable` sets, and the rest that is set here. -/
structure UserProcess extends Process where
  pid : CInt
  cmdLine : Word
  ctx : Context

/-- The kernel's stores to user memory, byte by byte. `none` when one faults. -/
def Memory.storeBytes (m : Memory) (ttbr0 ttbr1 va : Word) : List Byte → Option Memory
  | [] => some m
  | b :: rest =>
    let mmu : Mmu := ⟨m.word, ttbr0, ttbr1⟩
    if mmu.permits .el1 true va then
      match mmu.translate va with
      | none => none
      | some a => Memory.storeBytes { m with word := WordBytes.setByte m.word a b } ttbr0 ttbr1 (va + 1) rest
    else none

/-- `ptr[index]` -/
def stringSlot (ptr : Word) (index : CInt) : Word := ptr + 8 * index.signExtend 64

def Memory.storePointer (m : Memory) (ttbr0 ttbr1 ptr : Word) (index : CInt) (v : Word) : Option Memory :=
  m.storeBytes ttbr0 ttbr1 (stringSlot ptr index) (Bytes.encode 8 v.toNat)

/-- One of the two loops: the pointer, then `strcpy`. It gives `index` and `ptr_str` at its end; `strlen(ptr_str)` is
the length of the string just copied. -/
def Memory.storeStrings (m : Memory) (ttbr0 ttbr1 ptr : Word) (index : CInt) (ptrStr : Word) :
    List CString → Option (CInt × Word × Memory)
  | [] => some (index, ptrStr, m)
  | s :: rest =>
    match m.storePointer ttbr0 ttbr1 ptr index ptrStr with
    | none => none
    | some m =>
      match m.storeBytes ttbr0 ttbr1 ptrStr (s.bytes ++ [0]) with
      | none => none
      | some m => m.storeStrings ttbr0 ttbr1 ptr (index + 1) (ptrStr + BitVec.ofNat 64 (s.strlen + 1)) rest

/-- The part of the stack from `ptr` on: both tables, each with a null pointer, and the strings. -/
def Memory.storeTables (m : Memory) (ttbr0 ttbr1 ptr : Word) (argv envp : StringArray) (argCount envCount : CInt) :
    Option Memory :=
  let ptrStr := stringSlot ptr (argCount + envCount + 2)
  match m.storeStrings ttbr0 ttbr1 ptr 0 ptrStr (argv.upTo argCount) with
  | none => none
  | some (index, ptrStr, m) =>
    match m.storePointer ttbr0 ttbr1 ptr index 0 with
    | none => none
    | some m =>
      match m.storeStrings ttbr0 ttbr1 ptr (index + 1) ptrStr (envp.upTo envCount) with
      | none => none
      | some (index, _, m) => m.storePointer ttbr0 ttbr1 ptr index 0

/-- `none` when a store to the stack faults. -/
def createNewProcess (m : Memory) (ttbr1 : Word) (p : UserProcess) (argv envp : StringArray) :
    Option (Int × UserProcess × Memory) :=
  let argCount := checkAndGetCount argv
  let envCount := checkAndGetCount envp
  if argCount.sle 0 then some (-einval, p, m)
  else
    let space := ((totalCount argv envp argCount envCount + 15) &&& ~~~0x0F).signExtend 64
    let ptr := p.stackBase - space
    let sp := ptr - 8
    match m.storeTables p.t.pgd ttbr1 ptr argv envp argCount envCount with
    | none => none
    | some m =>
      match m.storeBytes p.t.pgd ttbr1 sp (Bytes.encode 4 argCount.toNat) with
      | none => none
      | some m =>
        let x := Function.update p.ctx.x 0 (argCount.signExtend 64)
        let x := Function.update x 1 ptr
        let x := Function.update x 2 (stringSlot ptr (argCount + 1))
        some (0, { p with ctx := ⟨p.entry, x, sp⟩, cmdLine := ptr }, m)

end RealmVm
