import RealmVm.Hypercall.Vmm

/-! The guest's side: the wrappers of syscall.c over `io_hypercall`. -/
namespace RealmVm

/- `parEl1 va` is PAR_EL1 after `AT S1E1R, va`. -/
structure Guest where
  parEl1 : Word → Word
  sharedBit : Word

def translateVaToPa (g : Guest) (va : Word) : Word :=
  if g.parEl1 va &&& 1 ≠ 0 then 0 else g.parEl1 va

def getPhysicalAddress (g : Guest) (va : Word) : Word :=
  let pa := translateVaToPa g va
  let pa := (pa &&& ~~~0xFFF) ||| (va &&& 0xFFF)
  pa &&& ~~~((0xFF : Word) <<< 56)

def hcallOpen : Word := 0x8001
def hcallRead : Word := 0x8002
def hcallWrite : Word := 0x8003
def hcallLseek : Word := 0x8004
def hcallClose : Word := 0x8005
def hcallExit : Word := 0x8006

/- The seven words of the call block, and whatever lies behind it. -/
def ioCall (hvcCode arg0 arg1 arg2 arg3 arg4 arg5 : Word) (behind : Nat → Word) : Nat → Word
  | 0 => hvcCode
  | 1 => arg0
  | 2 => arg1
  | 3 => arg2
  | 4 => arg3
  | 5 => arg4
  | 6 => arg5
  | n => behind n

/-- A wrapper's run: the block it built, the host operation it led to and its value, all
absent where there is none. -/
structure Exchange where
  block : Option (Nat → Word)
  op : Option HostOp
  result : Option Word

/- The VMM answers synchronously, and the result is read back from slot 0. -/
def ioHypercall (host : Host) (behind : Nat → Word) (hvcCode arg0 arg1 arg2 arg3 arg4 arg5 : Word) :
    Exchange :=
  let block := ioCall hvcCode arg0 arg1 arg2 arg3 arg4 arg5 behind
  let handled := handleHypercall host block
  { block := some block
    op := handled.op
    result :=
      match handled.outcome with
      | .resumed _ hvcArgs => some (hvcArgs 0)
      | _ => none }

/- `(int)`, compared as a 64-bit value. -/
def Exchange.toInt (e : Exchange) : Exchange :=
  { e with result := e.result.map fun v => (v.truncate 32).signExtend 64 }

def rejected (code : Word) : Exchange := ⟨none, none, some code⟩

def einvalWord : Word := 22

section Wrappers

variable (g : Guest) (host : Host) (behind : Nat → Word)

def openWrapper (pathname : Word) (flags mode : CInt) : Exchange :=
  let data := getPhysicalAddress g pathname &&& ~~~g.sharedBit
  (ioHypercall host behind hcallOpen data (flags.signExtend 64) (mode.setWidth 64) 0 0 0).toInt

def readWrapper (fd : CInt) (buf count : Word) : Exchange :=
  if buf = 0 then rejected (-einvalWord)
  else
    let addr := getPhysicalAddress g buf &&& ~~~g.sharedBit
    if addr = -1 then rejected (-einvalWord)
    else ioHypercall host behind hcallRead (fd.signExtend 64) addr count 0 0 0

def writeWrapper (fd : CInt) (buf count : Word) : Exchange :=
  if buf = 0 then rejected (-einvalWord)
  else
    let addr := getPhysicalAddress g buf &&& ~~~g.sharedBit
    if addr = -1 then rejected (-einvalWord)
    else ioHypercall host behind hcallWrite (fd.signExtend 64) addr count 0 0 0

/- `offset` and `whence` are not used. -/
def lseekWrapper (fd : CInt) (_offset : Word) (_whence : CInt) : Exchange :=
  ioHypercall host behind hcallLseek (fd.signExtend 64) 0 0 0 0 0

def closeWrapper (fd : CInt) : Exchange :=
  (ioHypercall host behind hcallClose (fd.signExtend 64) 0 0 0 0 0).toInt

def exitWrapper (no : CInt) : Exchange :=
  (ioHypercall host behind hcallExit (no.signExtend 64) 0 0 0 0 0).toInt

end Wrappers

end RealmVm
