import RealmVm.Vma.Descriptors

/-! The VMM's side of a hypercall: `handle_hypercall` and the host operations it calls. -/
namespace RealmVm

inductive HostOp where
  | open (path : Word) (flags mode : CInt)
  | read (fd : CInt) (buf len : Word)
  | write (fd : CInt) (buf len : Word)
  | lseek (fd : CInt) (offset : Word) (whence : CInt)
  | close (fd : CInt)
  | exit (status : CInt)
deriving DecidableEq

/- `io::Result<u64>` of an operation that may also not come back. -/
inductive WriteReply where
  | ok (count : Word)
  | err
  | never
deriving DecidableEq

/-- What the host answers. `none` for a read whose loop does not end. -/
structure Host where
  hypercallOpen : Word → CInt → CInt → CInt
  hypercallRead : CInt → Word → Word → Option Word
  hypercallWrite : CInt → Word → Word → WriteReply
  lseek : CInt → Word → CInt → Word
  hypercallClose : CInt → CInt

inductive Outcome where
  | resumed (ret : Word) (hvcArgs : Nat → Word)
  | panicked
  | exited
  | stuck

structure Handled where
  op : Option HostOp
  outcome : Outcome

def hvcOpen : Word := 0x8001
def hvcRead : Word := 0x8002
def hvcWrite : Word := 0x8003
def hvcLseek : Word := 0x8004
def hvcClose : Word := 0x8005
def hvcExit : Word := 0x8006

def setSlot (hvcArgs : Nat → Word) (v : Word) : Nat → Word
  | 0 => v
  | n + 1 => hvcArgs (n + 1)

/- `as c_int` and `as mode_t` truncate, `as u64` of an `i32` sign-extends. -/
def handleHypercall (host : Host) (hvcArgs : Nat → Word) : Handled :=
  let int (n : Nat) : CInt := (hvcArgs n).truncate 32
  if hvcArgs 0 = hvcOpen then
    ⟨some (.open (hvcArgs 1) (int 2) (int 3)),
      .resumed 0 (setSlot hvcArgs ((host.hypercallOpen (hvcArgs 1) (int 2) (int 3)).signExtend 64))⟩
  else if hvcArgs 0 = hvcRead then
    ⟨some (.read (int 1) (hvcArgs 2) (hvcArgs 3)),
      match host.hypercallRead (int 1) (hvcArgs 2) (hvcArgs 3) with
      | some v => .resumed 0 (setSlot hvcArgs v)
      | none => .stuck⟩
  else if hvcArgs 0 = hvcWrite then
    ⟨some (.write (int 1) (hvcArgs 2) (hvcArgs 3)),
      match host.hypercallWrite (int 1) (hvcArgs 2) (hvcArgs 3) with
      | .ok count => .resumed 0 (setSlot hvcArgs count)
      | .err => .panicked -- `unwrap`
      | .never => .stuck⟩
  else if hvcArgs 0 = hvcLseek then
    ⟨some (.lseek (int 1) (hvcArgs 2) (int 3)),
      .resumed 0 (setSlot hvcArgs (host.lseek (int 1) (hvcArgs 2) (int 3)))⟩
  else if hvcArgs 0 = hvcClose then
    ⟨some (.close (int 2)), .resumed 0 (setSlot hvcArgs ((host.hypercallClose (int 2)).signExtend 64))⟩
  else if hvcArgs 0 = hvcExit then ⟨some (.exit (int 2)), .exited⟩
  else ⟨none, .resumed 1 (setSlot hvcArgs (BitVec.allOnes 64))⟩

/-- The value of an operation as a 64-bit result; a failed write is -1. -/
def Host.reply (host : Host) : HostOp → Option Word
  | .open path flags mode => some ((host.hypercallOpen path flags mode).signExtend 64)
  | .read fd buf len => host.hypercallRead fd buf len
  | .write fd buf len =>
    match host.hypercallWrite fd buf len with
    | .ok count => some count
    | .err => some (-1)
    | .never => none
  | .lseek fd offset whence => some (host.lseek fd offset whence)
  | .close fd => some ((host.hypercallClose fd).signExtend 64)
  | .exit _ => none

end RealmVm
