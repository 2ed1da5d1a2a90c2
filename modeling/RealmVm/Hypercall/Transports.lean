import RealmVm.Hypercall.Guest

/-! The two ways a hypercall leaves the guest: an `hvc` instruction with the arguments in
x0 to x5, or a block of words whose address goes over the UART. -/
namespace RealmVm

def hvcSyscallHv : CInt := 0
def hvcSyscallIo : CInt := 1

/- The immediate of an `hvc` instruction and the registers at it. -/
structure HvcTrap where
  imm : BitVec 16
  x0 : Word
  x1 : Word
  x2 : Word
  x3 : Word
  x4 : Word
  x5 : Word
deriving DecidableEq

/- `hvc_hypercall_macro`: the arguments stay where the call put them. -/
def hvcHypercallMacro (hvcCode : BitVec 16) (arg0 arg1 arg2 arg3 arg4 arg5 : Word) : HvcTrap :=
  ⟨hvcCode, arg0, arg1, arg2, arg3, arg4, arg5⟩

namespace Stub

def hypercallOpen := hvcHypercallMacro 0x8001
def hypercallRead := hvcHypercallMacro 0x8002
def hypercallWrite := hvcHypercallMacro 0x8003
def hypercallLseek := hvcHypercallMacro 0x8004
def hypercallClose := hvcHypercallMacro 0x8005
def hypercallExit := hvcHypercallMacro 0x8006

end Stub

/- `none` for a code without a stub, where nothing leaves the guest. -/
def hvcHypercall (hvcCode arg0 arg1 _arg2 arg3 arg4 arg5 : Word) : Option HvcTrap :=
  if hvcCode = hvcOpen then some (Stub.hypercallOpen arg0 arg1 arg1 arg3 arg4 arg5)
  else if hvcCode = hvcRead then some (Stub.hypercallRead arg0 arg1 arg1 arg3 arg4 arg5)
  else if hvcCode = hvcWrite then some (Stub.hypercallWrite arg0 arg1 arg1 arg3 arg4 arg5)
  else if hvcCode = hvcLseek then some (Stub.hypercallLseek arg0 arg1 arg1 arg3 arg4 arg5)
  else if hvcCode = hvcClose then some (Stub.hypercallClose arg0 arg1 arg1 arg3 arg4 arg5)
  else if hvcCode = hvcExit then some (Stub.hypercallExit arg0 arg1 arg1 arg3 arg4 arg5)
  else none

inductive Delivery where
  | hvc (trap : HvcTrap)
  | block (words : Nat → Word)

/- `mode` is the variable of that name. -/
def hvcCall (mode : CInt) (behind : Nat → Word) (hvcCode arg0 arg1 arg2 arg3 arg4 arg5 : Word) : Option Delivery :=
  if mode = hvcSyscallHv then (hvcHypercall hvcCode arg0 arg1 arg2 arg3 arg4 arg5).map .hvc
  else some (.block (ioCall hvcCode arg0 arg1 arg2 arg3 arg4 arg5 behind))

/-- What the other side is asked for. -/
structure Request where
  code : Word
  arg0 : Word
  arg1 : Word
  arg2 : Word
  arg3 : Word
  arg4 : Word
  arg5 : Word
deriving DecidableEq

def Delivery.request : Delivery → Request
  | .hvc trap => ⟨trap.imm.setWidth 64, trap.x0, trap.x1, trap.x2, trap.x3, trap.x4, trap.x5⟩
  | .block words => ⟨words 0, words 1, words 2, words 3, words 4, words 5, words 6⟩

def request (mode : CInt) (behind : Nat → Word) (hvcCode arg0 arg1 arg2 arg3 arg4 arg5 : Word) : Option Request :=
  (hvcCall mode behind hvcCode arg0 arg1 arg2 arg3 arg4 arg5).map Delivery.request

variable {behind : Nat → Word} {hvcCode arg0 arg1 arg2 arg3 arg4 arg5 : Word}

/- The codes, of which each has a stub. -/
def KnownCode (hvcCode : Word) : Prop := hvcOpen ≤ hvcCode ∧ hvcCode ≤ hvcExit

theorem known_cases (known : KnownCode hvcCode) : hvcCode = hvcOpen ∨ hvcCode = hvcRead ∨ hvcCode = hvcWrite ∨
    hvcCode = hvcLseek ∨ hvcCode = hvcClose ∨ hvcCode = hvcExit := by
  obtain ⟨low, high⟩ := known
  simp only [hvcOpen, hvcRead, hvcWrite, hvcLseek, hvcClose, hvcExit] at *
  bv_omega

/-- Every stub receives its second argument twice, and the third argument is lost. -/
theorem request_hv (known : KnownCode hvcCode) :
    request hvcSyscallHv behind hvcCode arg0 arg1 arg2 arg3 arg4 arg5 =
      some ⟨hvcCode, arg0, arg1, arg1, arg3, arg4, arg5⟩ := by
  rcases known_cases known with rfl | rfl | rfl | rfl | rfl | rfl
  all_goals rfl

theorem request_io : request hvcSyscallIo behind hvcCode arg0 arg1 arg2 arg3 arg4 arg5 =
    some ⟨hvcCode, arg0, arg1, arg2, arg3, arg4, arg5⟩ := rfl

/-- The transports agree on the calls whose second and third argument are equal. -/
theorem transports_agree_iff (behind : Nat → Word) (known : KnownCode hvcCode) :
    request hvcSyscallHv behind hvcCode arg0 arg1 arg2 arg3 arg4 arg5 =
      request hvcSyscallIo behind hvcCode arg0 arg1 arg2 arg3 arg4 arg5 ↔ arg1 = arg2 := by
  rw [request_hv known, request_io]
  constructor
  · intro same
    exact congrArg Request.arg2 (Option.some.inj same)
  · rintro rfl
    rfl

theorem transports_agree_iff_close :
    request hvcSyscallHv (fun _ => 0) hvcClose 3 0 0 0 0 0 = request hvcSyscallIo (fun _ => 0) hvcClose 3 0 0 0 0 0 ↔
      (0 : Word) = 0 :=
  transports_agree_iff _ ⟨by decide, by decide⟩

/-- A read of 64 bytes to 0x1000 asks for 0x1000 bytes. -/
theorem transports_disagree_read : ¬ ∀ hvcCode arg0 arg1 arg2 arg3 arg4 arg5 : Word, KnownCode hvcCode →
    request hvcSyscallHv (fun _ => 0) hvcCode arg0 arg1 arg2 arg3 arg4 arg5 =
      request hvcSyscallIo (fun _ => 0) hvcCode arg0 arg1 arg2 arg3 arg4 arg5 := by
  intro agree
  have same := agree hvcRead 3 0x1000 64 0 0 0 ⟨by decide, by decide⟩
  rw [request_hv ⟨by decide, by decide⟩, request_io] at same
  exact absurd (congrArg Request.arg2 (Option.some.inj same)) (by decide)

end RealmVm
