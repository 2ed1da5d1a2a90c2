import RealmVm.Exception.Vectors
import RealmVm.Fd.FileCalls

/-! `handler.c` and the `syscall` of `syscall.c`: what the kernel does about an exception of each class. -/
namespace RealmVm

open Lib.A64

/- `context_t`, as the vector leaves it for a handler. -/
@[ext]
structure SavedContext where
  spsrEl1 : Word
  elrEl1 : Word
  esrEl1 : Word
  zero : Word
  x : Fin 32 → Word
  far : Word
  sp : Word

def contextAt (mem : Word → Word) (a : Word) : SavedContext :=
  let word (k : Nat) := mem (a + BitVec.ofNat 64 (8 * k))
  ⟨word 0, word 1, word 2, word 3, fun i => word (contextX0 + i), word 36, word 37⟩

@[simp] theorem contextAt_x (mem : Word → Word) (a : Word) (i : Fin 32) :
    (contextAt mem a).x i = mem (a + BitVec.ofNat 64 (8 * (contextX0 + i))) := rfl

@[simp] theorem contextAt_esrEl1 (mem : Word → Word) (a : Word) :
    (contextAt mem a).esrEl1 = mem (a + BitVec.ofNat 64 (8 * 2)) := rfl

/- `EC` of `esr_el1_t`: ISS takes 25 bits and IL one. -/
def SavedContext.ec (ctx : SavedContext) : BitVec 6 := ctx.esrEl1.extractLsb' 26 6

/- `ctx->x[0] = result` -/
def SavedContext.setResult (ctx : SavedContext) (result : Word) : SavedContext :=
  { ctx with x := Function.update ctx.x 0 result }

@[simp] theorem setResult_x (ctx : SavedContext) (result : Word) :
    (ctx.setResult result).x = Function.update ctx.x 0 result := rfl

/- What a piece of code sends to the VMM, block by block, and its value. There is none when it does not come back. -/
structure Served (α : Type) where
  blocks : List (Nat → Word)
  value : Option α

namespace Served

variable {α β : Type}

def bind (s : Served α) (next : α → Served β) : Served β :=
  s.value.elim ⟨s.blocks, none⟩ fun a => ⟨s.blocks ++ (next a).blocks, (next a).value⟩

instance : Monad Served where
  pure a := ⟨[], some a⟩
  bind := bind

@[simp] theorem pure_eq (a : α) : (pure a : Served α) = ⟨[], some a⟩ := rfl

@[simp] theorem bind_eq (s : Served α) (next : α → Served β) : s >>= next = s.bind next := rfl

@[simp] theorem bind_none (blocks : List (Nat → Word)) (next : α → Served β) :
    (⟨blocks, none⟩ : Served α).bind next = ⟨blocks, none⟩ := rfl

@[simp] theorem bind_some (blocks : List (Nat → Word)) (a : α) (next : α → Served β) :
    (⟨blocks, some a⟩ : Served α).bind next = ⟨blocks ++ (next a).blocks, (next a).value⟩ := rfl

end Served

/- `SYS_OPEN` and the others. -/
def nrOpen : Word := 56
def nrRead : Word := 63
def nrWrite : Word := 64
def nrLseek : Word := 61
def nrClose : Word := 57
def nrExit : Word := 93

def enosysWord : Word := 88

inductive SystemCall where
  | file (call : FileCall)
  | exit (value : CInt)
  | unknown

/- The `switch` of `syscall`; `len` is `strlen` of the path. -/
def systemCall (len nr arg0 arg1 arg2 : Word) : SystemCall :=
  if nr = nrOpen then .file (.open arg0 len (arg1.truncate 32) (arg2.truncate 32))
  else if nr = nrRead then .file (.read (arg0.truncate 32) arg1 arg2)
  else if nr = nrWrite then .file (.write (arg0.truncate 32) arg1 arg2)
  else if nr = nrLseek then .file (.lseek (arg0.truncate 32) arg1 (arg2.truncate 32))
  else if nr = nrClose then .file (.close (arg0.truncate 32))
  else if nr = nrExit then .exit (arg0.truncate 32)
  else .unknown

section Handlers

variable (e : FileEnv) (len : Word) (table : FdState) (fuel : Nat) (pid : Int)

/- The block of a call of the VMM that it does not come back from. A fault in front of it asks for an exit again, whose
block faults too. -/
def FileEnv.leaves (sent : Exchange) : Served Word :=
  ⟨sent.block.toList.filter fun block => e.Stores (block 0), sent.result⟩

def hvcCallExitFatal (reason : Word) : Served Unit := do
  let _ ← e.leaves (ioHypercall e.host e.behind hcallExit reason 0 0 0 0 0)

/- `EL1_EC_DATA_ABORT_1`: the kernel's own load or store goes through `curr_el_spx_sync` to `abort_exception_handler`. -/
def dataAbort1 : BitVec 6 := 0b100101

def kernelDataAbort : Served Unit := hvcCallExitFatal e (dataAbort1.setWidth 64)

/- A call whose loops do not end does not come back either. -/
def FileResult.served (r : Option FileResult) : Served (Word × FdState) :=
  r.elim ⟨[], none⟩ fun r =>
    ⟨r.block.toList ++ if r.aborted then (kernelDataAbort e).blocks else [], r.ret.map fun ret => (ret, r.table)⟩

def sysExit (value : CInt) : Served (Word × FdState) := do
  let _ ← e.leaves (exitWrapper e.host e.behind value)
  return (0, table)

def syscall (nr arg0 arg1 arg2 _arg3 _arg4 _arg5 : Word) : Served (Word × FdState) :=
  match systemCall len nr arg0 arg1 arg2 with
  | .file call => FileResult.served e (call.perform e table fuel pid)
  | .exit value => sysExit e table value
  | .unknown => return (-enosysWord, table)

def kernelSystemCallEntryHandler (ctx : SavedContext) : Served (SavedContext × FdState) := do
  let r ← syscall e len table fuel pid (ctx.x 8) (ctx.x 0) (ctx.x 1) (ctx.x 2) (ctx.x 3) (ctx.x 4) (ctx.x 5)
  return (ctx.setResult r.1, r.2)

def vmExitUnhandledException (ctx : SavedContext) : Served Unit := hvcCallExitFatal e (ctx.ec.setWidth 64)

def trapExceptionHandler (ctx : SavedContext) : Served Unit := vmExitUnhandledException e ctx

def abortExceptionHandler (ctx : SavedContext) : Served Unit := vmExitUnhandledException e ctx

def sveSimdFpExceptionHandler (ctx : SavedContext) : Served Unit := vmExitUnhandledException e ctx

def unsupportedExceptionHandler (ctx : SavedContext) : Served Unit := vmExitUnhandledException e ctx

def systemExceptionHandler (ctx : SavedContext) : Served Unit := vmExitUnhandledException e ctx

def svcExceptionHandler (ctx : SavedContext) : Served (SavedContext × FdState) :=
  kernelSystemCallEntryHandler e len table fuel pid ctx

def debugExceptionHandler (ctx : SavedContext) : Served Unit := vmExitUnhandledException e ctx

def stackAlignmentExceptionHandler (ctx : SavedContext) : Served Unit := vmExitUnhandledException e ctx

/- The cases of `sync_handler`, by their `EL1_EC_` values. -/
def trapClasses : List (BitVec 6) := [0b000011, 0b000100, 0b000101, 0b000110, 0b000001, 0b001010, 0b001100]
def abortClasses : List (BitVec 6) := [0b100000, 0b100001, 0b100010, 0b100100, 0b100101]
def spAlignClass : BitVec 6 := 0b100110
def fpClasses : List (BitVec 6) := [0b000111, 0b101000, 0b101100]
def debugClasses : List (BitVec 6) :=
  [0b110000, 0b110001, 0b110010, 0b110011, 0b110100, 0b110101, 0b111000, 0b111100, 0b001110, 0b001101]
def svcClasses : List (BitVec 6) := [0b010001, 0b010101]
def systemClasses : List (BitVec 6) := [0b011000, 0b011001]

instance (ec : BitVec 6) : Decidable (ec ∈ svcClasses) := inferInstance

def syncHandler (ctx : SavedContext) : Served (SavedContext × FdState) :=
  if ctx.ec ∈ trapClasses then do
    trapExceptionHandler e ctx
    return (ctx, table)
  else if ctx.ec ∈ abortClasses then do
    abortExceptionHandler e ctx
    return (ctx, table)
  else if ctx.ec = spAlignClass then do
    stackAlignmentExceptionHandler e ctx -- no `break`
    sveSimdFpExceptionHandler e ctx
    return (ctx, table)
  else if ctx.ec ∈ fpClasses then do
    sveSimdFpExceptionHandler e ctx
    return (ctx, table)
  else if ctx.ec ∈ debugClasses then do
    debugExceptionHandler e ctx -- no `break`
    svcExceptionHandler e len table fuel pid ctx
  else if ctx.ec ∈ svcClasses then svcExceptionHandler e len table fuel pid ctx
  else if ctx.ec ∈ systemClasses then do
    systemExceptionHandler e ctx
    return (ctx, table)
  else do
    unsupportedExceptionHandler e ctx
    return (ctx, table)

/- `irq_handler`, `fiq_handler` and `serror_handler`. -/
def irqHandler (ctx : SavedContext) : Served Unit := vmExitUnhandledException e ctx

def fiqHandler (ctx : SavedContext) : Served Unit := vmExitUnhandledException e ctx

def serrorHandler (ctx : SavedContext) : Served Unit := vmExitUnhandledException e ctx

def crash : Served Unit := hvcCallExitFatal e (-1)

/- The blocks of an exit. -/
def FileEnv.exits (reason : Word) : List (Nat → Word) :=
  if e.Stores hcallExit then [ioCall hcallExit reason 0 0 0 0 0 e.behind] else []

theorem leaves_exit (reason : Word) :
    e.leaves (ioHypercall e.host e.behind hcallExit reason 0 0 0 0 0) = ⟨e.exits reason, none⟩ := by
  have sent : ioHypercall e.host e.behind hcallExit reason 0 0 0 0 0 =
      ⟨some (ioCall hcallExit reason 0 0 0 0 0 e.behind), some (.exit 0), none⟩ := rfl
  have code : ioCall hcallExit reason 0 0 0 0 0 e.behind 0 = hcallExit := rfl
  rw [sent, FileEnv.leaves, FileEnv.exits, Option.toList_some, List.filter_singleton, code, cond_eq_ite]
  simp only [decide_eq_true_eq]

/-- The VMM exits in the middle of the call. -/
theorem hvcCallExitFatal_gone (reason : Word) : hvcCallExitFatal e reason = ⟨e.exits reason, none⟩ := by
  rw [hvcCallExitFatal, leaves_exit]
  rfl

theorem sysExit_gone (value : CInt) : sysExit e table value = ⟨e.exits (value.signExtend 64), none⟩ := by
  have same : e.leaves (exitWrapper e.host e.behind value) =
      e.leaves (ioHypercall e.host e.behind hcallExit (value.signExtend 64) 0 0 0 0 0) := rfl
  rw [sysExit, same, leaves_exit]
  rfl

theorem syncHandler_svc {ctx : SavedContext} (svc : ctx.ec ∈ svcClasses) :
    syncHandler e len table fuel pid ctx = kernelSystemCallEntryHandler e len table fuel pid ctx := by
  have classes : ∀ ec ∈ svcClasses, ec ∉ trapClasses ∧ ec ∉ abortClasses ∧ ec ≠ spAlignClass ∧ ec ∉ fpClasses ∧
      ec ∉ debugClasses := by
    decide
  obtain ⟨trap, abort, align, fp, debug⟩ := classes _ svc
  simp only [syncHandler, if_neg trap, if_neg abort, if_neg align, if_neg fp, if_neg debug, if_pos svc,
    svcExceptionHandler]

/-- Every other class ends with the first block: also where the `break` is missing, nothing behind it runs. -/
theorem syncHandler_gone {ctx : SavedContext} (other : ctx.ec ∉ svcClasses) :
    syncHandler e len table fuel pid ctx = ⟨e.exits (ctx.ec.setWidth 64), none⟩ := by
  have gone : vmExitUnhandledException e ctx = ⟨e.exits (ctx.ec.setWidth 64), none⟩ := hvcCallExitFatal_gone e _
  simp only [syncHandler, trapExceptionHandler, abortExceptionHandler, stackAlignmentExceptionHandler,
    sveSimdFpExceptionHandler, debugExceptionHandler, systemExceptionHandler, unsupportedExceptionHandler, gone,
    Served.bind_eq, Served.bind_none, if_neg other, ite_self]

/-- The context of the kernel's own fault, saved in the middle of a call, is handled like any other. -/
theorem syncHandler_kernelDataAbort {ctx : SavedContext} (own : ctx.ec = dataAbort1) :
    (syncHandler e len table fuel pid ctx).blocks = (kernelDataAbort e).blocks ∧
      (syncHandler e len table fuel pid ctx).value = none := by
  have other : ctx.ec ∉ svcClasses := by
    rw [own]
    decide
  rw [syncHandler_gone _ _ _ _ _ other, kernelDataAbort, hvcCallExitFatal_gone, own]
  exact ⟨rfl, rfl⟩

end Handlers

end RealmVm
