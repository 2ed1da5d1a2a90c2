import RealmVm.Fd.Refinement
import RealmVm.User.SysRead

/-! `sys_open`, `sys_read`, `sys_write`, `sys_lseek` and `sys_close` over the descriptor table. -/
namespace RealmVm

open Lib

/- What a call finds outside the table; `newBuffer` is what `smalloc` returns, and `callBlock code` what `scalloc` returns
for the block of a hypercall. -/
structure FileEnv where
  mmu : Mmu
  guest : Guest
  host : Host
  behind : Nat → Word
  newBuffer : Word
  callBlock : Word → Word
  bytes : Word → Byte

/- What a call returned, if it came back, the call block that it sent, and the table behind it. `aborted` says that a
load or a store of the kernel faulted in it. -/
structure FileResult where
  ret : Option Word
  block : Option (Nat → Word)
  table : FdState
  aborted : Bool

def refuse (table : FdState) (code : Word) : FileResult := ⟨some (-code), none, table, false⟩

def faulted (table : FdState) (block : Option (Nat → Word)) : FileResult := ⟨none, block, table, true⟩

/- `io_call < 0` is never true: where `scalloc` has no memory, the block is stored at address 0. -/
def FileEnv.Stores (e : FileEnv) (code : Word) : Prop :=
  e.callBlock code ≠ 0 ∨ ∀ i < 56, e.mmu.permits .el1 true (BitVec.ofNat 64 i) = true

instance (e : FileEnv) (code : Word) : Decidable (e.Stores code) :=
  inferInstanceAs (Decidable (_ ∨ ∀ i < 56, _))

/- What comes of a wrapper's run. -/
def FileEnv.exchange (e : FileEnv) (table : FdState) (sent : Exchange) : FileResult :=
  match sent.block with
  | none => ⟨sent.result, none, table, false⟩
  | some block => if e.Stores (block 0) then ⟨sent.result, some block, table, false⟩ else faulted table none

/- `get_host_fd` for the current process, and what follows when it finds an entry. -/
def withHostFd (table : FdState) (fuel : Nat) (pid : Int) (fd : CInt) (found : Int → Option FileResult) :
    Option FileResult :=
  match table.getHostFd fuel pid fd.toInt with
  | none => none
  | some hostFd => if hostFd < 0 then some (refuse table enoentWord) else found hostFd

/-- `strlen` reads the path and its end. -/
def ReadablePath (m : Mmu) (pathname len : Word) : Prop :=
  ∀ i ≤ len.toNat, m.permits .el1 false (pathname + BitVec.ofNat 64 i) = true

instance (m : Mmu) (pathname len : Word) : Decidable (ReadablePath m pathname len) :=
  inferInstanceAs (Decidable (∀ i ≤ len.toNat, _))

/- `len` is `strlen(pathname)`, which the code cuts to an `int`; `memcpy` then reads as much. -/
def sysOpen (e : FileEnv) (table : FdState) (pathname len : Word) (flags mode : CInt) : FileResult :=
  let length : CInt := len.truncate 32
  if pathname = 0 then refuse table einvalWord
  else if ¬ ReadablePath e.mmu pathname len then faulted table none
  else if length = 0 then refuse table einvalWord
  else if e.newBuffer = 0 then refuse table enomemWord
  else if ¬ Readable e.mmu pathname (length.signExtend 64) then faulted table none
  else e.exchange table (openWrapper e.guest e.host e.behind e.newBuffer flags mode)

def readFound (e : FileEnv) (table : FdState) (fd : CInt) (buf count : Word) (hostFd : Int) : Option FileResult :=
  if e.newBuffer = 0 then some (refuse table enomemWord)
  else
    let sent := e.exchange table (readWrapper e.guest e.host e.behind fd e.newBuffer count)
    if sent.aborted then some sent
    else
      let read := sysRead ⟨e.mmu, e.guest, e.host, e.behind, hostFd, e.newBuffer, e.bytes⟩ fd buf count
      some ⟨read.ret, sent.block, table, sent.ret.isSome && read.ret.isNone⟩

/- `transferred` is a `size_t`, so the comparison with 0 is unsigned. -/
def writeFound (e : FileEnv) (table : FdState) (fd : CInt) (buf count : Word) (_hostFd : Int) : Option FileResult :=
  if e.newBuffer = 0 then some (refuse table enomemWord)
  else if accessKernelOk e.mmu buf protR = 0 ∧ ¬ Readable e.mmu buf count then some (faulted table none)
  else
    let transferred := (copyFromUser e.mmu e.bytes e.newBuffer buf count).ret
    if transferred < 0 then some ⟨some transferred, none, table, false⟩
    else some (e.exchange table (writeWrapper e.guest e.host e.behind fd e.newBuffer count))

def lseekFound (e : FileEnv) (table : FdState) (offset : Word) (whence : CInt) (hostFd : Int) : Option FileResult :=
  some (e.exchange table (lseekWrapper e.host e.behind (BitVec.ofInt 32 hostFd) offset whence))

/- `delete_fd(pid, fd, host_fd)`: the parameters are `(pid, host_fd, k_fd)`. -/
def closeFound (e : FileEnv) (table : FdState) (fuel : Nat) (pid : Int) (fd : CInt) (hostFd : Int) :
    Option FileResult :=
  let sent := e.exchange table (closeWrapper e.host e.behind (BitVec.ofInt 32 hostFd))
  if sent.aborted then some sent
  else
    match table.deleteFd fuel pid fd.toInt hostFd with
    | none => none
    | some (_, table) => some ⟨some 0, sent.block, table, false⟩

inductive FileCall where
  | open (pathname len : Word) (flags mode : CInt)
  | read (fd : CInt) (buf count : Word)
  | write (fd : CInt) (buf count : Word)
  | lseek (fd : CInt) (offset : Word) (whence : CInt)
  | close (fd : CInt)

/- The system calls: all but `sys_open` begin with the lookup. -/
def FileCall.perform (e : FileEnv) (table : FdState) (fuel : Nat) (pid : Int) : FileCall → Option FileResult
  | .open pathname len flags mode => some (sysOpen e table pathname len flags mode)
  | .read fd buf count => withHostFd table fuel pid fd (readFound e table fd buf count)
  | .write fd buf count => withHostFd table fuel pid fd (writeFound e table fd buf count)
  | .lseek fd offset whence => withHostFd table fuel pid fd (lseekFound e table offset whence)
  | .close fd => withHostFd table fuel pid fd (closeFound e table fuel pid fd)

/- The descriptor that a call is about, and the hypercall it makes for it. -/
def FileCall.onFd : FileCall → Option (CInt × Word)
  | .open _ _ _ _ => none
  | .read fd _ _ => some (fd, hcallRead)
  | .write fd _ _ => some (fd, hcallWrite)
  | .lseek fd _ _ => some (fd, hcallLseek)
  | .close fd => some (fd, hcallClose)

section Lookup

variable {table : FdState} {f : FdMap} {ptrs : List Word} {pid : Int} {fd : CInt}

theorem withHostFd_missing (holds : table.Holds f ptrs) (missing : f (pid, fd.toInt) = none)
    (found : Int → Option FileResult) {fuel : Nat} (enough : ptrs.length < fuel) :
    withHostFd table fuel pid fd found = some (refuse table enoentWord) := by
  have lookup := FdState.getHostFd_spec holds pid fd.toInt enough
  rw [missing, Option.getD_none] at lookup
  simp only [withHostFd, lookup]
  rfl

theorem withHostFd_entry (holds : table.Holds f ptrs) {hostFd : Int} (entry : f (pid, fd.toInt) = some hostFd)
    (proper : 0 ≤ hostFd) (found : Int → Option FileResult) {fuel : Nat} (enough : ptrs.length < fuel) :
    withHostFd table fuel pid fd found = found hostFd := by
  have lookup := FdState.getHostFd_spec holds pid fd.toInt enough
  rw [entry, Option.getD_some] at lookup
  simp only [withHostFd, lookup]
  exact if_neg (Int.not_lt.mpr proper)

/-- Without an entry every call on the descriptor returns `-ENOENT`. -/
theorem FileCall.refused (call : FileCall) (holds : table.Holds f ptrs) (missing : f (pid, fd.toInt) = none)
    {code : Word} (about : call.onFd = some (fd, code)) (e : FileEnv) :
    Returns (fun fuel => call.perform e table fuel pid) (refuse table enoentWord) := by
  refine ⟨ptrs.length, fun fuel enough => ?_⟩
  cases call with
  | «open» pathname len flags mode => exact nomatch about
  | read fd' buf count =>
    obtain ⟨rfl, _⟩ := Prod.mk.inj (Option.some.inj about)
    exact withHostFd_missing holds missing (readFound e table fd' buf count) enough
  | write fd' buf count =>
    obtain ⟨rfl, _⟩ := Prod.mk.inj (Option.some.inj about)
    exact withHostFd_missing holds missing (writeFound e table fd' buf count) enough
  | lseek fd' offset whence =>
    obtain ⟨rfl, _⟩ := Prod.mk.inj (Option.some.inj about)
    exact withHostFd_missing holds missing (lseekFound e table offset whence) enough
  | close fd' =>
    obtain ⟨rfl, _⟩ := Prod.mk.inj (Option.some.inj about)
    exact withHostFd_missing holds missing (closeFound e table fuel pid fd') enough

/-- The call block that a descriptor's call sends to the host. -/
def Sends (code : Word) (fd : CInt) (r : FileResult) : Prop :=
  ∃ block, r.block = some block ∧ block 0 = code ∧ block 1 = fd.signExtend 64

theorem exchange_stored {e : FileEnv} (table : FdState) {sent : Exchange} {block : Nat → Word}
    (built : sent.block = some block) (stores : e.Stores (block 0)) :
    e.exchange table sent = ⟨sent.result, some block, table, false⟩ := by
  simp only [FileEnv.exchange, built, if_pos stores]

theorem exchange_faults {e : FileEnv} (table : FdState) {sent : Exchange} {block : Nat → Word}
    (built : sent.block = some block) (faults : ¬ e.Stores (block 0)) :
    e.exchange table sent = faulted table none := by
  simp only [FileEnv.exchange, built, if_neg faults]

theorem exchange_table (e : FileEnv) (table : FdState) (sent : Exchange) : (e.exchange table sent).table = table := by
  unfold FileEnv.exchange
  split
  · rfl
  · split
    · rfl
    · rfl

theorem sysOpen_sent {e : FileEnv} (table : FdState) {pathname len : Word} (flags mode : CInt) (given : pathname ≠ 0)
    (readable : ReadablePath e.mmu pathname len) (long : (len.truncate 32 : CInt) ≠ 0) (allocated : e.newBuffer ≠ 0)
    (copied : Readable e.mmu pathname ((len.truncate 32 : CInt).signExtend 64)) :
    sysOpen e table pathname len flags mode =
      e.exchange table (openWrapper e.guest e.host e.behind e.newBuffer flags mode) := by
  simp only [sysOpen, if_neg given, if_neg (not_not_intro readable), if_neg long, if_neg allocated,
    if_neg (not_not_intro copied)]

theorem readWrapper_block (e : FileEnv) (fd : CInt) (count : Word) (allocated : e.newBuffer ≠ 0) :
    (readWrapper e.guest e.host e.behind fd e.newBuffer count).block =
      some (ioCall hcallRead (fd.signExtend 64) (hostAddress e.guest e.newBuffer) count 0 0 0 e.behind) := by
  have address := hostAddress_ne e.guest e.newBuffer
  unfold hostAddress at address
  simp only [readWrapper, if_neg allocated, if_neg address, ioHypercall, hostAddress]

theorem writeWrapper_block (e : FileEnv) (fd : CInt) (count : Word) (allocated : e.newBuffer ≠ 0) :
    (writeWrapper e.guest e.host e.behind fd e.newBuffer count).block =
      some (ioCall hcallWrite (fd.signExtend 64) (hostAddress e.guest e.newBuffer) count 0 0 0 e.behind) := by
  have address := hostAddress_ne e.guest e.newBuffer
  unfold hostAddress at address
  simp only [writeWrapper, if_neg allocated, if_neg address, ioHypercall, hostAddress]

theorem readFound_sent {e : FileEnv} (table : FdState) (fd : CInt) (buf count : Word) (hostFd : Int)
    (allocated : e.newBuffer ≠ 0) (stores : e.Stores hcallRead) :
    let sent := readWrapper e.guest e.host e.behind fd e.newBuffer count
    let read := sysRead ⟨e.mmu, e.guest, e.host, e.behind, hostFd, e.newBuffer, e.bytes⟩ fd buf count
    readFound e table fd buf count hostFd =
      some ⟨read.ret, sent.block, table, sent.result.isSome && read.ret.isNone⟩ := by
  have built := readWrapper_block e fd count allocated
  simp only [readFound, if_neg allocated, exchange_stored table built stores, built, Bool.false_eq_true, if_false]

theorem writeFound_sent {e : FileEnv} (table : FdState) (fd : CInt) {buf count : Word} (hostFd : Int)
    (allocated : e.newBuffer ≠ 0) (fine : accessKernelOk e.mmu buf protR = 0 → Readable e.mmu buf count) :
    writeFound e table fd buf count hostFd =
      some (e.exchange table (writeWrapper e.guest e.host e.behind fd e.newBuffer count)) := by
  have never : ¬ (copyFromUser e.mmu e.bytes e.newBuffer buf count).ret < 0 := BitVec.not_lt_zero
  have noFault : ¬ (accessKernelOk e.mmu buf protR = 0 ∧ ¬ Readable e.mmu buf count) := fun fault =>
    fault.2 (fine fault.1)
  simp only [writeFound, if_neg allocated, if_neg noFault, if_neg never]

theorem signExtend_ofInt (x : CInt) : (BitVec.ofInt 32 x.toInt).signExtend 64 = x.signExtend 64 :=
  congrArg (BitVec.signExtend 64) BitVec.ofInt_toInt

/-- `sys_close` finds the entry although it swaps the arguments of `delete_fd`, since both
descriptors are the same. -/
theorem FileCall.closed (holds : table.Holds f ptrs) (entry : f (pid, fd.toInt) = some fd.toInt)
    (proper : 0 ≤ fd.toInt) {e : FileEnv} (stores : e.Stores hcallClose) :
    ∃ r ptrs', Returns (fun fuel => (FileCall.close fd).perform e table fuel pid) r ∧ Sends hcallClose fd r ∧
      r.ret = some 0 ∧ r.table.Holds (Function.update f (pid, fd.toInt) none) ptrs' := by
  obtain ⟨table', ptrs', deleted, after⟩ := FdState.deleteFd_spec holds entry
  have sent := @exchange_stored e table (closeWrapper e.host e.behind (BitVec.ofInt 32 fd.toInt)) _ rfl stores
  refine ⟨⟨some 0, (closeWrapper e.host e.behind (BitVec.ofInt 32 fd.toInt)).block, table', false⟩, ptrs',
    ⟨ptrs.length, fun fuel enough => ?_⟩, ⟨_, rfl, rfl, signExtend_ofInt fd⟩, rfl, after⟩
  refine (withHostFd_entry holds entry proper (closeFound e table fuel pid fd) enough).trans ?_
  simp only [closeFound, sent, deleted fuel enough]
  rfl

end Lookup

end RealmVm
