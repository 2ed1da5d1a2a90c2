import RealmVm.Exception.Handlers
import RealmVm.Exception.SystemCalls
import RealmVm.Fd.OpenFiles
import RealmVm.User.FileData

/-! What the kernel is for its programs: a set of open descriptors behind the registers at `svc`. -/
namespace RealmVm

open Lib Lib.A64

/- What the guest reads in the first word of a block, if the VMM goes on. -/
def Host.answers (host : Host) : HostOp → Option Word
  | .open path flags mode => some ((host.hypercallOpen path flags mode).signExtend 64)
  | .read fd buf len => host.hypercallRead fd buf len
  | .write fd buf len =>
    match host.hypercallWrite fd buf len with
    | .ok count => some count
    | .err | .never => none
  | .lseek fd offset whence => some (host.lseek fd offset whence)
  | .close fd => some ((host.hypercallClose fd).signExtend 64)
  | .exit _ => none

/- The code of the call that leads to it. -/
def HostOp.code : HostOp → Word
  | .open _ _ _ => hcallOpen
  | .read _ _ _ => hcallRead
  | .write _ _ _ => hcallWrite
  | .lseek _ _ _ => hcallLseek
  | .close _ => hcallClose
  | .exit _ => hcallExit

/-- What an exception is for the programs: what the host is asked, the result if there is one, and the descriptors
that are open afterwards. -/
structure Answer where
  ops : List HostOp
  ret : Option Word
  opened : Set (Int × Int)

section Answers

variable (e : FileEnv) (opened : Set (Int × Int)) (pid : Int)

def Answer.fails (code : Word) : Answer := ⟨[], some (-code), opened⟩

/- The end of everything, where there is memory to ask for it. -/
def Answer.exits : Answer := ⟨if e.Stores hcallExit then [.exit 0] else [], none, opened⟩

def Answer.asks (op : HostOp) : Answer :=
  if e.Stores op.code then ⟨[op], e.host.answers op, opened⟩ else .exits e opened

/-- The kernel faults on the way from its buffer to the program's. -/
def FileEnv.CopyFaults (buf found : Word) : Prop :=
  accessKernelOk e.mmu buf protRw = 0 ∧ e.mmu.turns buf e.newBuffer found.toNat 0 < found.toNat

open Classical in
noncomputable def Answer.thenCopies (asked : Answer) (buf : Word) : Answer :=
  if ∃ found, asked.ret = some found ∧ e.CopyFaults buf found then
    ⟨asked.ops ++ (Answer.exits e opened).ops, none, opened⟩
  else asked

open Classical in
/-- Only open descriptors are passed on, and a file that is opened is not entered. A fault of the kernel on the memory
of the program is the end. -/
noncomputable def FileCall.answer : FileCall → Answer
  | .open pathname len flags mode =>
    let length : CInt := len.truncate 32
    if pathname = 0 then .fails opened einvalWord
    else if ¬ ReadablePath e.mmu pathname len then .exits e opened
    else if length = 0 then .fails opened einvalWord
    else if e.newBuffer = 0 then .fails opened enomemWord
    else if ¬ Readable e.mmu pathname (length.signExtend 64) then .exits e opened
    else .asks e opened (.open (hostAddress e.guest e.newBuffer) flags mode)
  | .read fd buf count =>
    if (pid, fd.toInt) ∉ opened then .fails opened enoentWord
    else if e.newBuffer = 0 then .fails opened enomemWord
    else (Answer.asks e opened (.read fd (hostAddress e.guest e.newBuffer) count)).thenCopies e opened buf
  | .write fd buf count =>
    if (pid, fd.toInt) ∉ opened then .fails opened enoentWord
    else if e.newBuffer = 0 then .fails opened enomemWord
    else if accessKernelOk e.mmu buf protR = 0 ∧ ¬ Readable e.mmu buf count then .exits e opened
    else .asks e opened (.write fd (hostAddress e.guest e.newBuffer) count)
  | .lseek fd _ _ =>
    if (pid, fd.toInt) ∉ opened then .fails opened enoentWord else .asks e opened (.lseek fd 0 0)
  | .close fd =>
    if (pid, fd.toInt) ∉ opened then .fails opened enoentWord
    else if e.Stores hcallClose then ⟨[.close 0], some 0, opened \ {(pid, fd.toInt)}⟩
    else .exits e opened

noncomputable def SystemCall.answer : SystemCall → Answer
  | .file call => call.answer e opened pid
  | .exit _ => .exits e opened
  | .unknown => .fails opened enosysWord

end Answers

/- `lower_el_aarch64_sync` and its neighbours. -/
inductive LowerElVector where
  | sync | irq | fiq | serror
deriving DecidableEq

/- An exception from EL0: the process that it is taken from, what the kernel finds outside of its table, and the
processor at the vector and at `eret`. -/
structure Exception where
  vector : LowerElVector
  pid : Int
  env : FileEnv
  len : Word
  entry : Cpu
  back : Cpu

namespace Exception

variable (x : Exception)

/- At the call of `sync_handler`. -/
def saved : Cpu := run x.entry lowerElAarch64Sync

def context : SavedContext := contextAt x.saved.mem (x.saved.x 0)

/- The code of the other vectors is `b .`. -/
def handle (table : FdState) (fuel : Nat) : Served (SavedContext × FdState) :=
  match x.vector with
  | .sync => syncHandler x.env x.len table fuel x.pid x.context
  | .irq | .fiq | .serror => ⟨[], none⟩

def ops (blocks : List (Nat → Word)) : List HostOp :=
  blocks.filterMap fun block => (handleHypercall x.env.host block).op

/-- A C function: it returns its argument, with the context as it left it. -/
structure Leaves (c : Cpu) (ctx : SavedContext) (c' : Cpu) : Prop where
  sp : c'.sp = c.sp
  returns : c'.x 0 = c.x 0
  context : contextAt c'.mem (c.x 0) = ctx

noncomputable def answer (opened : Set (Int × Int)) : Answer :=
  if x.vector ≠ .sync then ⟨[], none, opened⟩
  else if (x.entry.sys .esrEl1).extractLsb' 26 6 ∈ svcClasses then
    (systemCall x.len (x.entry.x 8) (x.entry.x 0) (x.entry.x 1) (x.entry.x 2)).answer x.env opened x.pid
  else .exits x.env opened

/-- What the program finds after the call: the result, its other registers and the place to go on at. -/
structure Sees (v : Word) : Prop where
  result : x.back.x 0 = v
  registers : ∀ r, 1 ≤ r → r < 31 → x.back.x r = x.entry.x r
  returnAddress : x.back.sys .elrEl1 = x.entry.sys .elrEl1

end Exception

/- The kernel between two exceptions, what the host was asked so far, and whether it is still there. -/
structure Supervisor where
  table : FdState
  sp : Word
  asked : List HostOp
  running : Bool

structure Supervisor.Takes (s : Supervisor) (x : Exception) (served : Served (SavedContext × FdState)) (t : Supervisor) : Prop where
  asked : t.asked = s.asked ++ x.ops served.blocks
  running : t.running = served.value.isSome
  gone : served.value = none → t.table = s.table
  back : ∀ ctx table, served.value = some (ctx, table) → t.table = table ∧ t.sp = x.back.sp ∧
    ∃ c, Exception.Leaves x.saved ctx c ∧ x.back = run c switchToUser

def Supervisor.Step (s : Supervisor) (x : Exception) (t : Supervisor) : Prop :=
  s.running = true ∧ x.entry.sp = s.sp ∧
    ∃ served, Returns (fun fuel => some (x.handle s.table fuel)) served ∧ s.Takes x served t

/-- What the programs know of it. -/
structure Sessions where
  opened : Set (Int × Int)
  asked : List HostOp
  running : Bool

def Sessions.Step (m : Sessions) (x : Exception) (m' : Sessions) : Prop :=
  let answer := x.answer m.opened
  m.running = true ∧ m' = ⟨answer.opened, m.asked ++ answer.ops, answer.ret.isSome⟩ ∧
    ∀ v, answer.ret = some v → x.Sees v

/-- The descriptors in the table stand for themselves, as `sys_execve` enters them. -/
structure Enters (table : FdState) (opened : Set (Int × Int)) (ptrs : List Word) (f : FdMap) : Prop where
  holds : table.Holds f ptrs
  own : ∀ k host, f k = some host → host = k.2 ∧ 0 ≤ k.2
  opened : ∀ k, k ∈ opened ↔ (f k).isSome = true

section Calls

variable {table : FdState} {opened : Set (Int × Int)} {ptrs : List Word} {f : FdMap} {pid : Int} {e : FileEnv}

theorem Enters.missing (enters : Enters table opened ptrs f) {k : Int × Int} (closed : k ∉ opened) : f k = none := by
  cases stored : f k with
  | none => rfl
  | some host => exact absurd ((enters.opened k).mpr (by rw [stored]; rfl)) closed

theorem Enters.entry (enters : Enters table opened ptrs f) {k : Int × Int} (open_ : k ∈ opened) :
    f k = some k.2 ∧ 0 ≤ k.2 := by
  obtain ⟨host, stored⟩ := Option.isSome_iff_exists.mp ((enters.opened k).mp open_)
  obtain ⟨rfl, proper⟩ := enters.own k host stored
  exact ⟨stored, proper⟩

theorem Enters.remove (enters : Enters table opened ptrs f) {table' : FdState} {ptrs' : List Word} {k : Int × Int}
    (holds : table'.Holds (Function.update f k none) ptrs') :
    Enters table' (opened \ {k}) ptrs' (Function.update f k none) := by
  refine ⟨holds, fun j host stored => ?_, fun j => ?_⟩
  · cases decEq j k with
    | isTrue same =>
      rw [same, Function.update_self] at stored
      cases stored
    | isFalse other =>
      rw [Function.update_of_ne other] at stored
      exact enters.own j host stored
  · cases decEq j k with
    | isTrue same => simp [same]
    | isFalse other => simp [other, enters.opened j]

/- The blocks of a call, with the one of its fault. -/
def FileResult.blocks (e : FileEnv) (r : FileResult) : List (Nat → Word) :=
  r.block.toList ++ if r.aborted then e.exits (dataAbort1.setWidth 64) else []

/- What a call does is what the answer says. -/
structure FileResult.Gives (r : FileResult) (e : FileEnv) (answer : Answer) : Prop where
  ops : (r.blocks e).map (fun block => (handleHypercall e.host block).op) = answer.ops.map some
  ret : r.ret = answer.ret
  entries : ∃ ptrs f, Enters r.table answer.opened ptrs f

theorem Enters.refuse (enters : Enters table opened ptrs f) (e : FileEnv) (code : Word) :
    (refuse table code).Gives e (.fails opened code) :=
  ⟨rfl, rfl, ptrs, f, enters⟩

theorem exits_ops (e : FileEnv) (opened : Set (Int × Int)) (host : Host) (reason : Word) :
    (e.exits reason).map (fun block => (handleHypercall host block).op) = (Answer.exits e opened).ops.map some := by
  unfold FileEnv.exits Answer.exits
  split
  · rfl
  · rfl

theorem Enters.faults (enters : Enters table opened ptrs f) (e : FileEnv) :
    (faulted table none).Gives e (.exits e opened) :=
  ⟨exits_ops e opened e.host _, rfl, ptrs, f, enters⟩

theorem Enters.exchange (enters : Enters table opened ptrs f) {sent : Exchange} {block : Nat → Word} {op : HostOp}
    (built : sent.block = some block) (code : block 0 = op.code) (asked : (handleHypercall e.host block).op = some op)
    (result : sent.result = e.host.answers op) : (e.exchange table sent).Gives e (.asks e opened op) := by
  by_cases stores : e.Stores op.code
  · rw [exchange_stored table built (code ▸ stores), Answer.asks, if_pos stores]
    refine ⟨?_, result, ptrs, f, enters⟩
    simp only [FileResult.blocks, Option.toList_some, Bool.false_eq_true, if_false, List.append_nil, List.map_cons,
      List.map_nil, asked]
  · rw [exchange_faults table built (code ▸ stores), Answer.asks, if_neg stores]
    exact enters.faults e

theorem Answer.thenCopies_gone {asked : Answer} (gone : asked.ret = none) (buf : Word) :
    asked.thenCopies e opened buf = asked := by
  refine if_neg ?_
  rintro ⟨found, ret, -⟩
  rw [gone] at ret
  cases ret

theorem Answer.thenCopies_faults {asked : Answer} {buf found : Word} (ret : asked.ret = some found)
    (faults : e.CopyFaults buf found) :
    asked.thenCopies e opened buf = ⟨asked.ops ++ (Answer.exits e opened).ops, none, opened⟩ :=
  if_pos ⟨found, ret, faults⟩

theorem Answer.thenCopies_done {asked : Answer} {buf found : Word} (ret : asked.ret = some found)
    (fine : ¬ e.CopyFaults buf found) : asked.thenCopies e opened buf = asked := by
  refine if_neg ?_
  rintro ⟨v, same, faults⟩
  rw [ret] at same
  exact fine (Option.some.inj same ▸ faults)

theorem readReply_faults {buf found : Word} (hostFd : Int) :
    let c : ReadCall := ⟨e.mmu, e.guest, e.host, e.behind, hostFd, e.newBuffer, e.bytes⟩
    (e.CopyFaults buf found → (readReply c buf found).ret = none) ∧
      (¬ e.CopyFaults buf found → (readReply c buf found).ret = some found) := by
  intro c
  constructor
  · intro faults
    simp only [c, readReply, if_pos faults.1, if_pos faults.2]
  · intro fine
    simp only [c, readReply]
    split
    · rename_i passed
      exact if_neg fun short => fine ⟨passed, short⟩
    · rfl

theorem readFound_gives (enters : Enters table opened ptrs f) (fd : CInt) (buf count : Word) {hostFd : Int}
    (proper : 0 ≤ hostFd) (allocated : e.newBuffer ≠ 0) : ∃ r, readFound e table fd buf count hostFd = some r ∧
      r.Gives e ((Answer.asks e opened (.read fd (hostAddress e.guest e.newBuffer) count)).thenCopies e opened buf) := by
  have built := readWrapper_block e fd count allocated
  obtain ⟨op, result⟩ := FileIo.ioHypercall_read e.host e.behind fd (hostAddress e.guest e.newBuffer) count
  rw [← FileIo.readWrapper_eq e.guest e.host e.behind fd count allocated] at result
  have sent := enters.exchange built rfl op result
  by_cases stores : e.Stores hcallRead
  · have asks : Answer.asks e opened (.read fd (hostAddress e.guest e.newBuffer) count) =
        ⟨[.read fd (hostAddress e.guest e.newBuffer) count],
          e.host.hypercallRead fd (hostAddress e.guest e.newBuffer) count, opened⟩ := if_pos stores
    refine ⟨_, readFound_sent table fd buf count hostFd allocated stores, ?_⟩
    have once := sent.ops
    rw [exchange_stored table built stores, asks] at once
    cases reply : e.host.hypercallRead fd (hostAddress e.guest e.newBuffer) count with
    | none =>
      rw [asks, Answer.thenCopies_gone reply, FileIo.sysRead_silent _ fd buf count proper allocated reply, result, reply]
      rw [← built] at once
      exact ⟨once, rfl, ptrs, f, enters⟩
    | some found =>
      obtain ⟨gone, back⟩ := @readReply_faults e buf found hostFd
      rw [asks, sysRead_eq _ fd buf count found proper allocated reply, result, reply]
      rw [← built] at once
      by_cases faults : e.CopyFaults buf found
      · rw [Answer.thenCopies_faults rfl faults, gone faults]
        refine ⟨?_, rfl, ptrs, f, enters⟩
        have exit := exits_ops e opened e.host (dataAbort1.setWidth 64)
        simp only [FileResult.blocks, Bool.false_eq_true, if_false, List.append_nil] at once
        simp only [FileResult.blocks, Option.isSome_some, Option.isNone_none, Bool.and_self, if_true, List.map_append,
          exit, once]
      · rw [Answer.thenCopies_done rfl faults, back faults]
        exact ⟨once, rfl, ptrs, f, enters⟩
  · have faults := exchange_faults table built stores
    have asks : Answer.asks e opened (.read fd (hostAddress e.guest e.newBuffer) count) = .exits e opened := if_neg stores
    refine ⟨faulted table none, ?_, ?_⟩
    · simp only [readFound, if_neg allocated, faults]
      rfl
    · rw [asks, Answer.thenCopies_gone rfl]
      exact enters.faults e

theorem writeFound_gives (enters : Enters table opened ptrs f) (fd : CInt) {buf count : Word} (hostFd : Int)
    (allocated : e.newBuffer ≠ 0) (fine : ¬ (accessKernelOk e.mmu buf protR = 0 ∧ ¬ Readable e.mmu buf count)) :
    ∃ r, writeFound e table fd buf count hostFd = some r ∧
      r.Gives e (.asks e opened (.write fd (hostAddress e.guest e.newBuffer) count)) := by
  have readable : accessKernelOk e.mmu buf protR = 0 → Readable e.mmu buf count := fun passed =>
    not_not.mp fun faults => fine ⟨passed, faults⟩
  refine ⟨_, writeFound_sent table fd hostFd allocated readable,
    enters.exchange (writeWrapper_block e fd count allocated) rfl ?_ ?_⟩
  · exact (FileIo.ioHypercall_write e.host e.behind fd (hostAddress e.guest e.newBuffer) count).1
  · rw [FileIo.writeWrapper_eq e.guest e.host e.behind fd count allocated]
    simp only [ioHypercall, handleHypercall, ioCall, hcallWrite, hvcOpen, hvcRead, hvcWrite, truncate_signExtend,
      Host.answers]
    cases e.host.hypercallWrite fd (hostAddress e.guest e.newBuffer) count with
    | ok count => rfl
    | err => rfl
    | never => rfl

theorem lseekFound_gives (enters : Enters table opened ptrs f) (fd : CInt) (offset : Word) (whence : CInt) :
    ∃ r, lseekFound e table offset whence fd.toInt = some r ∧ r.Gives e (.asks e opened (.lseek fd 0 0)) := by
  refine ⟨_, rfl, enters.exchange rfl rfl ?_ ?_⟩
  · simp [handleHypercall, ioCall, hcallLseek, hvcOpen, hvcRead, hvcWrite, hvcLseek, truncate_signExtend]
  · simp [lseekWrapper, ioHypercall, handleHypercall, ioCall, hcallLseek, hvcOpen, hvcRead, hvcWrite, hvcLseek,
      Host.answers, truncate_signExtend, setSlot]

theorem sysOpen_gives (enters : Enters table opened ptrs f) (pathname len : Word) (flags mode : CInt) :
    (sysOpen e table pathname len flags mode).Gives e
      ((FileCall.open pathname len flags mode).answer e opened pid) := by
  rw [FileCall.answer, sysOpen]
  by_cases null : pathname = 0
  · simp only [if_pos null]
    exact enters.refuse e einvalWord
  · by_cases unreadable : ¬ ReadablePath e.mmu pathname len
    · simp only [if_neg null, if_pos unreadable]
      exact enters.faults e
    · by_cases empty : (len.truncate 32 : CInt) = 0
      · simp only [if_neg null, if_neg unreadable, if_pos empty]
        exact enters.refuse e einvalWord
      · by_cases full : e.newBuffer = 0
        · simp only [if_neg null, if_neg unreadable, if_neg empty, if_pos full]
          exact enters.refuse e enomemWord
        · by_cases faults : ¬ Readable e.mmu pathname ((len.truncate 32 : CInt).signExtend 64)
          · simp only [if_neg null, if_neg unreadable, if_neg empty, if_neg full, if_pos faults]
            exact enters.faults e
          · simp only [if_neg null, if_neg unreadable, if_neg empty, if_neg full, if_neg faults]
            obtain ⟨op, result⟩ := open_agrees e.guest e.host e.behind e.newBuffer flags mode rfl
            exact enters.exchange rfl rfl op result

/-- The calls over the list of entries are those on the set. -/
theorem FileCall.gives (call : FileCall) (e : FileEnv) (pid : Int) (enters : Enters table opened ptrs f) :
    ∃ r, Returns (fun fuel => call.perform e table fuel pid) r ∧ r.Gives e (call.answer e opened pid) := by
  -- a descriptor is looked up first
  have lookup {fd : CInt} {found : Nat → Int → Option FileResult} {answer : Answer}
      (forwards : (pid, fd.toInt) ∈ opened → 0 ≤ fd.toInt → ∃ r n, (∀ fuel, n < fuel → found fuel fd.toInt = some r) ∧
        r.Gives e answer) (closed : (pid, fd.toInt) ∉ opened → answer = .fails opened enoentWord) :
      ∃ r, Returns (fun fuel => withHostFd table fuel pid fd (found fuel)) r ∧ r.Gives e answer := by
    cases Classical.em ((pid, fd.toInt) ∈ opened) with
    | inl here =>
      obtain ⟨entry, proper⟩ := enters.entry here
      obtain ⟨r, n, returns, gives⟩ := forwards here proper
      refine ⟨r, ⟨max n ptrs.length, fun fuel enough => ?_⟩, gives⟩
      exact (withHostFd_entry enters.holds entry proper (found fuel) (by omega)).trans (returns fuel (by omega))
    | inr away =>
      have missing := @withHostFd_missing _ _ _ pid fd enters.holds (enters.missing away)
      rw [closed away]
      exact ⟨_, ⟨ptrs.length, fun fuel enough => missing (found fuel) enough⟩, enters.refuse e enoentWord⟩
  cases call with
  | «open» pathname len flags mode => exact ⟨_, ⟨0, fun _ _ => rfl⟩, sysOpen_gives enters pathname len flags mode⟩
  | read fd buf count =>
    refine lookup (fun here proper => ?_) fun away => by rw [FileCall.answer, if_pos away]
    rw [FileCall.answer, if_neg (not_not_intro here)]
    cases decEq e.newBuffer 0 with
    | isTrue full =>
      rw [if_pos full]
      exact ⟨_, 0, fun _ _ => if_pos full, enters.refuse e enomemWord⟩
    | isFalse room =>
      rw [if_neg room]
      obtain ⟨r, found, gives⟩ := readFound_gives enters fd buf count proper room
      exact ⟨r, 0, fun _ _ => found, gives⟩
  | write fd buf count =>
    refine lookup (fun here _ => ?_) fun away => by rw [FileCall.answer, if_pos away]
    rw [FileCall.answer, if_neg (not_not_intro here)]
    cases decEq e.newBuffer 0 with
    | isTrue full =>
      rw [if_pos full]
      exact ⟨_, 0, fun _ _ => if_pos full, enters.refuse e enomemWord⟩
    | isFalse room =>
      rw [if_neg room]
      by_cases faults : accessKernelOk e.mmu buf protR = 0 ∧ ¬ Readable e.mmu buf count
      · rw [if_pos faults]
        exact ⟨_, 0, fun _ _ => (if_neg room).trans (if_pos faults), enters.faults e⟩
      · rw [if_neg faults]
        obtain ⟨r, found, gives⟩ := writeFound_gives enters fd fd.toInt room faults
        exact ⟨r, 0, fun _ _ => found, gives⟩
  | lseek fd offset whence =>
    refine lookup (fun here _ => ?_) fun away => by rw [FileCall.answer, if_pos away]
    rw [FileCall.answer, if_neg (not_not_intro here)]
    obtain ⟨r, found, gives⟩ := lseekFound_gives enters fd offset whence
    exact ⟨r, 0, fun _ _ => found, gives⟩
  | close fd =>
    refine @lookup fd (fun fuel => closeFound e table fuel pid fd) _ (fun here _ => ?_) fun away => by
      rw [FileCall.answer, if_pos away]
    rw [FileCall.answer, if_neg (not_not_intro here)]
    by_cases stores : e.Stores hcallClose
    · rw [if_pos stores]
      have sent := @exchange_stored e table (closeWrapper e.host e.behind (BitVec.ofInt 32 fd.toInt)) _ rfl stores
      obtain ⟨table', ptrs', deleted, after⟩ := FdState.deleteFd_spec enters.holds (enters.entry here).1
      have found : ∀ fuel, ptrs.length < fuel → closeFound e table fuel pid fd fd.toInt =
          some ⟨some 0, (closeWrapper e.host e.behind (BitVec.ofInt 32 fd.toInt)).block, table', false⟩ := by
        intro fuel enough
        simp only [closeFound, sent, deleted fuel enough]
        rfl
      exact ⟨_, ptrs.length, found, rfl, rfl, ptrs', _, enters.remove after⟩
    · rw [if_neg stores]
      have faults := @exchange_faults e table (closeWrapper e.host e.behind (BitVec.ofInt 32 fd.toInt)) _ rfl stores
      refine ⟨faulted table none, 0, fun fuel _ => ?_, enters.faults e⟩
      simp only [closeFound, faults]
      rfl

end Calls

theorem Answer.asks_opened (e : FileEnv) (opened : Set (Int × Int)) (op : HostOp) :
    (Answer.asks e opened op).opened = opened := by
  unfold Answer.asks
  split
  · rfl
  · rfl

theorem Answer.thenCopies_opened (e : FileEnv) (opened : Set (Int × Int)) (op : HostOp) (buf : Word) :
    ((Answer.asks e opened op).thenCopies e opened buf).opened = opened := by
  unfold Answer.thenCopies
  split
  · rfl
  · exact Answer.asks_opened e opened op

/-- A call that the VMM does not come back from closes nothing. -/
theorem FileCall.answer_gone {e : FileEnv} {opened : Set (Int × Int)} {pid : Int} (call : FileCall)
    (gone : (call.answer e opened pid).ret = none) : (call.answer e opened pid).opened = opened := by
  cases call with
  | close fd =>
    rw [FileCall.answer] at gone ⊢
    split at gone
    · cases gone
    · rename_i here
      split at gone
      · cases gone
      · rename_i faults
        rw [if_neg here, if_neg faults]
        rfl
  | _ =>
    simp only [FileCall.answer, apply_ite Answer.opened, Answer.fails, Answer.exits, Answer.asks_opened,
      Answer.thenCopies_opened, ite_self]

namespace Exception

variable {x : Exception} {table : FdState} {opened : Set (Int × Int)} {ptrs : List Word} {f : FdMap}

/-- The handler finds the registers of the program. -/
theorem context_saved (x : Exception) : (∀ i : Fin 32, i.val < 31 → x.context.x i = x.entry.x i) ∧
    x.context.ec = (x.entry.sys .esrEl1).extractLsb' 26 6 := by
  have nothing : Stacked x.entry.mem x.entry.sp [] := fun k none => absurd none (Nat.not_lt_zero k)
  obtain ⟨_, pointer, stacked⟩ := save_spec x.entry nothing (by decide)
  have word {k : Nat} {w : Word} (found : (savedFrame x.entry ++ [])[k]? = some w) :
      x.saved.mem (x.saved.x 0 + BitVec.ofNat 64 (8 * k)) = w := by
    obtain ⟨inside, same⟩ := List.getElem?_eq_some_iff.mp found
    have at_k := stacked k inside
    rw [same] at at_k
    rw [saved, pointer]
    exact at_k
  constructor
  · intro i general
    rw [context, contextAt_x]
    exact word (savedFrame_register x.entry [] general)
  · have syndrome : (savedFrame x.entry ++ [])[2]? = some (x.entry.sys .esrEl1) := rfl
    rw [SavedContext.ec, context, contextAt_esrEl1, word syndrome]

/- What comes of the handler is what the answer says. -/
structure Handles (x : Exception) (opened : Set (Int × Int)) (served : Served (SavedContext × FdState)) : Prop where
  blocks : (served.blocks.map fun block => (handleHypercall x.env.host block).op) = (x.answer opened).ops.map some
  gone : (x.answer opened).ret = none → served.value = none ∧ (x.answer opened).opened = opened
  back : ∀ v, (x.answer opened).ret = some v → ∃ table ptrs f, served.value = some (x.context.setResult v, table) ∧
    Enters table (x.answer opened).opened ptrs f

theorem Handles.ops {served : Served (SavedContext × FdState)} (handles : x.Handles opened served) :
    x.ops served.blocks = (x.answer opened).ops := by
  have same := congrArg (List.filterMap id) handles.blocks
  simpa [List.filterMap_map, Exception.ops] using same

theorem handles_exit (answer : x.answer opened = .exits x.env opened) (reason : Word) :
    x.Handles opened ⟨x.env.exits reason, none⟩ := by
  refine ⟨?_, fun _ => ?_, fun v back => ?_⟩
  · rw [answer]
    exact exits_ops x.env opened x.env.host reason
  · rw [answer]
    exact ⟨rfl, rfl⟩
  · rw [answer] at back
    cases back

theorem answer_svc (opened : Set (Int × Int)) (sync : x.vector = .sync)
    (svc : (x.entry.sys .esrEl1).extractLsb' 26 6 ∈ svcClasses) : x.answer opened =
      (systemCall x.len (x.entry.x 8) (x.entry.x 0) (x.entry.x 1) (x.entry.x 2)).answer x.env opened x.pid := by
  rw [answer, if_neg (not_not_intro sync), if_pos svc]

theorem answer_exit (opened : Set (Int × Int)) (sync : x.vector = .sync)
    (other : (x.entry.sys .esrEl1).extractLsb' 26 6 ∉ svcClasses) : x.answer opened = .exits x.env opened := by
  rw [answer, if_neg (not_not_intro sync), if_neg other]

/-- The registers of the program choose the call, and the frame takes its result. -/
theorem handle_svc (table : FdState) (fuel : Nat) (sync : x.vector = .sync)
    (svc : (x.entry.sys .esrEl1).extractLsb' 26 6 ∈ svcClasses) : x.handle table fuel =
      (syscall x.env x.len table fuel x.pid (x.entry.x 8) (x.entry.x 0) (x.entry.x 1) (x.entry.x 2) (x.entry.x 3)
        (x.entry.x 4) (x.entry.x 5)).bind fun r => ⟨[], some (x.context.setResult r.1, r.2)⟩ := by
  obtain ⟨registers, class_⟩ := x.context_saved
  rw [handle, sync]
  simp only
  rw [syncHandler_svc _ _ _ _ _ (class_ ▸ svc), kernelSystemCallEntryHandler, registers 8 (by decide),
    registers 0 (by decide), registers 1 (by decide), registers 2 (by decide), registers 3 (by decide),
    registers 4 (by decide), registers 5 (by decide)]
  rfl

theorem handled_svc (enters : Enters table opened ptrs f) (sync : x.vector = .sync)
    (svc : (x.entry.sys .esrEl1).extractLsb' 26 6 ∈ svcClasses) :
    ∃ served, Returns (fun fuel => some (x.handle table fuel)) served ∧ x.Handles opened served := by
  have handler (fuel : Nat) := handle_svc table fuel sync svc
  have answer := answer_svc opened sync svc
  cases asked : systemCall x.len (x.entry.x 8) (x.entry.x 0) (x.entry.x 1) (x.entry.x 2) with
  | file call =>
    rw [asked] at answer
    obtain ⟨r, ⟨n, returns⟩, gives⟩ := call.gives x.env x.pid enters
    have served (fuel : Nat) (enough : n < fuel) : x.handle table fuel =
        ⟨r.blocks x.env, r.ret.map fun v => (x.context.setResult v, r.table)⟩ := by
      have performed : call.perform x.env table fuel x.pid = some r := returns fuel enough
      rw [handler, syscall, asked]
      simp only
      rw [performed, FileResult.served, Option.elim_some, kernelDataAbort, hvcCallExitFatal_gone, ← FileResult.blocks]
      cases r.ret with
      | none => rfl
      | some v => simp
    refine ⟨_, ⟨n, fun fuel enough => congrArg some (served fuel enough)⟩, ?_, fun none => ?_, fun v back => ?_⟩
    · rw [answer]
      exact gives.ops
    · rw [answer] at none ⊢
      refine ⟨?_, call.answer_gone none⟩
      rw [gives.ret]
      exact congrArg (Option.map _) none
    · rw [answer] at back ⊢
      obtain ⟨ptrs', f', after⟩ := gives.entries
      refine ⟨r.table, ptrs', f', ?_, after⟩
      rw [gives.ret]
      exact congrArg (Option.map _) back
  | exit value =>
    rw [asked] at answer
    refine ⟨_, ⟨0, fun fuel _ => congrArg some ?_⟩, handles_exit answer (value.signExtend 64)⟩
    rw [handler, syscall, asked]
    simp only [sysExit_gone, Served.bind_none]
  | unknown =>
    rw [asked] at answer
    refine ⟨⟨[], some (x.context.setResult (-enosysWord), table)⟩, ⟨0, fun fuel _ => congrArg some ?_⟩, ?_, ?_, ?_⟩
    · rw [handler, syscall, asked]
      rfl
    · rw [answer]
      rfl
    · intro none
      rw [answer] at none
      cases none
    · intro v back
      rw [answer] at back ⊢
      cases back
      exact ⟨table, ptrs, f, rfl, enters⟩

theorem handled (x : Exception) (enters : Enters table opened ptrs f) :
    ∃ served, Returns (fun fuel => some (x.handle table fuel)) served ∧ x.Handles opened served := by
  cases decEq x.vector .sync with
  | isTrue sync =>
    cases Classical.em ((x.entry.sys .esrEl1).extractLsb' 26 6 ∈ svcClasses) with
    | inl svc => exact handled_svc enters sync svc
    | inr other =>
      have answer := answer_exit opened sync other
      refine ⟨_, ⟨0, fun fuel _ => congrArg some ?_⟩, handles_exit answer (x.context.ec.setWidth 64)⟩
      rw [handle, sync]
      exact syncHandler_gone _ _ _ _ _ (x.context_saved.2 ▸ other)
  | isFalse other =>
    have answer : x.answer opened = ⟨[], none, opened⟩ := by rw [Exception.answer, if_pos other]
    refine ⟨⟨[], none⟩, ⟨0, fun fuel _ => congrArg some ?_⟩, ?_, ?_, ?_⟩
    · rw [handle]
      cases vector : x.vector with
      | sync => exact absurd vector other
      | irq => rfl
      | fiq => rfl
      | serror => rfl
    · rw [answer]
      rfl
    · rw [answer]
      exact fun _ => ⟨rfl, rfl⟩
    · intro v back
      rw [answer] at back
      cases back

theorem contextAt_update (m : Word → Word) (a v : Word) :
    contextAt (Function.update m (a + BitVec.ofNat 64 (8 * contextX0)) v) a = (contextAt m a).setResult v := by
  have other {k : Nat} (inside : k < contextWords) (apart : k ≠ contextX0) :
      Function.update m (a + BitVec.ofNat 64 (8 * contextX0)) v (a + BitVec.ofNat 64 (8 * k)) =
        m (a + BitVec.ofNat 64 (8 * k)) := by
    refine Function.update_of_ne ?_ ..
    simp only [contextWords, contextX0] at inside apart ⊢
    bv_omega
  refine SavedContext.ext (other (k := 0) (by decide) (by decide)) (other (k := 1) (by decide) (by decide))
    (other (k := 2) (by decide) (by decide)) (other (k := 3) (by decide) (by decide)) (funext fun i => ?_)
    (other (k := 36) (by decide) (by decide)) (other (k := 37) (by decide) (by decide))
  cases decEq i 0 with
  | isTrue same =>
    rw [same, contextAt_x, setResult_x, Function.update_self]
    exact Function.update_self ..
  | isFalse apart =>
    have away : (i : Nat) ≠ 0 := fun zero => apart (Fin.ext zero)
    have few := i.isLt
    rw [contextAt_x, setResult_x, Function.update_of_ne apart, contextAt_x]
    exact other (by simp only [contextWords, contextX0]; omega) (by simp only [contextX0]; omega)

/-- There is a handler that leaves this. -/
theorem leaves_storeResult (c : Cpu) (v : Word) :
    Leaves c ((contextAt c.mem (c.x 0)).setResult v) (storeResult c v) :=
  ⟨rfl, rfl, contextAt_update c.mem (c.x 0) v⟩

end Exception

/-- Whatever a handler sets in x0, there is a processor that comes back with it. -/
theorem Supervisor.takes (s : Supervisor) (x : Exception) (served : Served (SavedContext × FdState))
    (set : ∀ ctx table, served.value = some (ctx, table) → ∃ v, ctx = x.context.setResult v) :
    ∃ back t, s.Takes { x with back := back } served t := by
  cases value : served.value with
  | none =>
    refine ⟨x.entry, ⟨s.table, s.sp, s.asked ++ x.ops served.blocks, false⟩, rfl, ?_, fun _ => rfl, fun _ _ back => ?_⟩
    · rw [value]
      rfl
    · rw [value] at back
      cases back
  | some result =>
    obtain ⟨v, same⟩ := set result.1 result.2 value
    obtain ⟨back, came⟩ : ∃ back, ∃ c, Exception.Leaves x.saved (x.context.setResult v) c ∧ back = run c switchToUser :=
      ⟨_, _, Exception.leaves_storeResult x.saved v, rfl⟩
    refine ⟨back, ⟨result.2, back.sp, s.asked ++ x.ops served.blocks, true⟩, rfl, ?_, fun gone => ?_, fun ctx table at_ => ?_⟩
    · rw [value]
      rfl
    · rw [value] at gone
      cases gone
    · rw [value] at at_
      obtain rfl := Option.some.inj at_
      obtain rfl : ctx = x.context.setResult v := same
      exact ⟨rfl, rfl, came⟩

theorem Sessions.Step.after {m m' : Sessions} {x : Exception} {answer : Answer} (step : m.Step x m')
    (answered : x.answer m.opened = answer) : m' = ⟨answer.opened, m.asked ++ answer.ops, answer.ret.isSome⟩ := by
  obtain ⟨_, after, _⟩ := step
  rw [answered] at after
  exact after

/-- What the host may be asked when these descriptors are open. -/
def HostOp.Within (opened : Set (Int × Int)) : HostOp → Prop
  | .open _ _ _ => True
  | .read fd _ _ | .write fd _ _ => ∃ pid, (pid, fd.toInt) ∈ opened
  | .lseek fd offset whence => (∃ pid, (pid, fd.toInt) ∈ opened) ∧ offset = 0 ∧ whence = 0
  | .close fd => fd = 0
  | .exit status => status = 0

theorem HostOp.Within.mono {opened opened' : Set (Int × Int)} (fewer : opened' ⊆ opened) {op : HostOp}
    (within : op.Within opened') : op.Within opened := by
  cases op with
  | «open» path flags mode => trivial
  | read fd buf len | write fd buf len =>
    obtain ⟨pid, here⟩ := within
    exact ⟨pid, fewer here⟩
  | lseek fd offset whence =>
    obtain ⟨⟨pid, here⟩, plain⟩ := within
    exact ⟨⟨pid, fewer here⟩, plain⟩
  | close fd | exit status => exact within

/-- What a run has come to: what was asked in it, of the descriptors that were open at its start. -/
structure Sessions.Leads (m m' : Sessions) (ops : List HostOp) : Prop where
  asked : m'.asked = m.asked ++ ops
  fewer : m'.opened ⊆ m.opened
  within : ∀ op ∈ ops, op.Within m.opened
  ends : ∀ front back status, ops = front ++ .exit status :: back → back = [] ∧ m'.running = false

theorem Sessions.Leads.refl (m : Sessions) : m.Leads m [] where
  asked := (List.append_nil _).symm
  fewer := Set.Subset.refl _
  within op none := absurd none List.not_mem_nil
  ends front back status same := by
    have length := congrArg List.length same
    simp at length

end RealmVm
