import RealmVm.Hypercall.Service
import RealmVm.User.SysRead
import RealmVm.User.SysWrite

/-! `sys_read` and `sys_write` as a whole: between the program's buffers and the host's files. -/
namespace RealmVm

open Lib

section HostLoops

/-- More fuel gives the same run. -/
theorem readInto_mono {file : FileReader} {buf : Word} {len fuel more i total remaining : Nat} {m : Word → Byte}
    {seen : List (Option (List Byte))} {run : ReadRun} (enough : fuel ≤ more)
    (returned : readInto file buf len fuel i total remaining m seen = some run) :
    readInto file buf len more i total remaining m seen = some run := by
  induction fuel generalizing more i total remaining m seen with
  | zero => cases returned
  | succ fuel ih =>
    cases more with
    | zero => cases enough
    | succ more =>
      rw [readInto] at returned ⊢
      cases decEq remaining 0 with
      | isTrue finished =>
        rw [if_pos finished] at returned ⊢
        exact returned
      | isFalse left =>
        rw [if_neg left] at returned ⊢
        cases reply : file.reply i remaining with
        | none =>
          rw [reply] at returned
          exact returned
        | some bytes =>
          rw [reply] at returned
          exact ih (Nat.le_of_succ_le_succ enough) returned

theorem runTo_bytes (file : FileReader) (len : Nat) (buf : Word) (m : Word → Byte) (k : Nat) :
    (file.runTo len buf m k).bytes = file.delivered len k := by
  rw [ReadRun.bytes, FileReader.runTo]
  split
  · exact FileReader.seen_bytes k
  · simp [FileReader.seen_bytes]

/-- What a read that comes back leaves. -/
theorem hypercallRead_leaves {file : FileReader} {fuel : Nat} {buf len : Word} {m : Word → Byte} {run : ReadRun}
    (returned : hypercallRead file fuel buf len m = some run) : run.Complete buf ∧ run.bytes.length ≤ len.toNat := by
  have promised : ¬ (buf = 0 ∨ isizeMax < len.toNat) := by
    intro broken
    rw [hypercallRead, if_pos broken] at returned
    cases returned
  have returns : Returns (fun fuel => hypercallRead file fuel buf len m) run := by
    refine ⟨fuel, fun more enough => ?_⟩
    show hypercallRead file more buf len m = some run
    rw [hypercallRead, if_neg promised] at returned ⊢
    exact readInto_mono (Nat.le_of_lt enough) returned
  obtain ⟨proper, fits⟩ := not_or.mp promised
  obtain ⟨k, running, stops, rfl⟩ := (FileReader.hypercallRead_returns proper (Nat.not_lt.mp fits)).mp returns
  refine ⟨FileReader.runTo_complete buf m (Nat.not_lt.mp fits) running stops, ?_⟩
  rw [runTo_bytes]
  exact FileReader.delivered_le file len.toNat k

theorem hypercallWrite_leaves (file : FileWriter) {fuel : Nat} {buf len : Word} (m : Word → Byte)
    (enough : len.toNat < fuel) : ∃ run, hypercallWrite file fuel buf len m = some run ∧ run.Delivers m buf len := by
  cases decEq buf 0 with
  | isTrue null => exact ⟨_, if_pos null, WriteRun.delivers_err List.nil_prefix⟩
  | isFalse proper =>
    obtain ⟨run, returns, delivers⟩ := writeFrom_delivers file m buf len len.toNat (Nat.zero_add _) 0
    have same := returns fuel enough
    rw [BitVec.add_zero] at same
    exact ⟨run, (if_neg proper).trans same, delivers⟩

variable {files : HostFiles} {fuel : Nat} {w : HostState} {fd : CInt} {buf len v : Word}

/-- A write that succeeds hands over the whole buffer. -/
theorem HostState.write_ok (enough : len.toNat < fuel) (ok : (w.host files fuel).hypercallWrite fd buf len = .ok v) :
    v = len ∧ w.perform files fuel (.write fd buf len) =
      { w with taken := Function.update w.taken fd (w.taken fd ++ Bytes.bytesAt w.memory buf len.toNat) } := by
  obtain ⟨run, performed, delivers⟩ := @hypercallWrite_leaves (files.writer w.calls fd) fuel buf len w.memory enough
  have written : w.write files fuel fd buf len = some run := performed
  have success : run.result = some v := by
    simp only [HostState.host, written, Option.elim_some] at ok
    cases answer : run.result with
    | none => simp [answer] at ok
    | some n => simpa [answer] using ok
  obtain ⟨accepted, all⟩ := delivers.ok v success
  refine ⟨all, ?_⟩
  rw [HostState.perform, written, Option.elim_some, accepted]

/-- A read that comes back leaves what it was given at the start of the buffer. -/
theorem HostState.read_some (reply : (w.host files fuel).hypercallRead fd buf len = some v) :
    ∃ bytes memory, w.perform files fuel (.read fd buf len) =
        { w with memory := memory, given := Function.update w.given fd (w.given fd ++ bytes) } ∧
      bytes.length ≤ len.toNat ∧ Bytes.bytesAt memory buf bytes.length = bytes ∧
      (v ≠ -1 → v = BitVec.ofNat 64 bytes.length) := by
  obtain ⟨run, read, result⟩ := Option.map_eq_some_iff.mp reply
  obtain ⟨complete, few⟩ := hypercallRead_leaves read
  refine ⟨run.bytes, run.memory, ?_, few, complete.stored, fun proper => ?_⟩
  · rw [HostState.perform, read, Option.elim_some]
  · have length := complete.result
    split at length
    · exact absurd (result.symm.trans length) proper
    · exact result.symm.trans length

end HostLoops

/- The VMM's memory is what the guest has made of it. -/
def HostState.withMemory (w : HostState) (memory : Word → Byte) : HostState := { w with memory := memory }

/- At the `n` addresses from `a` on the VMM finds the kernel's bytes where `get_physical_address` says. -/
def Guest.Shows (g : Guest) (memory bytes : Word → Byte) (a : Word) (n : Nat) : Prop :=
  ∀ i < n, memory (hostAddress g (a + BitVec.ofNat 64 i)) = bytes (a + BitVec.ofNat 64 i)

/-- A range of the kernel's addresses that the VMM has in one piece. -/
structure Window (g : Guest) where
  start : Word
  size : Nat
  host : Word
  fits : size ≤ 2 ^ 64
  linear : ∀ i < size, hostAddress g (start + BitVec.ofNat 64 i) = host + BitVec.ofNat 64 i

namespace Window

/- `n` bytes at `a` are in the range. -/
def Holds {g : Guest} (w : Window g) (a : Word) (n : Nat) : Prop := ∃ d, d + n ≤ w.size ∧ a = w.start + BitVec.ofNat 64 d

variable {g : Guest} {w : Window g} {memory bytes : Word → Byte} {a b : Word} {n k i : Nat}

theorem Holds.linear (holds : w.Holds a n) (inside : i < n) :
    hostAddress g (a + BitVec.ofNat 64 i) = hostAddress g a + BitVec.ofNat 64 i := by
  obtain ⟨d, room, rfl⟩ := holds
  rw [BitVec.add_assoc, ← BitVec.ofNat_add, w.linear (d + i) (by omega), w.linear d (by omega), BitVec.add_assoc,
    ← BitVec.ofNat_add]

theorem Holds.bytesAt (holds : w.Holds a n) (shows : g.Shows memory bytes a n) :
    Bytes.bytesAt memory (hostAddress g a) n = Bytes.bytesAt bytes a n := by
  apply List.map_congr_left
  intro i member
  have inside := List.mem_range.mp member
  rw [← holds.linear inside]
  exact shows i inside

/-- Buffers that are apart for the kernel are apart for the VMM. -/
theorem Holds.apart (first : w.Holds a n) (second : w.Holds b k) (apart : Disjoint (Bytes.span a n) (Bytes.span b k)) :
    Disjoint (Bytes.span (hostAddress g a) n) (Bytes.span (hostAddress g b) k) := by
  have fits := w.fits
  obtain ⟨d, room, here⟩ := first
  obtain ⟨e, roomB, there⟩ := second
  rw [Set.disjoint_left] at apart ⊢
  intro x insideA insideB
  obtain ⟨i, small, rfl⟩ := (Bytes.mem_span_iff (by omega)).mp insideA
  obtain ⟨j, smallB, same⟩ := (Bytes.mem_span_iff (by omega)).mp insideB
  rw [here, there, w.linear d (by omega), w.linear e (by omega), BitVec.add_assoc, BitVec.add_assoc, ← BitVec.ofNat_add,
    ← BitVec.ofNat_add] at same
  have offsets : d + i = e + j := by
    have away := congrArg (fun x => (x - w.host).toNat) same
    rwa [Bytes.offset_toNat w.host (by omega), Bytes.offset_toNat w.host (by omega)] at away
  refine apart (Bytes.offset_mem a small (by omega)) ?_
  have place : a + BitVec.ofNat 64 i = b + BitVec.ofNat 64 j := by
    rw [here, there, BitVec.add_assoc, BitVec.add_assoc, ← BitVec.ofNat_add, ← BitVec.ofNat_add, offsets]
  rw [place]
  exact Bytes.offset_mem b smallB (by omega)

end Window

inductive Direction where
  | read | write
deriving DecidableEq

/- A call of `sys_read` or `sys_write` with what is around it: the kernel's memory when it has the bounce buffer, when
it has sent the block, when `io_hypercall` is back and when the program goes on, and the VMM's memory when it gets the
block. -/
structure FileIo where
  direction : Direction
  fd : CInt
  buf : Word
  count : Word
  mmu : Mmu
  guest : Guest
  hostFd : Int
  newBuffer : Word
  ioBlock : Word
  exits : List VcpuExit
  memory : Word → Byte
  before : Word → Byte
  sent : Word → Byte
  back : Word → Byte
  after : Word → Byte
  returned : Word

namespace FileIo

def code (c : FileIo) : Word :=
  match c.direction with
  | .read => hcallRead
  | .write => hcallWrite

/- The address of the block that the VMM gets. -/
def address (c : FileIo) : Word := hostAddress c.guest c.ioBlock

def words (c : FileIo) : List Word :=
  [c.code, c.fd.signExtend 64, hostAddress c.guest c.newBuffer, c.count, 0, 0, 0]

def readCall (c : FileIo) (host : Host) : ReadCall :=
  ⟨c.mmu, c.guest, host, hvcArgs c.memory c.address, c.hostFd, c.newBuffer, c.back⟩

def writeCall (c : FileIo) (host : Host) : WriteCall :=
  ⟨c.mmu, c.guest, host, hvcArgs c.memory c.address, c.hostFd, c.newBuffer, c.before⟩

/- The call comes back, given the answers of the host. -/
def Returns (host : Host) (c : FileIo) : Prop :=
  match c.direction with
  | .read =>
    let read := sysRead (c.readCall host) c.fd c.buf c.count
    read.ret = some c.returned ∧ read.bytes = c.after
  | .write => (sysWrite (c.writeCall host) c.fd c.buf c.count).exchange.result = some c.returned

/-- The call over the UART, with the kernel's memory as the VMM sees it. Beside the buffer and the block, memory may
change between the stages. -/
structure Step (endian : LittleEndian) (files : HostFiles) (fuel : Nat) (s : Vmm HostState) (c : FileIo) (t : Vmm HostState) : Prop where
  copied : c.direction = .write → Bytes.bytesAt c.sent c.newBuffer c.count.toNat =
    Bytes.bytesAt (copyFromUser c.mmu c.before c.newBuffer c.buf c.count).bytes c.newBuffer c.count.toNat
  stored : Bytes.bytesAt c.sent c.ioBlock 56 = c.words.flatMap valueBytes
  buffer : c.guest.Shows c.memory c.sent c.newBuffer c.count.toNat
  block : c.guest.Shows c.memory c.sent c.ioBlock 56
  sends : SendsCall c.address c.exits
  run : Run (Vmm.Step endian (HostState.handle files fuel)) { s with world := s.world.withMemory c.memory } c.exits t
  seen : c.guest.Shows t.world.memory c.back c.newBuffer c.count.toNat
  returns : c.Returns ((s.world.withMemory c.memory).host files fuel)

/-- What the callers promise: a buffer that the program may use, apart from the kernel's, and from the heap a bounce
buffer and a block. A read must not fail at once, since its -1 is taken for a length. -/
structure Sound (fuel : Nat) (c : FileIo) (w : Window c.guest) : Prop where
  entry : 0 ≤ c.hostFd
  allocated : c.newBuffer ≠ 0
  buffer : w.Holds c.newBuffer c.count.toNat
  block : w.Holds c.ioBlock 56
  apart : Disjoint (Bytes.span c.newBuffer c.count.toNat) (Bytes.span c.ioBlock 56)
  own : Disjoint (Bytes.span c.buf c.count.toNat) (Bytes.span c.newBuffer c.count.toNat)
  readable : c.direction = .write → accessKernelOk c.mmu c.buf protR = 0 ∧ Readable c.mmu c.buf c.count
  writable : c.direction = .read → accessKernelOk c.mmu c.buf protRw = 0
  reads : c.direction = .read → c.returned ≠ -1
  enough : c.count.toNat < fuel

/-- What the program gives to descriptor `fd`. -/
def output (fd : CInt) (c : FileIo) : List Byte :=
  if c.direction = .write ∧ c.fd = fd then Bytes.bytesAt c.before c.buf c.count.toNat else []

/-- What the program finds in its buffer. -/
def input (fd : CInt) (c : FileIo) : List Byte :=
  if c.direction = .read ∧ c.fd = fd then Bytes.bytesAt c.after c.buf c.returned.toNat else []

/-- What a call does for the program and to the VMM. -/
structure Transfers (s : Vmm HostState) (c : FileIo) (t : Vmm HostState) : Prop where
  ready : t.Ready
  calls : t.calls = s.calls ++ [c.address]
  taken : ∀ fd, t.world.taken fd = s.world.taken fd ++ c.output fd
  given : ∀ fd, t.world.given fd = s.world.given fd ++ c.input fd
  few : c.returned.toNat ≤ c.count.toNat
  whole : c.direction = .write → c.returned = c.count

variable {endian : LittleEndian} {files : HostFiles} {fuel : Nat} {c : FileIo} {w : Window c.guest} {s t : Vmm HostState}

/-- The block is answered when the call comes back. -/
theorem Step.answered (step : c.Step endian files fuel s t) (sound : c.Sound fuel w) (ready : s.Ready) {v : Word} :
    let world := s.world.withMemory c.memory
    let direct := ioHypercall (world.host files fuel) (hvcArgs c.memory c.address) c.code (c.fd.signExtend 64)
      (hostAddress c.guest c.newBuffer) c.count 0 0 0
    direct.result = some v → t.Ready ∧ t.calls = s.calls ++ [c.address] ∧
      t.world = (direct.op.elim world (world.perform files fuel)).answer c.address v := by
  intro world direct value
  have block : hvcArgs c.memory c.address = ioCall c.code (c.fd.signExtend 64) (hostAddress c.guest c.newBuffer)
      c.count 0 0 0 (hvcArgs c.memory c.address) :=
    hvcArgs_ioCall ((sound.block.bytesAt step.block).trans step.stored)
  have between : Vmm.Ready { s with world := world } := ⟨ready.running, ready.empty⟩
  obtain ⟨calls, running, after, emptied⟩ := between.answered step.sends step.run
  have handled : HostState.handle files fuel world c.address =
      direct.result.map ((direct.op.elim world (world.perform files fuel)).answer c.address) :=
    handle_ioCall world block
  rw [handled, value] at running after
  exact ⟨⟨running, emptied running⟩, calls, after⟩

/-- Where the areas are apart, the copy is that of the source. -/
theorem copyBytes_apart {m : Word → Byte} {dst src count : Word} {n : Nat} (shorter : n ≤ count.toNat)
    (apart : Disjoint (Bytes.span src count.toNat) (Bytes.span dst count.toNat)) :
    Bytes.bytesAt (copyBytes m dst src count).bytes dst n = Bytes.bytesAt m src n := by
  have small := count.isLt
  apply List.map_congr_left
  intro i member
  have inside : i < count.toNat := Nat.lt_of_lt_of_le (List.mem_range.mp member) shorter
  refine (copyBytes_copying m dst src count).first i inside fun j earlier same => ?_
  refine Set.disjoint_left.mp apart (Bytes.offset_mem src inside (by omega)) ?_
  rw [same]
  exact Bytes.offset_mem dst (Nat.lt_trans earlier inside) (by omega)

theorem ioHypercall_write (host : Host) (behind : Nat → Word) (fd : CInt) (buf count : Word) :
    let direct := ioHypercall host behind hcallWrite (fd.signExtend 64) buf count 0 0 0
    direct.op = some (.write fd buf count) ∧ ∀ v, direct.result = some v → host.hypercallWrite fd buf count = .ok v := by
  simp only [ioHypercall, handleHypercall, ioCall, hcallWrite, hvcOpen, hvcRead, hvcWrite, truncate_signExtend]
  refine ⟨rfl, fun v value => ?_⟩
  cases answer : host.hypercallWrite fd buf count with
  | ok n =>
    simp only [answer] at value
    exact congrArg WriteReply.ok (Option.some.inj value)
  | err => simp [answer] at value
  | never => simp [answer] at value

theorem ioHypercall_read (host : Host) (behind : Nat → Word) (fd : CInt) (buf count : Word) :
    let direct := ioHypercall host behind hcallRead (fd.signExtend 64) buf count 0 0 0
    direct.op = some (.read fd buf count) ∧ direct.result = host.hypercallRead fd buf count := by
  simp only [ioHypercall, handleHypercall, ioCall, hcallRead, hvcOpen, hvcRead, truncate_signExtend]
  refine ⟨rfl, ?_⟩
  cases host.hypercallRead fd buf count with
  | none => rfl
  | some v => rfl

theorem writeWrapper_eq (g : Guest) (host : Host) (behind : Nat → Word) (fd : CInt) {buf : Word} (count : Word)
    (allocated : buf ≠ 0) : writeWrapper g host behind fd buf count =
      ioHypercall host behind hcallWrite (fd.signExtend 64) (hostAddress g buf) count 0 0 0 := by
  rw [writeWrapper, if_neg allocated]
  exact if_neg (hostAddress_ne g buf)

theorem readWrapper_eq (g : Guest) (host : Host) (behind : Nat → Word) (fd : CInt) {buf : Word} (count : Word)
    (allocated : buf ≠ 0) : readWrapper g host behind fd buf count =
      ioHypercall host behind hcallRead (fd.signExtend 64) (hostAddress g buf) count 0 0 0 := by
  rw [readWrapper, if_neg allocated]
  exact if_neg (hostAddress_ne g buf)

theorem sysWrite_returns {host : Host} (sound : c.Sound fuel w) (write : c.direction = .write)
    (returns : c.Returns host) :
    (ioHypercall host (hvcArgs c.memory c.address) c.code (c.fd.signExtend 64) (hostAddress c.guest c.newBuffer)
      c.count 0 0 0).result = some c.returned := by
  have readable (_ : accessKernelOk c.mmu c.buf protR = 0) := (sound.readable write).2
  have eq := sysWrite_eq (c.writeCall host) c.fd c.buf c.count sound.entry sound.allocated readable
  simp only [Returns, write] at returns
  simp only [eq] at returns
  rw [code, write]
  exact (writeWrapper_eq c.guest host (hvcArgs c.memory c.address) c.fd c.count sound.allocated) ▸ returns

theorem Step.writes (step : c.Step endian files fuel s t) (sound : c.Sound fuel w) (ready : s.Ready)
    (write : c.direction = .write) : c.Transfers s t := by
  have returned := sysWrite_returns sound write step.returns
  obtain ⟨still, calls, world⟩ := step.answered sound ready returned
  have code : c.code = hcallWrite := by simp only [FileIo.code, write]
  obtain ⟨op, result⟩ := ioHypercall_write ((s.world.withMemory c.memory).host files fuel) (hvcArgs c.memory c.address)
    c.fd (hostAddress c.guest c.newBuffer) c.count
  rw [code] at returned world
  obtain ⟨all, performed⟩ := HostState.write_ok sound.enough (result c.returned returned)
  have bytes : Bytes.bytesAt c.memory (hostAddress c.guest c.newBuffer) c.count.toNat =
      Bytes.bytesAt c.before c.buf c.count.toNat := by
    rw [sound.buffer.bytesAt step.buffer, step.copied write, copyFromUser,
      if_neg (not_not_intro (sound.readable write).1)]
    exact copyBytes_apart (Nat.le_refl _) sound.own
  rw [op, Option.elim_some, performed] at world
  refine ⟨still, calls, fun fd => ?_, fun fd => ?_, Nat.le_of_eq (congrArg BitVec.toNat all), fun _ => all⟩
  · rw [world, output, ← bytes]
    cases decEq c.fd fd with
    | isTrue same =>
      subst same
      rw [if_pos ⟨write, rfl⟩]
      exact Function.update_self ..
    | isFalse other =>
      rw [if_neg fun both => other both.2, List.append_nil]
      exact Function.update_of_ne (Ne.symm other) _ _
  · have none : ¬ (c.direction = .read ∧ c.fd = fd) := by
      rw [write]
      exact fun both => Direction.noConfusion both.1
    rw [world, input, if_neg none, List.append_nil]
    rfl

theorem sysRead_silent (c : ReadCall) (fd : CInt) (buf count : Word) (entry : 0 ≤ c.hostFd) (allocated : c.newBuffer ≠ 0)
    (silent : c.host.hypercallRead fd (hostAddress c.guest c.newBuffer) count = none) :
    sysRead c fd buf count = ⟨none, c.bytes, []⟩ := by
  have result : (readWrapper c.guest c.host c.behind fd c.newBuffer count).result = none := by
    rw [readWrapper_eq c.guest c.host c.behind fd count allocated]
    exact (ioHypercall_read c.host c.behind fd (hostAddress c.guest c.newBuffer) count).2.trans silent
  rw [sysRead, if_neg (Int.not_lt.mpr entry), if_neg allocated, result]

/-- A reply that comes back to the program is copied in whole. -/
theorem readReply_returned {c : ReadCall} {buf reply v : Word} (passed : accessKernelOk c.mmu buf protRw = 0)
    (ret : (readReply c buf reply).ret = some v) :
    reply = v ∧ (readReply c buf reply).bytes = (copyBytes c.bytes buf c.newBuffer reply).bytes := by
  have most := c.mmu.turns_le buf c.newBuffer reply.toNat 0
  simp only [readReply, if_pos passed] at ret ⊢
  split at ret
  · cases ret
  · have all : c.mmu.turns buf c.newBuffer reply.toNat 0 = reply.toNat := by omega
    rw [all, BitVec.ofNat_toNat, BitVec.setWidth_eq]
    exact ⟨Option.some.inj ret, rfl⟩

theorem sysRead_returns {host : Host} (sound : c.Sound fuel w) (read : c.direction = .read) (returns : c.Returns host) :
    host.hypercallRead c.fd (hostAddress c.guest c.newBuffer) c.count = some c.returned ∧
      c.after = (copyBytes c.back c.buf c.newBuffer c.returned).bytes := by
  simp only [Returns, read] at returns
  obtain ⟨ret, after⟩ := returns
  cases reply : host.hypercallRead c.fd (hostAddress c.guest c.newBuffer) c.count with
  | none =>
    rw [sysRead_silent (c.readCall host) c.fd c.buf c.count sound.entry sound.allocated reply] at ret
    cases ret
  | some found =>
    rw [sysRead_eq (c.readCall host) c.fd c.buf c.count found sound.entry sound.allocated reply] at ret after
    have passed : accessKernelOk (c.readCall host).mmu c.buf protRw = 0 := sound.writable read
    obtain ⟨rfl, bytes⟩ := readReply_returned passed ret
    exact ⟨rfl, after.symm.trans bytes⟩

theorem Step.reads (step : c.Step endian files fuel s t) (sound : c.Sound fuel w) (ready : s.Ready)
    (read : c.direction = .read) : c.Transfers s t := by
  obtain ⟨reply, after⟩ := sysRead_returns sound read step.returns
  have code : c.code = hcallRead := by simp only [FileIo.code, read]
  obtain ⟨op, result⟩ := ioHypercall_read ((s.world.withMemory c.memory).host files fuel) (hvcArgs c.memory c.address)
    c.fd (hostAddress c.guest c.newBuffer) c.count
  have answered := step.answered sound ready (v := c.returned)
  rw [code] at answered
  obtain ⟨still, calls, world⟩ := answered (result.trans reply)
  obtain ⟨bytes, memory, performed, few, stored, length⟩ := HostState.read_some reply
  rw [op, Option.elim_some, performed] at world
  have small := c.count.isLt
  have back : c.returned.toNat = bytes.length := by
    rw [length (sound.reads read), BitVec.toNat_ofNat, Nat.mod_eq_of_lt (by omega)]
  -- the answer in the block leaves the buffer alone
  have found : Bytes.bytesAt t.world.memory (hostAddress c.guest c.newBuffer) bytes.length = bytes := by
    have apart := sound.buffer.apart sound.block sound.apart
    rw [world]
    refine (Bytes.bytesAt_store_apart (by omega) ?_).trans stored
    rw [length_valueBytes]
    exact Disjoint.mono (Bytes.span_mono _ few) (Bytes.span_mono _ (by decide)) apart
  have got : Bytes.bytesAt c.after c.buf c.returned.toNat = bytes := by
    have shorter : w.Holds c.newBuffer bytes.length := by
      obtain ⟨d, room, place⟩ := sound.buffer
      exact ⟨d, by omega, place⟩
    have own := Disjoint.mono (Bytes.span_mono c.newBuffer (back ▸ few)) (Bytes.span_mono c.buf (back ▸ few)) sound.own.symm
    rw [after, copyBytes_apart (Nat.le_refl _) own, back,
      ← shorter.bytesAt fun i inside => step.seen i (Nat.lt_of_lt_of_le inside few)]
    exact found
  refine ⟨still, calls, fun fd => ?_, fun fd => ?_, back ▸ few, fun write => ?_⟩
  · have none : ¬ (c.direction = .write ∧ c.fd = fd) := by
      rw [read]
      exact fun both => Direction.noConfusion both.1
    rw [world, output, if_neg none, List.append_nil]
    rfl
  · rw [world, input, got]
    cases decEq c.fd fd with
    | isTrue same =>
      subst same
      rw [if_pos ⟨read, rfl⟩]
      exact Function.update_self ..
    | isFalse other =>
      rw [if_neg fun both => other both.2, List.append_nil]
      exact Function.update_of_ne (Ne.symm other) _ _
  · rw [read] at write
    cases write

end FileIo

end RealmVm
