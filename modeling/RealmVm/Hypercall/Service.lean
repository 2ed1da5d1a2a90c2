import RealmVm.Hypercall.HostLoops
import RealmVm.Hypercall.Runloop

/-! A call over the UART as a whole: the guest sends the address of a block, the VMM's loop hands it to
`handle_hypercall`, which works on the memory that both see. -/
namespace RealmVm

open Lib

section Channel

variable {W : Type} {endian : LittleEndian} {handle : W → Word → Option W} {s t : Vmm W} {exits : List VcpuExit} {address : Word}

/-- What one call leaves: the world is what the handler makes of it, and the loop goes on if the handler returns. -/
structure Vmm.Answered (handle : W → Word → Option W) (s t : Vmm W) (address : Word) : Prop where
  calls : t.calls = s.calls ++ [address]
  running : t.running = (handle s.world address).isSome
  world : t.world = (handle s.world address).getD s.world
  emptied : t.running = true → t.uartSys.recvBuffer = []

theorem onExit_silent_world (s : Vmm W) (endian : LittleEndian) (handle : W → Word → Option W) {exit : VcpuExit}
    (silent : exit.syscallByte = none) : (s.onExit endian handle exit).world = s.world := by
  cases exit with
  | mmioWrite physicalAddress data =>
    have same : uartSysBaseAddress = uartSysDrAddress := by decide
    have apart : physicalAddress ≠ uartSysBaseAddress := by
      intro here
      rw [same] at here
      simp [VcpuExit.syscallByte, here] at silent
    cases decEq physicalAddress uart0BaseAddress with
    | isTrue console => simp only [Vmm.onExit, Vmm.mmioWrite, if_pos console]
    | isFalse other => simp only [Vmm.onExit, Vmm.mmioWrite, if_neg other, if_neg apart]
  | _ => rfl

/-- Device accesses that carry no byte of a call change nothing that a call depends on. -/
theorem silent_run (run : Run (Vmm.Step endian handle) s exits t) (runs : s.running = true)
    (short : s.uartSys.recvBuffer.length < 8) (quiet : exits.filterMap VcpuExit.syscallByte = [])
    (mmio : ∀ exit ∈ exits, exit.isMmio = true) :
    t.uartSys = s.uartSys ∧ t.calls = s.calls ∧ t.world = s.world ∧ t.running = true := by
  induction run with
  | nil => exact ⟨rfl, rfl, rfl, runs⟩
  | @cons s₀ s₁ s₂ exit rest head _ ih =>
    obtain ⟨_, rfl⟩ := head
    obtain ⟨here, later⟩ := List.forall_mem_cons.mp mmio
    have none : exit.syscallByte = none := by
      cases byte : exit.syscallByte with
      | none => rfl
      | some c =>
        rw [List.filterMap_cons, byte] at quiet
        cases quiet
    rw [List.filterMap_cons, none] at quiet
    obtain ⟨channel, calls, still⟩ := onExit_silent s₀ endian handle none
    obtain ⟨channel', calls', world', running⟩ := ih (still here runs) (channel ▸ short) quiet later
    exact ⟨channel'.trans channel, calls'.trans calls, world'.trans (onExit_silent_world s₀ endian handle none), running⟩

theorem silent_runs (runs : s.running = true) (quiet : exits.filterMap VcpuExit.syscallByte = [])
    (mmio : ∀ exit ∈ exits, exit.isMmio = true) : ∃ t, Run (Vmm.Step endian handle) s exits t := by
  induction exits generalizing s with
  | nil => exact ⟨s, .nil s⟩
  | cons exit rest ih =>
    obtain ⟨here, later⟩ := List.forall_mem_cons.mp mmio
    have none : exit.syscallByte = none := by
      cases byte : exit.syscallByte with
      | none => rfl
      | some c =>
        rw [List.filterMap_cons, byte] at quiet
        cases quiet
    rw [List.filterMap_cons, none] at quiet
    obtain ⟨t, run⟩ := ih ((onExit_silent s endian handle none).2.2 here runs) quiet later
    exact ⟨t, .cons ⟨runs, rfl⟩ run⟩

theorem valueBytes_whole {sent : List Byte} {c : Byte} {v : Word} {later : List Byte}
    (stream : sent ++ c :: later = valueBytes address) (bytes : valueBytes v = sent ++ [c]) : v = address ∧ later = [] := by
  have whole := congrArg List.length stream
  have part := congrArg List.length bytes
  rw [length_valueBytes, List.length_append, List.length_cons] at whole
  rw [length_valueBytes, List.length_append, List.length_singleton] at part
  obtain rfl : later = [] := List.eq_nil_of_length_eq_zero (by omega)
  exact ⟨valueBytes_injective v address (bytes.trans stream), rfl⟩

/-- The bytes of one address, from where the buffer stands, among other device accesses. -/
theorem Vmm.answered (run : Run (Vmm.Step endian handle) s exits t) (runs : s.running = true)
    (short : s.uartSys.recvBuffer.length < 8)
    (stream : s.uartSys.recvBuffer ++ exits.filterMap VcpuExit.syscallByte = valueBytes address)
    (mmio : ∀ exit ∈ exits, exit.isMmio = true) : Vmm.Answered handle s t address := by
  induction run with
  | nil =>
    rw [List.filterMap_nil, List.append_nil] at stream
    rw [stream, length_valueBytes] at short
    exact absurd short (Nat.lt_irrefl 8)
  | @cons s₀ s₁ s₂ exit rest head tail ih =>
    obtain ⟨_, rfl⟩ := head
    obtain ⟨here, later⟩ := List.forall_mem_cons.mp mmio
    have effect := onExit_effect endian handle exit short
    have unchanged (silent : exit.syscallByte = none) := onExit_silent_world s₀ endian handle silent
    generalize s₀.onExit endian handle exit = s₁ at effect unchanged tail ih
    cases effect with
    | silent t₁ byte channel calls still =>
      rw [List.filterMap_cons, byte] at stream
      obtain ⟨calls', running, world, emptied⟩ := ih (still here runs) (channel ▸ short) (channel ▸ stream) later
      rw [calls] at calls'
      rw [unchanged byte] at running world
      exact ⟨calls', running, world, emptied⟩
    | collects c byte few =>
      rw [List.filterMap_cons, byte] at stream
      obtain ⟨calls, running, world, emptied⟩ := ih runs
        (by rw [List.length_append, List.length_singleton]; omega)
        (by rw [List.append_assoc, List.singleton_append]; exact stream) later
      exact ⟨calls, running, world, emptied⟩
    | ends c v byte bytes refused =>
      rw [List.filterMap_cons, byte] at stream
      obtain ⟨rfl, quiet⟩ := valueBytes_whole stream bytes
      -- a loop that has ended takes no further exit
      cases tail with
      | cons next _ => exact absurd next.1 Bool.false_ne_true
      | nil => exact ⟨rfl, by rw [refused]; rfl, by rw [refused]; rfl, fun still => absurd still Bool.false_ne_true⟩
    | returns c v world byte bytes answer =>
      rw [List.filterMap_cons, byte] at stream
      obtain ⟨rfl, quiet⟩ := valueBytes_whole stream bytes
      obtain ⟨channel, calls, same, running⟩ := silent_run tail runs (Nat.zero_lt_succ 7) quiet later
      exact ⟨calls, by rw [running, answer]; rfl, by rw [same, answer]; rfl, fun _ => congrArg UartDevice.recvBuffer channel⟩

/-- When the handler returns, the loop takes all of the exits. -/
theorem Vmm.answers (returns : (handle s.world address).isSome = true) (runs : s.running = true)
    (short : s.uartSys.recvBuffer.length < 8)
    (stream : s.uartSys.recvBuffer ++ exits.filterMap VcpuExit.syscallByte = valueBytes address)
    (mmio : ∀ exit ∈ exits, exit.isMmio = true) : ∃ t, Run (Vmm.Step endian handle) s exits t := by
  induction exits generalizing s with
  | nil => exact ⟨s, .nil s⟩
  | cons exit rest ih =>
    obtain ⟨here, later⟩ := List.forall_mem_cons.mp mmio
    have effect := onExit_effect endian handle exit short
    have unchanged (silent : exit.syscallByte = none) := onExit_silent_world s endian handle silent
    have step : Vmm.Step endian handle s exit (s.onExit endian handle exit) := ⟨runs, rfl⟩
    generalize s.onExit endian handle exit = s₁ at effect unchanged step
    suffices more : ∃ t, Run (Vmm.Step endian handle) s₁ rest t by
      obtain ⟨t, run⟩ := more
      exact ⟨t, .cons step run⟩
    cases effect with
    | silent t₁ byte channel calls still =>
      rw [List.filterMap_cons, byte] at stream
      exact ih (unchanged byte ▸ returns) (still here runs) (channel ▸ short) (channel ▸ stream) later
    | collects c byte few =>
      rw [List.filterMap_cons, byte] at stream
      exact ih returns runs (by rw [List.length_append, List.length_singleton]; omega)
        (by rw [List.append_assoc, List.singleton_append]; exact stream) later
    | ends c v byte bytes refused =>
      rw [List.filterMap_cons, byte] at stream
      obtain ⟨rfl, _⟩ := valueBytes_whole stream bytes
      rw [refused] at returns
      cases returns
    | returns c v world byte bytes answer =>
      rw [List.filterMap_cons, byte] at stream
      obtain ⟨rfl, quiet⟩ := valueBytes_whole stream bytes
      exact silent_runs runs quiet later

end Channel

/-- The host's kernel: what it answers during call number `n` of the VMM. -/
structure HostFiles where
  opened : Nat → Word → CInt → CInt → CInt
  reader : Nat → CInt → FileReader
  writer : Nat → CInt → FileWriter
  lseek : Nat → CInt → Word → CInt → Word
  closed : Nat → CInt → CInt

/-- The memory of the VMM with the guest's RAM in it, the number of calls so far, and what each descriptor gave and
took. -/
structure HostState where
  memory : Word → Byte
  calls : Nat
  given : CInt → List Byte
  taken : CInt → List Byte

namespace HostState

variable (files : HostFiles) (fuel : Nat) (w : HostState)

def read (fd : CInt) (buf len : Word) : Option ReadRun :=
  hypercallRead (files.reader w.calls fd) fuel buf len w.memory

def write (fd : CInt) (buf len : Word) : Option WriteRun :=
  hypercallWrite (files.writer w.calls fd) fuel buf len w.memory

/- The answers that `handle_hypercall` gets. -/
def host : Host where
  hypercallOpen := files.opened w.calls
  hypercallRead fd buf len := (w.read files fuel fd buf len).map ReadRun.result
  hypercallWrite fd buf len := (w.write files fuel fd buf len).elim .never fun run => run.result.elim .err .ok
  lseek := files.lseek w.calls
  hypercallClose := files.closed w.calls

/- What an operation does besides. -/
def perform : HostOp → HostState
  | .read fd buf len => (w.read files fuel fd buf len).elim w fun run =>
      { w with memory := run.memory, given := Function.update w.given fd (w.given fd ++ run.bytes) }
  | .write fd buf len => (w.write files fuel fd buf len).elim w fun run =>
      { w with taken := Function.update w.taken fd (w.taken fd ++ run.accepted) }
  | .open _ _ _ | .lseek _ _ _ | .close _ | .exit _ => w

/- `hvc_args[0]`, written back. -/
def answer (address value : Word) : HostState :=
  { w with memory := Bytes.store w.memory address (valueBytes value), calls := w.calls + 1 }

end HostState

def Outcome.value : Outcome → Option Word
  | .resumed _ hvcArgs => some (hvcArgs 0)
  | .panicked | .exited | .stuck => none

/- `handle_hypercall` on the block at `address`: `none` when it panics, exits or does not come back. -/
def HostState.handle (files : HostFiles) (fuel : Nat) (w : HostState) (address : Word) : Option HostState :=
  let handled := handleHypercall (w.host files fuel) (hvcArgs w.memory address)
  handled.outcome.value.map (HostState.answer (handled.op.elim w (w.perform files fuel)) address)

/- The bytes of one `io_hypercall` on the channel, whatever is written to the console meanwhile. -/
structure SendsCall (address : Word) (exits : List VcpuExit) : Prop where
  bytes : exits.filterMap VcpuExit.syscallByte = valueBytes address
  mmio : ∀ exit ∈ exits, exit.isMmio = true

/- Between two calls the loop runs and its buffer is empty. -/
structure Vmm.Ready (s : Vmm HostState) : Prop where
  running : s.running = true
  empty : s.uartSys.recvBuffer = []

section Calls

variable {endian : LittleEndian} {files : HostFiles} {fuel : Nat} {s t : Vmm HostState} {exits : List VcpuExit} {address : Word}

theorem Vmm.Ready.answered (ready : s.Ready) (sends : SendsCall address exits)
    (run : Run (Vmm.Step endian (HostState.handle files fuel)) s exits t) :
    Vmm.Answered (HostState.handle files fuel) s t address := by
  refine Vmm.answered run ready.running ?_ ?_ sends.mmio
  · rw [ready.empty]
    exact Nat.zero_lt_succ 7
  · rw [ready.empty]
    exact sends.bytes

theorem hvcArgs_answer (w : HostState) (address value : Word) :
    hvcArgs (w.answer address value).memory address 0 = value := by
  have place : address + BitVec.ofNat 64 (8 * 0) = address := BitVec.add_zero address
  have stored := @Bytes.bytesAt_store _ (valueBytes value) w.memory address (by rw [length_valueBytes]; decide)
  rw [length_valueBytes] at stored
  rw [hvcArgs, place, HostState.answer, Bytes.load, stored]
  exact Bytes.ofNat_decode_encode 8 (by decide) value

theorem hvcArgs_words {m : Word → Byte} {words : List Word}
    (stored : Bytes.bytesAt m address (8 * words.length) = words.flatMap valueBytes) {i : Nat} (inside : i < words.length) :
    hvcArgs m address i = words[i] := by
  induction words generalizing address i with
  | nil => exact absurd inside (Nat.not_lt_zero i)
  | cons v rest ih =>
    rw [List.length_cons, Nat.mul_succ, Nat.add_comm, Bytes.bytesAt_append, List.flatMap_cons] at stored
    obtain ⟨head, tail⟩ := List.append_inj stored (by rw [Bytes.length_bytesAt, length_valueBytes])
    cases i with
    | zero =>
      have place : address + BitVec.ofNat 64 (8 * 0) = address := BitVec.add_zero address
      rw [hvcArgs, place, Bytes.load, head]
      exact Bytes.ofNat_decode_encode 8 (by decide) v
    | succ i =>
      have place : address + BitVec.ofNat 64 (8 * (i + 1)) = address + BitVec.ofNat 64 8 + BitVec.ofNat 64 (8 * i) := by
        rw [BitVec.add_assoc, ← BitVec.ofNat_add, Nat.mul_succ, Nat.add_comm (8 * i)]
      have next := ih tail (Nat.lt_of_succ_lt_succ inside)
      rw [hvcArgs] at next ⊢
      rw [place]
      exact next

/-- The seven stores of `io_hypercall`, as the VMM reads them. -/
theorem hvcArgs_ioCall {m : Word → Byte} {code arg0 arg1 arg2 arg3 arg4 arg5 : Word}
    (stored : Bytes.bytesAt m address 56 = [code, arg0, arg1, arg2, arg3, arg4, arg5].flatMap valueBytes) :
    hvcArgs m address = ioCall code arg0 arg1 arg2 arg3 arg4 arg5 (hvcArgs m address) := by
  have word {i : Nat} (inside : i < 7) := @hvcArgs_words _ _ [code, arg0, arg1, arg2, arg3, arg4, arg5] stored i inside
  funext n
  rcases n with _ | _ | _ | _ | _ | _ | _ | n
  · exact word (by decide)
  · exact word (by decide)
  · exact word (by decide)
  · exact word (by decide)
  · exact word (by decide)
  · exact word (by decide)
  · exact word (by decide)
  · rfl

/-- The wrapper's own view of the block and the answer to it. -/
theorem ioHypercall_eq (host : Host) {behind : Nat → Word} {code arg0 arg1 arg2 arg3 arg4 arg5 : Word}
    (block : behind = ioCall code arg0 arg1 arg2 arg3 arg4 arg5 behind) :
    let direct := ioHypercall host behind code arg0 arg1 arg2 arg3 arg4 arg5
    direct.op = (handleHypercall host behind).op ∧ direct.result = (handleHypercall host behind).outcome.value := by
  simp only [ioHypercall]
  rw [← block]
  refine ⟨rfl, ?_⟩
  cases (handleHypercall host behind).outcome <;> rfl

/-- What the VMM makes of the block that the wrapper built. -/
theorem handle_ioCall (w : HostState) {code arg0 arg1 arg2 arg3 arg4 arg5 : Word}
    (block : hvcArgs w.memory address = ioCall code arg0 arg1 arg2 arg3 arg4 arg5 (hvcArgs w.memory address)) :
    let direct := ioHypercall (w.host files fuel) (hvcArgs w.memory address) code arg0 arg1 arg2 arg3 arg4 arg5
    HostState.handle files fuel w address =
      direct.result.map ((direct.op.elim w (w.perform files fuel)).answer address) := by
  intro direct
  obtain ⟨op, result⟩ := ioHypercall_eq (w.host files fuel) block
  rw [HostState.handle]
  exact op ▸ result ▸ rfl

/-- A call over the UART is a procedure call: whatever else goes to the devices meanwhile, the VMM performs the
operation of the block once, and the guest finds its value in the first word. When there is no value, the VMM does
not go on. -/
theorem io_hypercall_over_uart (ready : s.Ready) (sends : SendsCall address exits)
    (run : Run (Vmm.Step endian (HostState.handle files fuel)) s exits t) {code arg0 arg1 arg2 arg3 arg4 arg5 : Word}
    (block : hvcArgs s.world.memory address =
      ioCall code arg0 arg1 arg2 arg3 arg4 arg5 (hvcArgs s.world.memory address)) :
    let direct := ioHypercall (s.world.host files fuel) (hvcArgs s.world.memory address) code arg0 arg1 arg2 arg3 arg4
      arg5
    t.calls = s.calls ++ [address] ∧ t.running = direct.result.isSome ∧
      ∀ v, direct.result = some v → t.Ready ∧ hvcArgs t.world.memory address 0 = v ∧
        t.world = (direct.op.elim s.world (s.world.perform files fuel)).answer address v := by
  intro direct
  obtain ⟨calls, running, world, emptied⟩ := ready.answered sends run
  have handled := @handle_ioCall files fuel address s.world _ _ _ _ _ _ _ block
  rw [handled, Option.isSome_map] at running
  refine ⟨calls, running, fun v value => ?_⟩
  have runs : t.running = true := by rw [running, value]; rfl
  have after : t.world = (direct.op.elim s.world (s.world.perform files fuel)).answer address v := by
    rw [world, handled, value]
    rfl
  exact ⟨⟨runs, emptied runs⟩, after ▸ hvcArgs_answer _ address v, after⟩

end Calls

/- Every descriptor takes what it is given and is at its end. -/
def sinkFiles : HostFiles where
  opened _ _ _ _ := 3
  reader _ _ := ⟨fun _ n => some ⟨[], Nat.zero_le n⟩, fun _ _ _ _ _ => rfl⟩
  writer _ _ := ⟨fun _ n => some (Fin.last n), fun _ _ positive same =>
    absurd (congrArg Fin.val (Option.some.inj same)) (Nat.ne_of_gt positive)⟩
  lseek _ _ offset _ := offset
  closed _ _ := 0

/- A block at 0x2000 that asks for the two bytes at 0x3000 to be written to descriptor 1. -/
def twoBytesAsked : HostState where
  memory := Bytes.store (fun a => if a = 0x3000 then 104 else if a = 0x3001 then 105 else 0) 0x2000
    ([hcallWrite, 1, 0x3000, 2, 0, 0, 0].flatMap valueBytes)
  calls := 0
  given _ := []
  taken _ := []

theorem twoBytesAsked_block : hvcArgs twoBytesAsked.memory 0x2000 =
    ioCall hcallWrite 1 0x3000 2 0 0 0 (hvcArgs twoBytesAsked.memory 0x2000) := by
  refine hvcArgs_ioCall ?_
  have stored := @Bytes.bytesAt_store _ ([hcallWrite, 1, 0x3000, 2, 0, 0, 0].flatMap valueBytes)
    (fun a => if a = 0x3000 then 104 else if a = 0x3001 then 105 else 0) (0x2000 : Word) (by decide)
  exact stored

theorem io_hypercall_over_uart_two_bytes : ∃ t : Vmm HostState,
    Run (Vmm.Step firstEight (HostState.handle sinkFiles 8)) (.start twoBytesAsked) (mixedExits 0x2000) t ∧ t.calls = [0x2000] ∧
      t.world.taken 1 = [104, 105] := by
  have sends : SendsCall 0x2000 (mixedExits 0x2000) := ⟨by decide, by decide⟩
  have returned : (ioHypercall (twoBytesAsked.host sinkFiles 8) (hvcArgs twoBytesAsked.memory 0x2000) hcallWrite 1 0x3000
      2 0 0 0).result = some 2 := by decide
  have handled : (HostState.handle sinkFiles 8 twoBytesAsked 0x2000).isSome = true := by decide
  have stream : (Vmm.start twoBytesAsked).uartSys.recvBuffer ++ (mixedExits 0x2000).filterMap VcpuExit.syscallByte =
      valueBytes 0x2000 :=
    sends.bytes
  obtain ⟨t, run⟩ := @Vmm.answers _ firstEight _ _ _ _ handled rfl (by decide) stream sends.mmio
  obtain ⟨calls, _, after⟩ := io_hypercall_over_uart ⟨rfl, rfl⟩ sends run twoBytesAsked_block
  obtain ⟨_, _, world⟩ := after 2 returned
  refine ⟨t, run, calls, ?_⟩
  rw [world]
  decide

end RealmVm
