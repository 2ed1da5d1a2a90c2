import RealmVm.Hypercall.Uart

/-! `Machine::runloop`: the exits of the virtual CPU, and the calls that come out of them. -/
namespace RealmVm

open Lib

/- The two devices, what `handle_hypercall` works on, the values it was called with so far,
and whether the loop still runs. -/
structure Vmm (W : Type) where
  uart0 : UartDevice
  uartSys : UartDevice
  world : W
  calls : List Word
  running : Bool

variable {W : Type}

def Vmm.start (world : W) : Vmm W := ⟨.fresh, .fresh, world, [], true⟩

/- `handle` is `handle_hypercall`: `none` when it leaves the process, panics or does not
come back. -/
def Vmm.mmioWrite (endian : LittleEndian) (handle : W → Word → Option W) (s : Vmm W) (physicalAddress : Word) (data : MmioData) : Vmm W :=
  if physicalAddress = uart0BaseAddress then
    { s with uart0 := (s.uart0.handleWriteRequest physicalAddress data).1 }
  else if physicalAddress = uartSysBaseAddress then
    let (uartSys, length) := s.uartSys.handleWriteRequest physicalAddress data
    if length < 8 then { s with uartSys := uartSys }
    else
      match endian.readU64 uartSys.recvBuffer with
      | none => { s with uartSys := uartSys, running := false }
      | some syscallBuffer =>
        match handle s.world syscallBuffer with
        | none => { s with uartSys := uartSys, calls := s.calls ++ [syscallBuffer], running := false }
        | some world =>
          { s with uartSys := uartSys.clear, world := world, calls := s.calls ++ [syscallBuffer] }
  else s

/- Reads change no device; a panic ends the loop like a `break`. -/
def Vmm.onExit (endian : LittleEndian) (handle : W → Word → Option W) (s : Vmm W) : VcpuExit → Vmm W
  | .mmioRead _ _ => s
  | .mmioWrite physicalAddress data => s.mmioWrite endian handle physicalAddress data
  | .hypercall => s
  | .hlt | .debug | .systemEvent | .unexpected => { s with running := false }

/-- The next exit is taken while the loop runs. -/
def Vmm.Step (endian : LittleEndian) (handle : W → Word → Option W) (s : Vmm W) (exit : VcpuExit) (t : Vmm W) : Prop :=
  s.running = true ∧ t = s.onExit endian handle exit

/-- After the bytes `sent`: one call for every full group of eight, the rest in the buffer.
When the last call did not return, its bytes still stand there. -/
structure Vmm.Framed (s : Vmm W) (sent : List Byte) : Prop where
  calls : ∃ rest, sent = s.calls.flatMap valueBytes ++ rest ∧ rest.length < 8 ∧
    (s.running = true → s.uartSys.recvBuffer = rest)
  bounded : s.uartSys.recvBuffer.length ≤ 8

/-- What holds after `bytes` bytes of the given values have arrived. -/
structure Vmm.Delivered (endian : LittleEndian) (handle : W → Word → Option W) (s : Vmm W) (values : List Word) (bytes : Nat) : Prop where
  calls : s.calls = values.take (bytes / 8)
  held : s.running = true → s.uartSys.recvBuffer.length = bytes % 8
  bounded : s.uartSys.recvBuffer.length ≤ 8
  pushed : s.running = true → ∀ addr data, (s.uartSys.handleWriteRequest addr data).1.recvBuffer.length ≤ 8
  emptied : s.running = true → ∀ exit, (s.onExit endian handle exit).calls ≠ s.calls → (s.onExit endian handle exit).running = true →
    (s.onExit endian handle exit).uartSys.recvBuffer = []

/-- Reads, and writes that are not to the data register of the call channel. -/
def VcpuExit.OffChannel : VcpuExit → Prop
  | .mmioRead _ _ => True
  | .mmioWrite physicalAddress _ => physicalAddress ≠ uartSysDrAddress
  | _ => False

variable {endian : LittleEndian} {handle : W → Word → Option W} {s t : Vmm W} {sent : List Byte}

/-- Eight bytes are the bytes of a number. -/
theorem valueBytes_eight {buf : List Byte} (eight : buf.length = 8) : ∃ v, valueBytes v = buf := by
  have small := Bytes.decode_lt buf
  rw [eight] at small
  have back : (BitVec.ofNat 64 (Bytes.decode buf)).toNat = Bytes.decode buf := by
    rw [BitVec.toNat_ofNat, Nat.mod_eq_of_lt (Nat.lt_of_lt_of_eq small (by decide))]
  refine ⟨BitVec.ofNat 64 (Bytes.decode buf), ?_⟩
  unfold valueBytes
  rw [back, ← eight]
  exact Bytes.encode_decode buf

theorem valueBytes_injective (v w : Word) (same : valueBytes v = valueBytes w) : v = w := by
  have number (value : Word) : BitVec.ofNat 64 (Bytes.decode (valueBytes value)) = value :=
    Bytes.ofNat_decode_encode 8 (by decide) value
  rw [← number v, same, number w]

/-- A byte on the call channel, not the last one of its value. -/
theorem mmioWrite_collects (data : MmioData) (short : s.uartSys.recvBuffer.length < 7) :
    s.mmioWrite endian handle uartSysDrAddress data =
      { s with uartSys := ⟨data.first.setWidth 16, s.uartSys.recvBuffer ++ [data.first]⟩ } := by
  have other : uartSysDrAddress ≠ uart0BaseAddress := by decide
  have here : uartSysDrAddress = uartSysBaseAddress := by decide
  have console : uartSysDrAddress ≠ uart0DrAddress := by decide
  have count : BitVec.ofNat 64 (s.uartSys.recvBuffer ++ [data.first]).length < 8 := by
    rw [List.length_append, List.length_singleton, BitVec.lt_def, BitVec.toNat_ofNat]
    exact Nat.lt_of_le_of_lt (Nat.mod_le _ _) (by change _ < 8; omega)
  simp only [Vmm.mmioWrite, UartDevice.handleWriteRequest, if_neg other, if_pos here, if_neg console, if_true,
    if_pos count]

/-- The last byte of a value: the call, and an empty buffer when it returns. -/
theorem mmioWrite_calls (endian : LittleEndian) (handle : W → Word → Option W) (data : MmioData) (seven : s.uartSys.recvBuffer.length = 7) :
    ∃ v, valueBytes v = s.uartSys.recvBuffer ++ [data.first] ∧
      s.mmioWrite endian handle uartSysDrAddress data =
        match handle s.world v with
        | none => { s with
            uartSys := ⟨data.first.setWidth 16, s.uartSys.recvBuffer ++ [data.first]⟩
            calls := s.calls ++ [v]
            running := false }
        | some world => { s with
            uartSys := ⟨data.first.setWidth 16, []⟩
            world := world
            calls := s.calls ++ [v] } := by
  have other : uartSysDrAddress ≠ uart0BaseAddress := by decide
  have here : uartSysDrAddress = uartSysBaseAddress := by decide
  have console : uartSysDrAddress ≠ uart0DrAddress := by decide
  have eight : (s.uartSys.recvBuffer ++ [data.first]).length = 8 := by
    rw [List.length_append, seven, List.length_singleton]
  obtain ⟨v, bytes⟩ := valueBytes_eight eight
  have read : endian.readU64 (s.uartSys.recvBuffer ++ [data.first]) = some v := by
    have exact := endian.reads v []
    rwa [List.append_nil, bytes] at exact
  have full : ¬ BitVec.ofNat 64 (s.uartSys.recvBuffer ++ [data.first]).length < 8 := by
    rw [eight]
    decide
  refine ⟨v, bytes, ?_⟩
  simp only [Vmm.mmioWrite, UartDevice.handleWriteRequest, if_neg other, if_pos here, if_neg console, if_true,
    if_neg full, read]
  cases handle s.world v with
  | none => rfl
  | some world => rfl

/-- Everything else leaves the channel and the calls alone, and only exits that are no
device access end the loop. -/
theorem onExit_silent (s : Vmm W) (endian : LittleEndian) (handle : W → Word → Option W) {exit : VcpuExit} (silent : exit.syscallByte = none) :
    (s.onExit endian handle exit).uartSys = s.uartSys ∧ (s.onExit endian handle exit).calls = s.calls ∧
      (exit.isMmio = true → s.running = true → (s.onExit endian handle exit).running = true) := by
  cases exit with
  | mmioWrite physicalAddress data =>
    have same : uartSysBaseAddress = uartSysDrAddress := by decide
    have apart : physicalAddress ≠ uartSysBaseAddress := by
      intro here
      rw [same] at here
      simp [VcpuExit.syscallByte, here] at silent
    cases decEq physicalAddress uart0BaseAddress with
    | isTrue console =>
      simp only [Vmm.onExit, Vmm.mmioWrite, if_pos console]
      exact ⟨trivial, trivial, fun _ runs => runs⟩
    | isFalse other =>
      simp only [Vmm.onExit, Vmm.mmioWrite, if_neg other, if_neg apart]
      exact ⟨trivial, trivial, fun _ runs => runs⟩
  | mmioRead physicalAddress data => exact ⟨rfl, rfl, fun _ runs => runs⟩
  | hypercall => exact ⟨rfl, rfl, fun _ runs => runs⟩
  | hlt => exact ⟨rfl, rfl, fun mmio => nomatch mmio⟩
  | debug => exact ⟨rfl, rfl, fun mmio => nomatch mmio⟩
  | systemEvent => exact ⟨rfl, rfl, fun mmio => nomatch mmio⟩
  | unexpected => exact ⟨rfl, rfl, fun mmio => nomatch mmio⟩

theorem syscallByte_some {exit : VcpuExit} {c : Byte} (byte : exit.syscallByte = some c) :
    ∃ behind, exit = .mmioWrite uartSysDrAddress ⟨c, behind⟩ := by
  cases exit with
  | mmioWrite physicalAddress data =>
    cases decEq physicalAddress uartSysDrAddress with
    | isTrue here =>
      simp only [VcpuExit.syscallByte, if_pos here, Option.some.injEq] at byte
      exact ⟨data.rest, by rw [here, ← byte]⟩
    | isFalse other =>
      simp only [VcpuExit.syscallByte, if_neg other] at byte
      exact nomatch byte
  | _ => exact nomatch byte

/-- What one exit does to the channel: nothing, a byte more, or a call that ends the loop or
returns. -/
inductive ExitEffect (handle : W → Word → Option W) (s : Vmm W) (exit : VcpuExit) : Vmm W → Prop
  | silent (t : Vmm W) (none : exit.syscallByte = none) (channel : t.uartSys = s.uartSys) (calls : t.calls = s.calls)
      (still : exit.isMmio = true → s.running = true → t.running = true) : ExitEffect handle s exit t
  | collects (c : Byte) (byte : exit.syscallByte = some c) (few : s.uartSys.recvBuffer.length < 7) :
      ExitEffect handle s exit { s with uartSys := ⟨c.setWidth 16, s.uartSys.recvBuffer ++ [c]⟩ }
  | ends (c : Byte) (v : Word) (byte : exit.syscallByte = some c) (bytes : valueBytes v = s.uartSys.recvBuffer ++ [c])
      (refused : handle s.world v = none) :
      ExitEffect handle s exit
        { s with
          uartSys := ⟨c.setWidth 16, s.uartSys.recvBuffer ++ [c]⟩
          calls := s.calls ++ [v]
          running := false }
  | returns (c : Byte) (v : Word) (world : W) (byte : exit.syscallByte = some c)
      (bytes : valueBytes v = s.uartSys.recvBuffer ++ [c]) (answer : handle s.world v = some world) :
      ExitEffect handle s exit
        { s with
          uartSys := ⟨c.setWidth 16, []⟩
          world := world
          calls := s.calls ++ [v] }

theorem onExit_effect (endian : LittleEndian) (handle : W → Word → Option W) (exit : VcpuExit) (short : s.uartSys.recvBuffer.length < 8) :
    ExitEffect handle s exit (s.onExit endian handle exit) := by
  cases byte : exit.syscallByte with
  | none =>
    obtain ⟨channel, calls, still⟩ := onExit_silent s endian handle byte
    exact .silent _ byte channel calls still
  | some c =>
    obtain ⟨behind, rfl⟩ := syscallByte_some byte
    change ExitEffect handle s _ (s.mmioWrite endian handle uartSysDrAddress ⟨c, behind⟩)
    cases Nat.lt_or_ge s.uartSys.recvBuffer.length 7 with
    | inl few =>
      rw [mmioWrite_collects ⟨c, behind⟩ few]
      exact .collects c byte few
    | inr many =>
      have seven : s.uartSys.recvBuffer.length = 7 := by omega
      obtain ⟨v, bytes, after⟩ := mmioWrite_calls endian handle ⟨c, behind⟩ seven
      rw [after]
      cases answer : handle s.world v with
      | none => exact .ends c v byte bytes answer
      | some world => exact .returns c v world byte bytes answer

theorem Vmm.Framed.short (framed : s.Framed sent) (runs : s.running = true) : s.uartSys.recvBuffer.length < 8 := by
  obtain ⟨⟨rest, _, short, held⟩, _⟩ := framed
  rw [held runs]
  exact short

theorem framed_step {exit : VcpuExit} (framed : s.Framed sent) (runs : s.running = true) :
    (s.onExit endian handle exit).Framed (sent ++ exit.syscallByte.toList) := by
  have effect := onExit_effect endian handle exit (framed.short runs)
  obtain ⟨⟨rest, split, short, held⟩, bounded⟩ := framed
  have buffer := held runs
  have grown {c : Byte} {v : Word} (bytes : valueBytes v = s.uartSys.recvBuffer ++ [c]) :
      sent ++ [c] = (s.calls ++ [v]).flatMap valueBytes ++ [] := by
    rw [List.flatMap_append, List.flatMap_singleton, bytes, buffer, split, List.append_nil, List.append_assoc]
  generalize s.onExit endian handle exit = t at effect ⊢
  cases effect with
  | silent t byte channel calls _ =>
    rw [byte]
    refine ⟨⟨rest, ?_, short, fun _ => ?_⟩, ?_⟩
    · rw [calls, split]
      exact List.append_nil _
    · rw [channel]
      exact buffer
    · rw [channel]
      exact bounded
  | collects c byte few =>
    rw [byte, split]
    have length : (rest ++ [c]).length = rest.length + 1 := List.length_append
    rw [buffer] at few
    refine ⟨⟨rest ++ [c], List.append_assoc .., by omega, fun _ => ?_⟩, ?_⟩
    · rw [buffer]
    · simp only [buffer]
      omega
  | ends c v byte bytes _ =>
    rw [byte]
    refine ⟨⟨[], grown bytes, Nat.zero_lt_succ 7, fun more => absurd more Bool.false_ne_true⟩, ?_⟩
    rw [← bytes]
    exact Nat.le_of_eq (length_valueBytes v)
  | returns c v world byte bytes _ =>
    rw [byte]
    exact ⟨⟨[], grown bytes, Nat.zero_lt_succ 7, fun _ => rfl⟩, Nat.zero_le 8⟩

theorem framed_run {exits : List VcpuExit} (run : Run (Vmm.Step endian handle) s exits t) (framed : s.Framed sent) :
    t.Framed (sent ++ exits.filterMap VcpuExit.syscallByte) := by
  induction run generalizing sent with
  | nil => exact (List.append_nil sent).symm ▸ framed
  | cons head _ ih =>
    obtain ⟨runs, rfl⟩ := head
    have later := ih (framed_step framed runs)
    rw [List.append_assoc] at later
    rename_i exit rest _
    have joined : exit.syscallByte.toList ++ rest.filterMap VcpuExit.syscallByte =
        (exit :: rest).filterMap VcpuExit.syscallByte := by
      rw [List.filterMap_cons]
      cases exit.syscallByte <;> rfl
    exact joined ▸ later

theorem framed_start (world : W) : (Vmm.start world).Framed [] :=
  ⟨⟨[], rfl, Nat.zero_lt_succ 7, fun _ => rfl⟩, Nat.zero_le 8⟩

/-- The channel can only take eight bytes before its buffer is handed over. -/
theorem pushed_bounded {rest : List Byte} (short : rest.length < 8) (buffer : s.uartSys.recvBuffer = rest)
    (addr : Word) (data : MmioData) : (s.uartSys.handleWriteRequest addr data).1.recvBuffer.length ≤ 8 := by
  unfold UartDevice.handleWriteRequest
  split
  · simp only [buffer]
    omega
  · split
    · simp only [buffer, List.length_append, List.length_singleton]
      omega
    · simp only [buffer]
      omega

theorem emptied_after_call (framed : s.Framed sent) (runs : s.running = true) (exit : VcpuExit)
    (called : (s.onExit endian handle exit).calls ≠ s.calls) (still : (s.onExit endian handle exit).running = true) :
    (s.onExit endian handle exit).uartSys.recvBuffer = [] := by
  have effect := onExit_effect endian handle exit (framed.short runs)
  generalize s.onExit endian handle exit = t at effect called still ⊢
  cases effect with
  | silent _ _ _ calls _ => exact absurd calls called
  | collects c _ _ => exact absurd rfl called
  | ends c v _ _ _ => exact absurd still Bool.false_ne_true
  | returns c v world _ _ _ => rfl

/-- Framing in the terms of the values: what has arrived so far is a prefix of theirs. -/
theorem framed_delivered {values : List Word} {later : List Byte} (framed : s.Framed sent)
    (stream : sent ++ later = values.flatMap valueBytes) : s.Delivered endian handle values sent.length := by
  have whole := framed
  obtain ⟨⟨rest, split, short, held⟩, bounded⟩ := framed
  rw [split, List.append_assoc] at stream
  obtain ⟨behind, rfl, _⟩ := Bytes.flatMap_split length_valueBytes (by decide) valueBytes_injective stream
  have count : sent.length = s.calls.length * 8 + rest.length := by
    rw [split, List.length_append, Bytes.length_flatMap_width length_valueBytes]
  have calls : sent.length / 8 = s.calls.length := by omega
  have left : sent.length % 8 = rest.length := by omega
  refine ⟨?_, fun runs => ?_, bounded, fun runs => pushed_bounded short (held runs), ?_⟩
  · rw [calls, List.take_left']
    rfl
  · rw [left, held runs]
  · exact emptied_after_call whole

theorem offChannel_silent {exit : VcpuExit} (off : exit.OffChannel) : exit.syscallByte = none := by
  cases exit with
  | mmioWrite physicalAddress data => exact if_neg off
  | _ => rfl

theorem offChannel_mmio {exit : VcpuExit} (off : exit.OffChannel) : exit.isMmio = true := by
  cases exit with
  | mmioWrite => rfl
  | mmioRead => rfl
  | _ => exact False.elim off

/-- With calls that return, no device access ends the loop. -/
theorem stays_running (returns : ∀ w v, (handle w v).isSome = true) (framed : s.Framed sent) (runs : s.running = true)
    {exit : VcpuExit} (mmio : exit.isMmio = true) : (s.onExit endian handle exit).running = true := by
  have effect := onExit_effect endian handle exit (framed.short runs)
  generalize s.onExit endian handle exit = t at effect ⊢
  cases effect with
  | silent _ _ _ _ still => exact still mmio runs
  | collects c _ _ => exact runs
  | ends c v _ _ refused =>
    have returned := returns s.world v
    rw [refused] at returned
    exact nomatch returned
  | returns c v world _ _ _ => exact runs

theorem run_exists (returns : ∀ w v, (handle w v).isSome = true) (framed : s.Framed sent) (runs : s.running = true)
    {exits : List VcpuExit} (mmio : ∀ exit ∈ exits, exit.isMmio = true) : ∃ t, Run (Vmm.Step endian handle) s exits t := by
  induction exits generalizing s sent with
  | nil => exact ⟨s, .nil s⟩
  | cons exit rest ih =>
    have here := mmio exit (List.mem_cons_self ..)
    obtain ⟨t, run⟩ := ih (framed_step framed runs) (stays_running returns framed runs here)
      fun later inside => mmio later (List.mem_cons_of_mem _ inside)
    exact ⟨t, .cons ⟨runs, rfl⟩ run⟩

/-- Whatever is mixed in between the guest's writes to the channel, the loop calls
`handle_hypercall` once for each value, in order, when its last byte arrives. -/
theorem values_handled_once (endian : LittleEndian) (handle : W → Word → Option W) (world : W) {d : UartDevice} {values : List Word}
    {writes others exits : List VcpuExit} (sent : SyscallWrites d values writes)
    (mixed : Interleaved writes others exits) (elsewhere : ∀ exit ∈ others, exit.OffChannel) :
    (∀ s, Run (Vmm.Step endian handle) (.start world) exits s →
      s.calls = values ∧ (s.running = true → s.uartSys.recvBuffer = [])) ∧
    (∀ before later s, exits = before ++ later → Run (Vmm.Step endian handle) (.start world) before s →
      s.Delivered endian handle values (before.filterMap VcpuExit.syscallByte).length) ∧
    ((∀ w v, (handle w v).isSome = true) → ∃ s, Run (Vmm.Step endian handle) (.start world) exits s) := by
  have stream : exits.filterMap VcpuExit.syscallByte = values.flatMap valueBytes :=
    (mixed.filterMap fun exit inside => offChannel_silent (elsewhere exit inside)).trans (syscallWrites_bytes sent)
  have along (before later : List VcpuExit) (s : Vmm W) (cut : exits = before ++ later)
      (run : Run (Vmm.Step endian handle) (.start world) before s) :
      s.Delivered endian handle values (before.filterMap VcpuExit.syscallByte).length := by
    have framed := framed_run run (framed_start world)
    rw [List.nil_append] at framed
    apply framed_delivered framed
    rw [← List.filterMap_append, ← cut]
    exact stream
  refine ⟨fun s run => ?_, along, fun returns => ?_⟩
  · have whole := along exits [] s (List.append_nil exits).symm run
    rw [stream, Bytes.length_flatMap_width length_valueBytes] at whole
    have full : values.length * 8 / 8 = values.length := Nat.mul_div_cancel _ (by decide)
    have none : values.length * 8 % 8 = 0 := Nat.mul_mod_left _ 8
    refine ⟨?_, fun runs => ?_⟩
    · rw [whole.calls, full, List.take_length]
    · exact List.eq_nil_of_length_eq_zero ((whole.held runs).trans none)
  · have mmio := mixed.all_of (syscallWrites_mmio sent) fun exit inside => offChannel_mmio (elsewhere exit inside)
    exact run_exists returns (framed_start world) rfl mmio

/- A reader that takes the first eight bytes. -/
def firstEight : LittleEndian where
  readU64 buf := if buf.length < 8 then none else some (BitVec.ofNat 64 (Bytes.decode (buf.take 8)))
  reads v behind := by
    have long : ¬ (valueBytes v ++ behind).length < 8 := by
      rw [List.length_append, length_valueBytes]
      omega
    rw [if_neg long, List.take_left' (length_valueBytes v)]
    exact congrArg some (Bytes.ofNat_decode_encode 8 (by decide) v)

/- A character on the console between the bytes of one value. -/
def mixedExits (value : Word) : List VcpuExit :=
  (valueBytes value).flatMap fun c => [.mmioRead uartSysFrAddress ⟨0xFF, []⟩, .mmioWrite uart0DrAddress ⟨0x41, []⟩,
    .mmioWrite uartSysDrAddress ⟨c, []⟩]

theorem values_handled_once_mixed : ∃ s : Vmm Unit,
    Run (Vmm.Step firstEight fun _ _ => some ()) (.start ()) (mixedExits 0x42001240) s ∧ s.calls = [0x42001240] := by
  have sent : SyscallWrites .fresh [0x42001240] ((valueBytes 0x42001240).flatMap fun c =>
      [.mmioRead uartSysFrAddress ⟨0xFF, []⟩, .mmioWrite uartSysDrAddress ⟨c, []⟩]) := by
    have one (array : List Byte) : UartSyscallSendByteArray .fresh array (array.flatMap fun c =>
        [.mmioRead uartSysFrAddress ⟨0xFF, []⟩, .mmioWrite uartSysDrAddress ⟨c, []⟩]) := by
      induction array with
      | nil => exact .nil
      | cons c array ih => exact .cons (.ready (flags_ready _)) ih
    have whole := SyscallWrites.cons (one (valueBytes 0x42001240)) .nil
    rw [List.append_nil] at whole
    exact whole
  have mixed (array : List Byte) : Interleaved (array.flatMap fun c =>
        [.mmioRead uartSysFrAddress ⟨0xFF, []⟩, .mmioWrite uartSysDrAddress ⟨c, []⟩])
      (array.flatMap fun _ => [VcpuExit.mmioWrite uart0DrAddress ⟨0x41, []⟩])
      (array.flatMap fun c => [.mmioRead uartSysFrAddress ⟨0xFF, []⟩, .mmioWrite uart0DrAddress ⟨0x41, []⟩,
        .mmioWrite uartSysDrAddress ⟨c, []⟩]) := by
    induction array with
    | nil => exact .nil
    | cons c array ih => exact .left (.right (.left ih))
  have elsewhere : ∀ exit ∈ (valueBytes 0x42001240).flatMap fun _ => [VcpuExit.mmioWrite uart0DrAddress ⟨0x41, []⟩],
      exit.OffChannel := by
    intro exit inside
    obtain ⟨_, _, here⟩ := List.mem_flatMap.mp inside
    obtain rfl := List.mem_singleton.mp here
    change uart0DrAddress ≠ uartSysDrAddress
    decide
  obtain ⟨calls, _, exist⟩ := values_handled_once firstEight (fun _ _ => some ()) () sent (mixed _) elsewhere
  obtain ⟨s, run⟩ := exist fun _ _ => rfl
  exact ⟨s, run, (calls s run).1⟩

end RealmVm
