import RealmVm.Basic
import RealmVm.Lib.Bytes
import RealmVm.Lib.Run

/-! The call channel: `uart_syscall_write` in the guest and the two UART devices of the VMM. -/
namespace RealmVm

open Lib

def uart0BaseAddress : Word := 0x9000000
def uart0DrAddress : Word := uart0BaseAddress ||| 0x00
def uart0FrAddress : Word := uart0BaseAddress ||| 0x18
def uartSysBaseAddress : Word := 0x9001000
def uartSysDrAddress : Word := uartSysBaseAddress ||| 0x00
def uartSysFrAddress : Word := uartSysBaseAddress ||| 0x18

/- The bytes of an MMIO access. There is always a first one. -/
structure MmioData where
  first : Byte
  rest : List Byte
deriving DecidableEq

inductive VcpuExit where
  | mmioRead (physicalAddress : Word) (data : MmioData)
  | mmioWrite (physicalAddress : Word) (data : MmioData)
  | hlt
  | debug
  | systemEvent
  | hypercall
  | unexpected
deriving DecidableEq

structure UartDevice where
  dataReg : BitVec 16
  recvBuffer : List Byte
deriving DecidableEq

def UartDevice.fresh : UartDevice := ⟨0, []⟩

def UartDevice.handleWriteRequest (d : UartDevice) (addr : Word) (data : MmioData) : UartDevice × Word :=
  if addr = uart0DrAddress then ({ d with dataReg := data.first.setWidth 16 }, 0)
  else if addr = uartSysDrAddress then
    let recvBuffer := d.recvBuffer ++ [data.first]
    (⟨data.first.setWidth 16, recvBuffer⟩, BitVec.ofNat 64 recvBuffer.length)
  else (d, 0)

/- What the guest reads, and whether the register is known. -/
def UartDevice.handleReadRequest (_ : UartDevice) (addr : Word) (data : MmioData) : Bool × MmioData :=
  if addr = uart0FrAddress ∨ addr = uartSysFrAddress then (true, { data with first := 0 }) else (false, data)

def UartDevice.clear (d : UartDevice) : UartDevice := { d with recvBuffer := [] }

/- `uart_flag_reg.TXFF`, bit 5 of the register. -/
def txff (flags : MmioData) : Bool := flags.first.getLsbD 5

def syscallBase : Word := 0x9001000
def uartDr : Word := 0x00
def uartFr : Word := 0x18

/- The exits that one call of `uart_syscall_send_byte` causes; `flags` is the buffer of a
poll, which the VMM fills in. -/
inductive UartSyscallSendByte (d : UartDevice) (c : Byte) : List VcpuExit → Prop where
  | full {flags : MmioData} {exits : List VcpuExit} :
      txff (d.handleReadRequest (syscallBase + uartFr) flags).2 = true → UartSyscallSendByte d c exits →
        UartSyscallSendByte d c (.mmioRead (syscallBase + uartFr) flags :: exits)
  | ready {flags : MmioData} {behind : List Byte} :
      txff (d.handleReadRequest (syscallBase + uartFr) flags).2 = false →
        UartSyscallSendByte d c
          [.mmioRead (syscallBase + uartFr) flags, .mmioWrite (syscallBase + uartDr) ⟨c, behind⟩]

inductive UartSyscallSendByteArray (d : UartDevice) : List Byte → List VcpuExit → Prop where
  | nil : UartSyscallSendByteArray d [] []
  | cons {c : Byte} {array : List Byte} {exits later : List VcpuExit} : UartSyscallSendByte d c exits →
      UartSyscallSendByteArray d array later → UartSyscallSendByteArray d (c :: array) (exits ++ later)

/- The byte view of a `uint64_t`. -/
def valueBytes (value : Word) : List Byte := Bytes.encode 8 value.toNat

/- `LittleEndian` of the byteorder crate. `read_u64` gives the number whose bytes, least significant first, the
slice begins with; it panics on a slice that is too short. -/
structure LittleEndian where
  readU64 : List Byte → Option Word
  reads : ∀ v behind, readU64 (valueBytes v ++ behind) = some v

def UartSyscallWrite (d : UartDevice) (value : Word) (exits : List VcpuExit) : Prop :=
  UartSyscallSendByteArray d (valueBytes value) exits

/-- One `uart_syscall_write` after the other. -/
inductive SyscallWrites (d : UartDevice) : List Word → List VcpuExit → Prop where
  | nil : SyscallWrites d [] []
  | cons {value : Word} {values : List Word} {exits later : List VcpuExit} : UartSyscallWrite d value exits →
      SyscallWrites d values later → SyscallWrites d (value :: values) (exits ++ later)

/-- The byte that an exit puts on the call channel. -/
def VcpuExit.syscallByte : VcpuExit → Option Byte
  | .mmioWrite physicalAddress data => if physicalAddress = uartSysDrAddress then some data.first else none
  | _ => none

def VcpuExit.isMmio : VcpuExit → Bool
  | .mmioRead _ _ | .mmioWrite _ _ => true
  | _ => false

variable {d : UartDevice}

@[simp] theorem length_valueBytes (value : Word) : (valueBytes value).length = 8 := Bytes.length_encode 8 _

/-- The VMM never reports a full transmit buffer, so the guest polls once for each byte. -/
theorem flags_ready (flags : MmioData) : txff (d.handleReadRequest (syscallBase + uartFr) flags).2 = false := by
  have known : syscallBase + uartFr = uartSysFrAddress := by decide
  have clear : (0 : Byte).getLsbD 5 = false := by decide
  unfold UartDevice.handleReadRequest
  rw [if_pos (Or.inr known)]
  exact clear

theorem sendByte_bytes {c : Byte} {exits : List VcpuExit} (sent : UartSyscallSendByte d c exits) :
    exits.filterMap VcpuExit.syscallByte = [c] := by
  cases sent with
  | full busy => exact absurd ((flags_ready _).symm.trans busy) Bool.false_ne_true
  | ready => rfl

theorem sendByteArray_bytes {array : List Byte} {exits : List VcpuExit}
    (sent : UartSyscallSendByteArray d array exits) : exits.filterMap VcpuExit.syscallByte = array := by
  induction sent with
  | nil => rfl
  | cons head _ ih =>
    rw [List.filterMap_append, sendByte_bytes head, ih]
    rfl

theorem syscallWrites_bytes {values : List Word} {exits : List VcpuExit} (sent : SyscallWrites d values exits) :
    exits.filterMap VcpuExit.syscallByte = values.flatMap valueBytes := by
  induction sent with
  | nil => rfl
  | cons head _ ih => rw [List.filterMap_append, sendByteArray_bytes head, ih, List.flatMap_cons]

theorem sendByteArray_mmio {array : List Byte} {exits : List VcpuExit}
    (sent : UartSyscallSendByteArray d array exits) : ∀ exit ∈ exits, exit.isMmio = true := by
  induction sent with
  | nil => exact fun _ inside => nomatch inside
  | cons head _ ih =>
    rename_i c array exits later tail
    have first : ∀ exit ∈ exits, exit.isMmio = true := by
      cases head with
      | full busy => exact absurd ((flags_ready _).symm.trans busy) Bool.false_ne_true
      | ready => simp [VcpuExit.isMmio]
    intro exit inside
    cases List.mem_append.mp inside with
    | inl here => exact first exit here
    | inr there => exact ih exit there

theorem syscallWrites_mmio {values : List Word} {exits : List VcpuExit} (sent : SyscallWrites d values exits) :
    ∀ exit ∈ exits, exit.isMmio = true := by
  induction sent with
  | nil => exact fun _ inside => nomatch inside
  | cons head _ ih =>
    intro exit inside
    cases List.mem_append.mp inside with
    | inl here => exact sendByteArray_mmio head exit here
    | inr there => exact ih exit there

end RealmVm
