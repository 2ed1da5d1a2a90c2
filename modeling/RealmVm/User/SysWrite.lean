import RealmVm.Fd.FileCalls
import RealmVm.Lib.Bytes

/-! `sys_write`: which bytes the host is given through the bounce buffer. -/
namespace RealmVm

open Lib

section Copying

variable {m now : Word → Byte} {dst src : Word} {k n : Nat}

/-- The memory `now` after `k` turns of the copy loop, started in `m`. A turn may read what an
earlier one wrote. -/
structure Copying (m now : Word → Byte) (dst src : Word) (k : Nat) : Prop where
  again : ∀ i < k, ∀ j < i, src + BitVec.ofNat 64 i = dst + BitVec.ofNat 64 j →
    now (dst + BitVec.ofNat 64 i) = now (dst + BitVec.ofNat 64 j)
  first : ∀ i < k, (∀ j < i, src + BitVec.ofNat 64 i ≠ dst + BitVec.ofNat 64 j) →
    now (dst + BitVec.ofNat 64 i) = m (src + BitVec.ofNat 64 i)
  outside : ∀ x, (∀ i < k, x ≠ dst + BitVec.ofNat 64 i) → now x = m x

theorem offset_ne (a : Word) {i j : Nat} (first : i < 2 ^ 64) (second : j < 2 ^ 64) (other : i ≠ j) :
    a + BitVec.ofNat 64 i ≠ a + BitVec.ofNat 64 j := by
  intro same
  have offset := congrArg (fun x => (x - a).toNat) same
  rw [Bytes.offset_toNat a first, Bytes.offset_toNat a second] at offset
  exact other offset

theorem Copying.turn (copying : Copying m now dst src k) (small : k < 2 ^ 64) :
    Copying m (Function.update now (dst + BitVec.ofNat 64 k) (now (src + BitVec.ofNat 64 k))) dst src (k + 1) := by
  have kept : ∀ i < k, Function.update now (dst + BitVec.ofNat 64 k) (now (src + BitVec.ofNat 64 k))
      (dst + BitVec.ofNat 64 i) = now (dst + BitVec.ofNat 64 i) := fun i before =>
    Function.update_of_ne (offset_ne dst (by omega) small (by omega)) _ _
  constructor
  · intro i inside j earlier same
    rw [kept j (by omega)]
    cases Nat.lt_or_eq_of_le (Nat.le_of_lt_succ inside) with
    | inl before =>
      rw [kept i before]
      exact copying.again i before j earlier same
    | inr last =>
      subst last
      rw [Function.update_self, same]
  · intro i inside fresh
    cases Nat.lt_or_eq_of_le (Nat.le_of_lt_succ inside) with
    | inl before =>
      rw [kept i before]
      exact copying.first i before fresh
    | inr last =>
      subst last
      rw [Function.update_self]
      exact copying.outside _ fresh
  · intro x apart
    rw [Function.update_of_ne (apart k (Nat.lt_succ_self k))]
    exact copying.outside x fun i before => apart i (Nat.lt_succ_of_lt before)

theorem Copying.loop (left : Nat) (copying : Copying m now dst src k) (small : k + left ≤ 2 ^ 64) :
    Copying m (copyLoop now dst src left k).1 dst src (k + left) := by
  induction left generalizing now k with
  | zero => exact copying
  | succ left ih =>
    have after := ih (copying.turn (by omega)) (by omega)
    rw [Nat.add_right_comm, Nat.add_assoc] at after
    exact after

theorem copyBytes_copying (m : Word → Byte) (dst src count : Word) :
    Copying m (copyBytes m dst src count).bytes dst src count.toNat := by
  have start : Copying m m dst src 0 :=
    ⟨fun i none => absurd none (Nat.not_lt_zero i), fun i none => absurd none (Nat.not_lt_zero i), fun _ _ => rfl⟩
  have whole := start.loop count.toNat (by omega)
  rw [Nat.zero_add] at whole
  exact whole

end Copying

/- What the kernel has around the call: the answer of `get_host_fd`, the bounce buffer that
`smalloc` returned, and the memory then, with what is left in the buffer. -/
structure WriteCall where
  mmu : Mmu
  guest : Guest
  host : Host
  behind : Nat → Word
  hostFd : Int
  newBuffer : Word
  bytes : Word → Byte

/-- What passes between the kernel and the host, the bytes in the buffer when the host gets it,
and the blocks given to `sfree`. -/
structure Written where
  exchange : Exchange
  given : Option (List Byte)
  freed : List Word

/- `transferred` is a `size_t`, so the comparison with 0 is unsigned. Where the copy faults, or
the host does not answer, the rest does not run. -/
def sysWrite (c : WriteCall) (fd : CInt) (buf count : Word) : Written :=
  if c.hostFd < 0 then ⟨rejected (-enoentWord), none, []⟩
  else if c.newBuffer = 0 then ⟨rejected (-enomemWord), none, []⟩
  else if accessKernelOk c.mmu buf protR = 0 ∧ ¬ Readable c.mmu buf count then ⟨⟨none, none, none⟩, none, []⟩
  else
    let copied := copyFromUser c.mmu c.bytes c.newBuffer buf count
    if copied.ret < 0 then ⟨rejected copied.ret, none, [c.newBuffer]⟩
    else
      let sent := writeWrapper c.guest c.host c.behind fd c.newBuffer count
      ⟨sent, sent.block.map fun block => Bytes.bytesAt copied.bytes c.newBuffer (block 3).toNat,
        if sent.result.isSome then [c.newBuffer] else []⟩

/-- The part of `sys_write` behind the lookup, as far as the descriptor table is concerned. -/
theorem writeFound_written {e : FileEnv} (table : FdState) (fd : CInt) (buf count : Word) {hostFd : Int}
    (entry : 0 ≤ hostFd) (stores : e.Stores hcallWrite) :
    let written := sysWrite ⟨e.mmu, e.guest, e.host, e.behind, hostFd, e.newBuffer, e.bytes⟩ fd buf count
    ∃ aborted, writeFound e table fd buf count hostFd =
      some ⟨written.exchange.result, written.exchange.block, table, aborted⟩ := by
  by_cases full : e.newBuffer = 0
  · refine ⟨false, (if_pos full).trans ?_⟩
    simp only [sysWrite, if_neg (Int.not_lt.mpr entry), if_pos full]
    rfl
  · by_cases fault : accessKernelOk e.mmu buf protR = 0 ∧ ¬ Readable e.mmu buf count
    · refine ⟨true, (if_neg full).trans ((if_pos fault).trans ?_)⟩
      simp only [sysWrite, if_neg (Int.not_lt.mpr entry), if_neg full, if_pos fault]
      rfl
    · have never : ¬ (copyFromUser e.mmu e.bytes e.newBuffer buf count).ret < 0 := BitVec.not_lt_zero
      have sent := exchange_stored table (writeWrapper_block e fd count full) stores
      refine ⟨false, (if_neg full).trans ((if_neg fault).trans ((if_neg never).trans ?_))⟩
      rw [sent, ← writeWrapper_block e fd count full]
      simp only [sysWrite, if_neg (Int.not_lt.mpr entry), if_neg full, if_neg fault, if_neg never]

theorem writeWrapper_exchange (g : Guest) (host : Host) (behind : Nat → Word) (fd : CInt) {buf : Word} (count : Word)
    (allocated : buf ≠ 0) :
    let sent := writeWrapper g host behind fd buf count
    (∃ block, sent.block = some block ∧ block 3 = count) ∧
      sent.op = some (.write fd (hostAddress g buf) count) ∧
      (sent.result.isSome ↔ ∃ v, host.hypercallWrite fd (hostAddress g buf) count = .ok v) := by
  have proper := hostAddress_ne g buf
  unfold hostAddress at proper
  simp only [writeWrapper, if_neg allocated, if_neg proper, ioHypercall, hostAddress]
  refine ⟨⟨_, rfl, rfl⟩, ?_, ?_⟩
  · simp [handleHypercall, ioCall, hcallWrite, hvcOpen, hvcRead, hvcWrite, truncate_signExtend]
  · simp only [handleHypercall, ioCall, hcallWrite, hvcOpen, hvcRead, hvcWrite, truncate_signExtend]
    cases host.hypercallWrite fd (getPhysicalAddress g buf &&& ~~~g.sharedBit) count with
    | ok v => simp
    | err => simp
    | never => simp

theorem sysWrite_eq (c : WriteCall) (fd : CInt) (buf count : Word) (entry : 0 ≤ c.hostFd)
    (allocated : c.newBuffer ≠ 0) (fine : accessKernelOk c.mmu buf protR = 0 → Readable c.mmu buf count) :
    let sent := writeWrapper c.guest c.host c.behind fd c.newBuffer count
    sysWrite c fd buf count = ⟨sent, some (Bytes.bytesAt (copyFromUser c.mmu c.bytes c.newBuffer buf count).bytes
      c.newBuffer count.toNat), if sent.result.isSome then [c.newBuffer] else []⟩ := by
  have never : ¬ (copyFromUser c.mmu c.bytes c.newBuffer buf count).ret < 0 := BitVec.not_lt_zero
  obtain ⟨⟨block, built, length⟩, _⟩ := writeWrapper_exchange c.guest c.host c.behind fd count allocated
  have noFault : ¬ (accessKernelOk c.mmu buf protR = 0 ∧ ¬ Readable c.mmu buf count) := fun fault =>
    fault.2 (fine fault.1)
  simp only [sysWrite, if_neg (Int.not_lt.mpr entry), if_neg allocated, if_neg noFault, if_neg never, built,
    Option.map_some, length]

end RealmVm
