import RealmVm.Exception.Vectors
import RealmVm.Lib.Run

/-! Runs of system calls: each leaves its frame on the kernel stack. -/
namespace RealmVm

open Lib.A64

/-- What a user program relies on across a system call. -/
structure Transparent (entry : Cpu) (result : Word) (back : Cpu) : Prop where
  result : back.x 0 = result
  registers : ∀ r, 1 ≤ r → r < 31 → back.x r = entry.x r
  returnAddress : back.sys .elrEl1 = entry.sys .elrEl1
  userStack : back.sys .spEl0 = entry.sys .spEl0
  kernelStack : back.sp = entry.sp

/-- The next trap finds `SP_EL1` where the return to EL0 left it; the registers and the
memory are whatever they have become in between. -/
def Trap (last : Cpu) (trap : Cpu × Word) (back : Cpu) : Prop :=
  trap.1.sp = last.sp ∧ Serviced trap.1 trap.2 back

/- The handler that only stores the result. -/
def storeResult (c : Cpu) (result : Word) : Cpu :=
  { c with mem := Function.update c.mem (c.x 0 + BitVec.ofNat 64 (8 * contextX0)) result }

theorem storeResult_handler (c : Cpu) (result : Word) : SyncHandler c result (storeResult c result) where
  sp := rfl
  returns := rfl
  result := Function.update_self ..
  kept k inside other := by
    have apart : c.x 0 + BitVec.ofNat 64 (8 * k) ≠ c.x 0 + BitVec.ofNat 64 (8 * contextX0) := by
      simp only [contextWords, contextX0] at inside other ⊢
      bv_omega
    exact Function.update_of_ne apart ..

/-- Every trap can be serviced, with every result. -/
theorem serviced_storeResult (entry : Cpu) (result : Word) :
    Serviced entry result (run (storeResult (run entry lowerElAarch64Sync) result) switchToUser) :=
  ⟨_, storeResult_handler _ result, rfl⟩

theorem Serviced.not_transparent {entry back : Cpu} {result : Word} (serviced : Serviced entry result back) :
    ¬ Transparent entry result back := by
  intro transparent
  obtain ⟨_, _, _, _, sunk⟩ := serviced_spec serviced
  have same := transparent.kernelStack
  bv_omega

/-- The kernel stack after `n` system calls is `n` frames deeper. -/
theorem run_depth {s t : Cpu} {traps : List (Cpu × Word)} (calls : Lib.Run Trap s traps t) :
    t.sp = s.sp - BitVec.ofNat 64 (288 * traps.length) := by
  induction calls with
  | nil => simp
  | cons first _ ih =>
    obtain ⟨found, serviced⟩ := first
    obtain ⟨_, _, _, _, sunk⟩ := serviced_spec serviced
    rw [ih, sunk, found, List.length_cons]
    bv_omega

/-- No return to EL0 is transparent: the frame is never taken off the kernel stack, which
sinks by 288 bytes with every system call. -/
theorem syscall_never_transparent {s t : Cpu} {traps : List (Cpu × Word)} (calls : Lib.Run Trap s traps t) :
    t.sp = s.sp - BitVec.ofNat 64 (288 * traps.length) ∧
      ∀ entry result back, Trap t (entry, result) back →
        back.sp = entry.sp - 288 ∧ ¬ Transparent entry result back := by
  refine ⟨run_depth calls, fun entry result back trap => ?_⟩
  obtain ⟨_, serviced⟩ := trap
  obtain ⟨_, _, _, _, sunk⟩ := serviced_spec serviced
  exact ⟨sunk, serviced.not_transparent⟩

/- A user program with its stack at `0x7F00`, and the kernel stack at `0x10000`. -/
def svcEntry : Cpu where
  x := BitVec.ofNat 64
  sp := 0x10000
  sys := fun r => if r = .spEl0 then 0x7F00 else 0x4004
  mem := fun _ => 0

def svcBack : Cpu := run (storeResult (run svcEntry lowerElAarch64Sync) 7) switchToUser

theorem syscall_never_transparent_one :
    svcBack.sp = svcEntry.sp - BitVec.ofNat 64 (288 * [(svcEntry, (7 : Word))].length) ∧
      ∀ entry result back, Trap svcBack (entry, result) back →
        back.sp = entry.sp - 288 ∧ ¬ Transparent entry result back :=
  syscall_never_transparent (.cons ⟨rfl, serviced_storeResult svcEntry 7⟩ (.nil svcBack))

/-- One `svc`: the kernel stack is 288 bytes deeper, and the user stack pointer is lost. -/
theorem one_syscall_sinks_stack :
    Serviced svcEntry 7 svcBack ∧ svcBack.sp = 0xFEE0 ∧ svcBack.sys .spEl0 = 0 ∧
      ¬ Transparent svcEntry 7 svcBack := by
  have serviced : Serviced svcEntry 7 svcBack := serviced_storeResult svcEntry 7
  obtain ⟨_, _, _, lost, sunk⟩ := serviced_spec serviced
  exact ⟨serviced, sunk, lost, serviced.not_transparent⟩

end RealmVm
