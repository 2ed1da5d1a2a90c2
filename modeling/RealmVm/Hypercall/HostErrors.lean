import RealmVm.Hypercall.Transports
import RealmVm.Hypercall.Confinement
import RealmVm.Lib.Loop

/-! What the guest finds in slot 0 when the host's system call fails. -/
namespace RealmVm

open Lib

/-- The host's C library: `none` is -1, with any errno. Call `i` of a loop gets answer `i`. -/
structure Libc where
  opened : Option (Fin (2 ^ 31))
  closed : Bool
  sought : Option (Fin (2 ^ 63))
  read : Nat → HostReply
  write : Nat → HostReply

/- The loop of `hypercall_read` with its variables `total` and `remaining`. -/
def readCalls (read : Nat → HostReply) (len : Nat) : Nat → Nat → Nat → Nat → Option Word
  | 0, _, _, _ => none
  | fuel + 1, i, total, remaining =>
    if remaining = 0 then some (BitVec.ofNat 64 total)
    else
      match read i remaining with
      | none => some (if remaining < len then BitVec.ofNat 64 (len - remaining) else -1)
      | some amountRead => readCalls read len fuel (i + 1) (total + amountRead) (remaining - amountRead)

/- The loop of `hypercall_write` with its variables `buf_ptr` and `len`. -/
def writeCalls (write : Nat → HostReply) (count : Word) : Nat → Nat → Word → Nat → WriteReply
  | 0, _, _, _ => .never
  | fuel + 1, i, bufPtr, len =>
    if len = 0 then .ok count
    else
      match write i (min len isizeMax) with
      | none => .err
      | some ret =>
        if bufPtr + BitVec.ofNat 64 ret = 0 then .err -- `NonNull::new`
        else writeCalls write count fuel (i + 1) (bufPtr + BitVec.ofNat 64 ret) (len - ret)

namespace Libc

/- `from_raw_parts_mut` promises nothing for a null pointer or more than `isize::MAX` bytes. -/
def host (libc : Libc) (fuel : Nat) : Host where
  hypercallOpen _ _ _ := libc.opened.elim (-1) fun fd => BitVec.ofNat 32 fd
  hypercallRead _ buf len :=
    if buf = 0 ∨ isizeMax < len.toNat then none else readCalls libc.read len.toNat fuel 0 0 len.toNat
  hypercallWrite _ buf len := if buf = 0 then .err else writeCalls libc.write len fuel 0 buf len.toNat
  lseek _ _ _ := libc.sought.elim (-1) fun offset => BitVec.ofNat 64 offset
  hypercallClose _ := if libc.closed then 0 else -1

/-- Slot 0 of the block once `handle_hypercall` has come back. -/
def answer (libc : Libc) (hvcArgs : Nat → Word) (fuel : Nat) : Option Word :=
  match (handleHypercall (libc.host fuel) hvcArgs).outcome with
  | .resumed _ block => some (block 0)
  | .panicked | .exited | .stuck => none

end Libc

/-- What is left of `len` bytes before call `i`, when each call is asked for `ask` of the rest. -/
def left (ask : Nat → Nat) (reply : Nat → HostReply) (len : Nat) : Nat → Nat
  | 0 => len
  | i + 1 => left ask reply len i - (reply i (ask (left ask reply len i))).elim 0 Fin.val

def Libc.unread (libc : Libc) (len : Word) : Nat → Nat := left id libc.read len.toNat

def Libc.unwritten (libc : Libc) (len : Word) : Nat → Nat :=
  left (fun rest => min rest isizeMax) libc.write len.toNat

/- An error after some bytes is a short read, not a failed one. -/
def Libc.Failed (libc : Libc) : HostOp → Prop
  | .open _ _ _ => libc.opened = none
  | .read _ _ len => len ≠ 0 ∧ ∃ i, libc.unread len i = len.toNat ∧ libc.read i len.toNat = none
  | .write _ buf len =>
    buf = 0 ∨ ∃ i, libc.unwritten len i ≠ 0 ∧ libc.write i (min (libc.unwritten len i) isizeMax) = none
  | .lseek _ _ _ => libc.sought = none
  | .close _ => libc.closed = false
  | .exit _ => False

/-- The call comes back, with a negative value exactly when the operation failed. -/
def Libc.ReportsErrors (libc : Libc) (hvcArgs : Nat → Word) : Prop :=
  ∀ op, (handleHypercall (libc.host 0) hvcArgs).op = some op →
    ∃ v, Returns (libc.answer hvcArgs) v ∧ (v.toInt < 0 ↔ libc.Failed op)

/-- A read whose answers make up `len` bytes or end in an error; a write that has no error at all. -/
structure Libc.Reportable (libc : Libc) (hvcArgs : Nat → Word) : Prop where
  read : hvcArgs 0 = hvcRead → hvcArgs 2 ≠ 0 ∧ (hvcArgs 3).toNat ≤ isizeMax ∧
    ∃ k, libc.unread (hvcArgs 3) k = 0 ∨ libc.read k (libc.unread (hvcArgs 3) k) = none
  write : hvcArgs 0 = hvcWrite → hvcArgs 2 ≠ 0 ∧ (hvcArgs 3).toNat ≤ isizeMax ∧
    ∃ k, libc.unwritten (hvcArgs 3) k = 0 ∧ ∀ i < k,
      libc.write i (min (libc.unwritten (hvcArgs 3) i) isizeMax) ≠ none ∧
        hvcArgs 2 + BitVec.ofNat 64 ((hvcArgs 3).toNat - libc.unwritten (hvcArgs 3) (i + 1)) ≠ 0

section Trajectory

variable {ask : Nat → Nat} {reply : Nat → HostReply} {len : Nat}

theorem left_antitone (ask : Nat → Nat) (reply : Nat → HostReply) (len : Nat) : Antitone (left ask reply len) :=
  antitone_nat_of_succ_le fun _ => Nat.sub_le _ _

theorem left_le (ask : Nat → Nat) (reply : Nat → HostReply) (len i : Nat) : left ask reply len i ≤ len :=
  left_antitone ask reply len (Nat.zero_le i)

theorem left_done {i : Nat} {n : Fin (ask (left ask reply len i) + 1)}
    (done : reply i (ask (left ask reply len i)) = some n) :
    left ask reply len (i + 1) = left ask reply len i - n := by
  rw [left, done]
  rfl

end Trajectory

theorem nonnegative_iff (v : Word) : ¬ v.toInt < 0 ↔ v.toNat ≤ isizeMax := by
  have small := v.isLt
  rw [BitVec.toInt_eq_toNat_cond]
  unfold isizeMax
  split <;> omega

theorem ofNat_nonnegative {n : Nat} (small : n ≤ isizeMax) : ¬ (BitVec.ofNat 64 n).toInt < 0 := by
  apply (nonnegative_iff _).mpr
  exact Nat.le_trans (Nat.mod_le _ _) small

namespace Libc

variable {libc : Libc} {len buf v : Word}

section Read

/- The loop of `hypercall_read` ends when all is read or at an error. -/
def ReadStops (libc : Libc) (len : Word) (i : Nat) : Prop :=
  libc.unread len i = 0 ∨ libc.read i (libc.unread len i) = none

def readAnswer (libc : Libc) (len : Word) (i : Nat) : Word :=
  if libc.unread len i = 0 then len
  else if libc.unread len i < len.toNat then BitVec.ofNat 64 (len.toNat - libc.unread len i)
  else -1

theorem readCalls_round (libc : Libc) (len : Word) (fuel i : Nat) :
    readCalls libc.read len.toNat (fuel + 1) i (len.toNat - libc.unread len i) (libc.unread len i) =
      if libc.unread len i = 0 ∨ libc.read i (libc.unread len i) = none then some (libc.readAnswer len i)
      else readCalls libc.read len.toNat fuel (i + 1) (len.toNat - libc.unread len (i + 1))
        (libc.unread len (i + 1)) := by
  have bounded : libc.unread len i ≤ len.toNat := left_le _ _ _ i
  rw [readCalls]
  by_cases finished : libc.unread len i = 0
  · rw [if_pos finished, if_pos (Or.inl finished), readAnswer, if_pos finished, finished, Nat.sub_zero,
      BitVec.ofNat_toNat, BitVec.setWidth_eq]
  · rw [if_neg finished]
    cases answer : libc.read i (libc.unread len i) with
    | none => rw [if_pos (Or.inr rfl), readAnswer, if_neg finished]
    | some n =>
      have fewer : libc.unread len (i + 1) = libc.unread len i - n := left_done answer
      have few : n.val ≤ libc.unread len i := Nat.le_of_lt_succ n.isLt
      have running : ¬ (libc.unread len i = 0 ∨ (some n : Option (Fin (libc.unread len i + 1))) = none) := by
        rintro (zero | missing)
        · exact finished zero
        · cases missing
      have total : len.toNat - libc.unread len i + n.val = len.toNat - (libc.unread len i - n.val) := by omega
      rw [if_neg running, fewer, ← total]

theorem readCalls_returns (libc : Libc) (len v : Word) :
    Returns (fun fuel => readCalls libc.read len.toNat fuel 0 0 len.toNat) v ↔
      ∃ k, (∀ i < k, ¬ libc.ReadStops len i) ∧ libc.ReadStops len k ∧ libc.readAnswer len k = v := by
  have loop := returns_iff_first (a := v)
    (fun fuel i => readCalls libc.read len.toNat fuel i (len.toNat - libc.unread len i) (libc.unread len i))
    (libc.ReadStops len) (fun i => some (libc.readAnswer len i))
    (fun _ => rfl) (fun fuel i stops => (readCalls_round libc len fuel i).trans (if_pos stops))
    (fun fuel i running => (readCalls_round libc len fuel i).trans (if_neg running))
  simp only [Option.some.injEq] at loop
  have start : libc.unread len 0 = len.toNat := rfl
  rw [start, Nat.sub_self] at loop
  exact loop

/-- The answer of a read that ends is negative exactly when the first call fails. -/
theorem readAnswer_negative (small : len.toNat ≤ isizeMax) {k : Nat} (running : ∀ i < k, ¬ libc.ReadStops len i)
    (stops : libc.ReadStops len k) :
    (libc.readAnswer len k).toInt < 0 ↔
      len ≠ 0 ∧ ∃ i, libc.unread len i = len.toNat ∧ libc.read i len.toNat = none := by
  have antitone : Antitone (libc.unread len) := left_antitone _ _ _
  -- an error with nothing read happens at the last call
  have early : ∀ i, libc.unread len i = len.toNat → libc.read i len.toNat = none → k ≤ i := by
    intro i whole error
    apply Nat.le_of_not_lt
    intro before
    exact running i before (Or.inr (whole ▸ error))
  by_cases finished : libc.unread len k = 0
  · rw [readAnswer, if_pos finished]
    constructor
    · intro negative
      exact absurd negative ((nonnegative_iff len).mpr small)
    · rintro ⟨some, i, whole, error⟩
      have none := Nat.le_trans (antitone (early i whole error)) (Nat.le_of_eq finished)
      rw [whole] at none
      exact absurd (BitVec.eq_of_toNat_eq (Nat.le_zero.mp none)) some
  · have error : libc.read k (libc.unread len k) = none := stops.resolve_left finished
    rw [readAnswer, if_neg finished]
    by_cases short : libc.unread len k < len.toNat
    · rw [if_pos short]
      constructor
      · intro negative
        exact absurd negative (ofNat_nonnegative (by omega))
      · rintro ⟨_, i, whole, error⟩
        have none := antitone (early i whole error)
        omega
    · have whole : libc.unread len k = len.toNat := Nat.le_antisymm (left_le _ _ _ k) (Nat.le_of_not_lt short)
      rw [if_neg short]
      constructor
      · intro _
        refine ⟨?_, k, whole, whole ▸ error⟩
        rintro rfl
        exact finished whole
      · intro _
        decide

end Read

section Write

def WriteStops (libc : Libc) (buf len : Word) (i : Nat) : Prop :=
  libc.unwritten len i = 0 ∨ libc.write i (min (libc.unwritten len i) isizeMax) = none ∨
    buf + BitVec.ofNat 64 (len.toNat - libc.unwritten len (i + 1)) = 0

instance (libc : Libc) (buf len : Word) (i : Nat) : Decidable (libc.WriteStops buf len i) :=
  inferInstanceAs (Decidable (_ ∨ _ ∨ _))

def written : WriteReply → Option Word
  | .ok count => some count
  | .err | .never => none

def bufPtr (libc : Libc) (buf len : Word) (i : Nat) : Word := buf + BitVec.ofNat 64 (len.toNat - libc.unwritten len i)

theorem writeCalls_round (libc : Libc) (buf len : Word) (fuel i : Nat) :
    written (writeCalls libc.write len (fuel + 1) i (libc.bufPtr buf len i) (libc.unwritten len i)) =
      if libc.WriteStops buf len i then (if libc.unwritten len i = 0 then some len else none)
      else written (writeCalls libc.write len fuel (i + 1) (libc.bufPtr buf len (i + 1))
        (libc.unwritten len (i + 1))) := by
  have bounded : libc.unwritten len i ≤ len.toNat := left_le _ _ _ i
  rw [writeCalls]
  by_cases finished : libc.unwritten len i = 0
  · have stops : libc.WriteStops buf len i := Or.inl finished
    rw [if_pos finished, if_pos stops, if_pos finished]
    rfl
  · rw [if_neg finished, if_neg finished]
    cases answer : libc.write i (min (libc.unwritten len i) isizeMax) with
    | none =>
      have stops : libc.WriteStops buf len i := Or.inr (Or.inl answer)
      rw [if_pos stops]
      rfl
    | some n =>
      have fewer : libc.unwritten len (i + 1) = libc.unwritten len i - n := left_done answer
      have few : n.val ≤ libc.unwritten len i := Nat.le_trans (Nat.le_of_lt_succ n.isLt) (Nat.min_le_left _ _)
      have total : len.toNat - (libc.unwritten len i - n.val) = len.toNat - libc.unwritten len i + n.val := by omega
      have advanced : libc.bufPtr buf len i + BitVec.ofNat 64 n = libc.bufPtr buf len (i + 1) := by
        rw [bufPtr, bufPtr, fewer, total, BitVec.ofNat_add, BitVec.add_assoc]
      simp only [advanced, ← fewer]
      by_cases null : libc.bufPtr buf len (i + 1) = 0
      · have stops : libc.WriteStops buf len i := Or.inr (Or.inr null)
        rw [if_pos null, if_pos stops]
        rfl
      · have running : ¬ libc.WriteStops buf len i := by
          rintro (zero | error | wrapped)
          · exact finished zero
          · exact absurd (answer.symm.trans error) nofun
          · exact null wrapped
        rw [if_neg null, if_neg running]

theorem writeCalls_returns (libc : Libc) (buf len v : Word) :
    Returns (fun fuel => written (writeCalls libc.write len fuel 0 buf len.toNat)) v ↔
      len = v ∧ ∃ k, libc.unwritten len k = 0 ∧ ∀ i < k, ¬ libc.WriteStops buf len i := by
  have loop := returns_iff_first (a := v)
    (fun fuel i => written (writeCalls libc.write len fuel i (libc.bufPtr buf len i) (libc.unwritten len i)))
    (libc.WriteStops buf len) (fun i => if libc.unwritten len i = 0 then some len else none)
    (fun _ => rfl) (fun fuel i stops => (writeCalls_round libc buf len fuel i).trans (if_pos stops))
    (fun fuel i running => (writeCalls_round libc buf len fuel i).trans (if_neg running))
  have start : libc.unwritten len 0 = len.toNat := rfl
  have base : libc.bufPtr buf len 0 = buf := by
    rw [bufPtr, start, Nat.sub_self]
    exact BitVec.add_zero buf
  rw [start, base] at loop
  apply loop.trans
  constructor
  · rintro ⟨k, running, _, value⟩
    by_cases finished : libc.unwritten len k = 0
    · rw [if_pos finished] at value
      exact ⟨Option.some.inj value, k, finished, running⟩
    · rw [if_neg finished] at value
      cases value
  · rintro ⟨rfl, k, finished, running⟩
    exact ⟨k, running, Or.inl finished, if_pos finished⟩

/-- The first time that nothing is left, no earlier call had nothing to write. -/
theorem written_first {k : Nat} (finished : libc.unwritten len k = 0)
    (fine : ∀ i < k, libc.write i (min (libc.unwritten len i) isizeMax) ≠ none ∧
      buf + BitVec.ofNat 64 (len.toNat - libc.unwritten len (i + 1)) ≠ 0) :
    ∃ k, libc.unwritten len k = 0 ∧ ∀ i < k, ¬ libc.WriteStops buf len i := by
  classical
  have some : ∃ k, libc.unwritten len k = 0 := ⟨k, finished⟩
  refine ⟨Nat.find some, Nat.find_spec some, fun i before stops => ?_⟩
  have within : i < k := Nat.lt_of_lt_of_le before (Nat.find_min' some finished)
  cases stops with
  | inl zero => exact Nat.find_min some before zero
  | inr broken => exact broken.elim (fine i within).1 (fine i within).2

theorem written_no_error {k : Nat} (finished : libc.unwritten len k = 0)
    (running : ∀ i < k, ¬ libc.WriteStops buf len i) :
    ¬ ∃ i, libc.unwritten len i ≠ 0 ∧ libc.write i (min (libc.unwritten len i) isizeMax) = none := by
  rintro ⟨i, some, error⟩
  have before : i < k := by
    apply Nat.lt_of_not_le
    intro after
    have none := left_antitone _ _ _ after |>.trans (Nat.le_of_eq finished)
    exact some (Nat.le_zero.mp none)
  exact running i before (Or.inr (Or.inl error))

end Write

end Libc

section Codes

variable {libc : Libc} {hvcArgs : Nat → Word}

theorem reports_iff {op : HostOp} (asked : (handleHypercall (libc.host 0) hvcArgs).op = some op) :
    libc.ReportsErrors hvcArgs ↔ ∃ v, Returns (libc.answer hvcArgs) v ∧ (v.toInt < 0 ↔ libc.Failed op) := by
  constructor
  · intro reports
    exact reports op asked
  · intro reports op' asked'
    obtain rfl : op = op' := Option.some.inj (asked.symm.trans asked')
    exact reports

/-- A single call of the host, with no loop around it. -/
theorem single_reports {op : HostOp} (v : Word) (asked : (handleHypercall (libc.host 0) hvcArgs).op = some op)
    (answer : ∀ fuel, libc.answer hvcArgs fuel = some v) (sign : v.toInt < 0 ↔ libc.Failed op) :
    libc.ReportsErrors hvcArgs :=
  (reports_iff asked).mpr ⟨v, ⟨0, fun fuel _ => answer fuel⟩, sign⟩

theorem signExtend_negative (n : CInt) : (n.signExtend 64).toInt < 0 ↔ n.toInt < 0 := by
  rw [BitVec.toInt_signExtend_of_le (by decide)]

theorem descriptor_negative (reply : Option (Fin (2 ^ 31))) :
    ((reply.elim (-1) fun fd => BitVec.ofNat 32 fd : CInt).signExtend 64).toInt < 0 ↔ reply = none := by
  rw [signExtend_negative]
  cases reply with
  | none => decide
  | some fd =>
    have small := fd.isLt
    simp only [Option.elim, BitVec.toInt_eq_toNat_cond, BitVec.toNat_ofNat, reduceCtorEq, iff_false]
    split <;> omega

theorem offset_negative (reply : Option (Fin (2 ^ 63))) :
    (reply.elim (-1) fun offset => BitVec.ofNat 64 offset : Word).toInt < 0 ↔ reply = none := by
  cases reply with
  | none => decide
  | some offset =>
    have small := offset.isLt
    have nonnegative : ¬ (BitVec.ofNat 64 offset).toInt < 0 := ofNat_nonnegative (by unfold isizeMax; omega)
    exact ⟨fun negative => absurd negative nonnegative, nofun⟩

theorem status_negative (closed : Bool) :
    ((if closed then 0 else -1 : CInt).signExtend 64).toInt < 0 ↔ closed = false := by
  cases closed
  all_goals decide

theorem open_reports (code : hvcArgs 0 = hvcOpen) : libc.ReportsErrors hvcArgs := by
  apply single_reports ((libc.opened.elim (-1) fun fd => BitVec.ofNat 32 fd : CInt).signExtend 64)
  · rw [handleHypercall, if_pos code]
  · intro fuel
    rw [Libc.answer, handleHypercall, if_pos code]
    rfl
  · exact descriptor_negative libc.opened

theorem lseek_reports (code : hvcArgs 0 = hvcLseek) : libc.ReportsErrors hvcArgs := by
  apply single_reports (libc.sought.elim (-1) fun offset => BitVec.ofNat 64 offset)
  · simp [handleHypercall, code, hvcOpen, hvcRead, hvcWrite, hvcLseek]
    rfl
  · intro fuel
    simp [Libc.answer, handleHypercall, code, hvcOpen, hvcRead, hvcWrite, hvcLseek, setSlot, Libc.host]
  · exact offset_negative libc.sought

theorem close_reports (code : hvcArgs 0 = hvcClose) : libc.ReportsErrors hvcArgs := by
  apply single_reports ((if libc.closed then 0 else -1 : CInt).signExtend 64)
  · simp [handleHypercall, code, hvcOpen, hvcRead, hvcWrite, hvcLseek, hvcClose]
    rfl
  · intro fuel
    simp [Libc.answer, handleHypercall, code, hvcOpen, hvcRead, hvcWrite, hvcLseek, hvcClose, setSlot, Libc.host]
  · exact status_negative libc.closed

theorem not_returns_none {A : Type} (a : A) : ¬ Returns (fun _ => none) a := by
  rintro ⟨n, result⟩
  cases result (n + 1) (Nat.lt_succ_self n)

theorem read_reports_iff (code : hvcArgs 0 = hvcRead) : libc.ReportsErrors hvcArgs ↔
    hvcArgs 2 ≠ 0 ∧ (hvcArgs 3).toNat ≤ isizeMax ∧ ∃ k, libc.ReadStops (hvcArgs 3) k := by
  have asked : (handleHypercall (libc.host 0) hvcArgs).op =
      some (.read ((hvcArgs 1).truncate 32) (hvcArgs 2) (hvcArgs 3)) := by
    simp [handleHypercall, code, hvcOpen, hvcRead]
  have answer : libc.answer hvcArgs = fun fuel =>
      (libc.host fuel).hypercallRead ((hvcArgs 1).truncate 32) (hvcArgs 2) (hvcArgs 3) := by
    funext fuel
    simp only [Libc.answer, handleHypercall, code, hvcOpen, hvcRead, if_true]
    cases (libc.host fuel).hypercallRead ((hvcArgs 1).truncate 32) (hvcArgs 2) (hvcArgs 3)
    all_goals rfl
  rw [reports_iff asked, answer]
  by_cases undefined : hvcArgs 2 = 0 ∨ isizeMax < (hvcArgs 3).toNat
  · constructor
    · rintro ⟨v, returned, _⟩
      simp only [Libc.host, if_pos undefined] at returned
      exact absurd returned (not_returns_none v)
    · rintro ⟨some, small, _⟩
      exact absurd undefined (not_or.mpr ⟨some, Nat.not_lt.mpr small⟩)
  · obtain ⟨proper, small⟩ := not_or.mp undefined
    have small := Nat.not_lt.mp small
    simp only [Libc.host, if_neg undefined, libc.readCalls_returns]
    constructor
    · rintro ⟨v, ⟨k, _, stops, _⟩, _⟩
      exact ⟨proper, small, k, stops⟩
    · rintro ⟨_, _, stops⟩
      classical
      refine ⟨_, ⟨Nat.find stops, fun i => Nat.find_min stops, Nat.find_spec stops, rfl⟩, ?_⟩
      exact Libc.readAnswer_negative small (fun i => Nat.find_min stops) (Nat.find_spec stops)

theorem write_reports_iff (code : hvcArgs 0 = hvcWrite) : libc.ReportsErrors hvcArgs ↔
    hvcArgs 2 ≠ 0 ∧ (hvcArgs 3).toNat ≤ isizeMax ∧ ∃ k, libc.unwritten (hvcArgs 3) k = 0 ∧ ∀ i < k,
      libc.write i (min (libc.unwritten (hvcArgs 3) i) isizeMax) ≠ none ∧
        hvcArgs 2 + BitVec.ofNat 64 ((hvcArgs 3).toNat - libc.unwritten (hvcArgs 3) (i + 1)) ≠ 0 := by
  have asked : (handleHypercall (libc.host 0) hvcArgs).op =
      some (.write ((hvcArgs 1).truncate 32) (hvcArgs 2) (hvcArgs 3)) := by
    simp [handleHypercall, code, hvcOpen, hvcRead, hvcWrite]
  have answer : libc.answer hvcArgs = fun fuel =>
      Libc.written ((libc.host fuel).hypercallWrite ((hvcArgs 1).truncate 32) (hvcArgs 2) (hvcArgs 3)) := by
    funext fuel
    simp only [Libc.answer, handleHypercall, code, hvcOpen, hvcRead, hvcWrite, if_true]
    cases (libc.host fuel).hypercallWrite ((hvcArgs 1).truncate 32) (hvcArgs 2) (hvcArgs 3)
    all_goals rfl
  rw [reports_iff asked, answer]
  by_cases null : hvcArgs 2 = 0
  · constructor
    · rintro ⟨v, returned, _⟩
      simp only [Libc.host, if_pos null] at returned
      exact absurd returned (not_returns_none v)
    · rintro ⟨proper, _⟩
      exact absurd null proper
  · simp only [Libc.host, if_neg null, libc.writeCalls_returns]
    have clear {k : Nat} (finished : libc.unwritten (hvcArgs 3) k = 0)
        (running : ∀ i < k, ¬ libc.WriteStops (hvcArgs 2) (hvcArgs 3) i) :
        ¬ libc.Failed (.write ((hvcArgs 1).truncate 32) (hvcArgs 2) (hvcArgs 3)) :=
      not_or.mpr ⟨null, Libc.written_no_error finished running⟩
    constructor
    · rintro ⟨v, ⟨rfl, k, finished, running⟩, sign⟩
      refine ⟨null, (nonnegative_iff _).mp (mt sign.mp (clear finished running)), k, finished, fun i before => ?_⟩
      obtain ⟨_, fine⟩ := not_or.mp (running i before)
      exact not_or.mp fine
    · rintro ⟨_, small, k, finished, fine⟩
      obtain ⟨k, finished, running⟩ := Libc.written_first finished fine
      exact ⟨_, ⟨rfl, k, finished, running⟩, iff_of_false ((nonnegative_iff _).mpr small) (clear finished running)⟩

/-- Errors come back for `open`, `lseek` and `close`, and for the reads and writes of `Reportable`. -/
theorem reports_errors_iff (known : KnownCode (hvcArgs 0)) (stays : hvcArgs 0 ≠ hvcExit) :
    libc.ReportsErrors hvcArgs ↔ libc.Reportable hvcArgs := by
  rcases known_cases known with code | code | code | code | code | code
  · have other : hvcOpen ≠ hvcRead ∧ hvcOpen ≠ hvcWrite := by decide
    exact iff_of_true (open_reports code)
      ⟨fun read => absurd (code.symm.trans read) other.1, fun write => absurd (code.symm.trans write) other.2⟩
  · have other : hvcRead ≠ hvcWrite := by decide
    apply (read_reports_iff code).trans
    constructor
    · intro readable
      exact ⟨fun _ => readable, fun write => absurd (code.symm.trans write) other⟩
    · intro both
      exact both.read code
  · have other : hvcWrite ≠ hvcRead := by decide
    apply (write_reports_iff code).trans
    constructor
    · intro writable
      exact ⟨fun read => absurd (code.symm.trans read) other, fun _ => writable⟩
    · intro both
      exact both.write code
  · have other : hvcLseek ≠ hvcRead ∧ hvcLseek ≠ hvcWrite := by decide
    exact iff_of_true (lseek_reports code)
      ⟨fun read => absurd (code.symm.trans read) other.1, fun write => absurd (code.symm.trans write) other.2⟩
  · have other : hvcClose ≠ hvcRead ∧ hvcClose ≠ hvcWrite := by decide
    exact iff_of_true (close_reports code)
      ⟨fun read => absurd (code.symm.trans read) other.1, fun write => absurd (code.symm.trans write) other.2⟩
  · exact absurd code stays

end Codes

/- Every operation of this host fails. -/
def Libc.failing : Libc := ⟨none, false, none, fun _ _ => none, fun _ _ => none⟩

/- The block of a call with three arguments. -/
def callBlock (code arg0 arg1 arg2 : Word) : Nat → Word
  | 0 => code
  | 1 => arg0
  | 2 => arg1
  | 3 => arg2
  | _ => 0

theorem failed_read_reports : Libc.failing.ReportsErrors (callBlock hvcRead 3 0x1000 64) :=
  (reports_errors_iff ⟨by decide, by decide⟩ (by decide)).mpr
    ⟨fun _ => ⟨by decide, by decide, 0, Or.inr rfl⟩, fun write => absurd write (by decide)⟩

/-- A write to a bad descriptor: the error is unwrapped. -/
theorem failed_write_panics : ¬ ∀ (libc : Libc) (hvcArgs : Nat → Word), KnownCode (hvcArgs 0) →
    hvcArgs 0 ≠ hvcExit → libc.ReportsErrors hvcArgs := by
  intro every
  have reports := every Libc.failing (callBlock hvcWrite 77 0x1000 64) ⟨by decide, by decide⟩ (by decide)
  obtain ⟨_, _, k, finished, fine⟩ := (write_reports_iff rfl).mp reports
  cases k with
  | zero => exact absurd finished (by decide)
  | succ k => exact (fine 0 (Nat.succ_pos k)).1 rfl

end RealmVm
