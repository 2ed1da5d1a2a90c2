import RealmVm.Fd.FileCalls
import RealmVm.Fd.Runs
import RealmVm.Lib.Run

/-! Runs of one process over its files: which host descriptor every call reaches. -/
namespace RealmVm

open Lib

/- The table next to what the process knows: the host's descriptor of each one it has
open, and those that it closed since. -/
structure ProcessFiles where
  table : FdState
  opened : CInt → Option CInt
  closed : Set CInt

/- What the host answers to `sys_open`. -/
def FileEnv.openAnswer (e : FileEnv) (flags mode : CInt) : CInt :=
  e.host.hypercallOpen (hostAddress e.guest e.newBuffer) flags mode

/-- What the process knows after a call that returned `v`, with the new table. -/
def ProcessFiles.record (s : ProcessFiles) (e : FileEnv) (v : Word) (table : FdState) : FileCall → ProcessFiles
  | .open _ _ flags mode =>
    if v.toInt < 0 then { s with table := table }
    else
      let k := v.truncate 32
      ⟨table, Function.update s.opened k (some (e.openAnswer flags mode)), s.closed \ {k}⟩
  | .close k => ⟨table, Function.update s.opened k none, insert k s.closed⟩
  | _ => { s with table := table }

def fileStep (pid : Int) (s : ProcessFiles) (c : FileEnv × FileCall) (t : ProcessFiles) : Prop :=
  ∃ r v, Returns (fun fuel => c.2.perform c.1 s.table fuel pid) r ∧ r.ret = some v ∧ t = s.record c.1 v r.table c.2

/-- When the host opens a file under `h`, the table already maps `h` of this process to itself. -/
def Prepared (pid : Int) (s : ProcessFiles) (c : FileEnv × FileCall) : Prop :=
  match c.2 with
  | .open pathname len flags mode =>
    let h := c.1.openAnswer flags mode
    pathname ≠ 0 → (len.truncate 32 : CInt) ≠ 0 → c.1.newBuffer ≠ 0 → 0 ≤ h.toInt →
      Returns (fun fuel => s.table.getHostFd fuel pid h.toInt) h.toInt
  | _ => True

def preparedStep (pid : Int) (s : ProcessFiles) (c : FileEnv × FileCall) (t : ProcessFiles) : Prop :=
  Prepared pid s c ∧ fileStep pid s c t

/-- The entries of the process map descriptors to themselves; they are what it has open,
and what it closed has none. -/
structure Accounts (pid : Int) (s : ProcessFiles) (f : FdMap) (ptrs : List Word) : Prop where
  holds : s.table.Holds f ptrs
  own : ∀ (k : CInt) host, f (pid, k.toInt) = some host → host = k.toInt ∧ 0 ≤ k.toInt
  opened : ∀ k h, s.opened k = some h ↔ f (pid, k.toInt) = some h.toInt
  closed : ∀ k ∈ s.closed, f (pid, k.toInt) = none

/-- A process that has closed nothing yet and whose descriptors are the host's, as
`sys_execve` enters them. -/
def Started (pid : Int) (s : ProcessFiles) : Prop :=
  s.closed = ∅ ∧ ∃ f ptrs, Accounts pid s f ptrs

variable {pid : Int} {s t : ProcessFiles} {f : FdMap} {ptrs : List Word}

/- Where `sys_open` comes back, it refuses, or the answer of the host is unchanged. -/
theorem sysOpen_returned {e : FileEnv} {table : FdState} {pathname len : Word} {flags mode : CInt} {v : Word}
    (ret : (sysOpen e table pathname len flags mode).ret = some v) :
    (sysOpen e table pathname len flags mode).table = table ∧ (v.toInt < 0 ∨
      (pathname ≠ 0 ∧ (len.truncate 32 : CInt) ≠ 0 ∧ e.newBuffer ≠ 0 ∧
        v = (e.openAnswer flags mode).signExtend 64)) := by
  have refused {code : Word} (negative : (-code).toInt < 0) (same : (refuse table code).ret = some v) : v.toInt < 0 := by
    obtain rfl := Option.some.inj same
    exact negative
  unfold sysOpen at ret ⊢
  simp only at ret ⊢
  split at ret
  · rename_i null
    rw [if_pos null]
    exact ⟨rfl, Or.inl (refused (by decide) ret)⟩
  · rename_i given
    rw [if_neg given]
    split at ret
    · cases ret
    · rename_i readable
      rw [if_neg readable]
      split at ret
      · rename_i empty
        rw [if_pos empty]
        exact ⟨rfl, Or.inl (refused (by decide) ret)⟩
      · rename_i long
        rw [if_neg long]
        split at ret
        · rename_i full
          rw [if_pos full]
          exact ⟨rfl, Or.inl (refused (by decide) ret)⟩
        · rename_i room
          rw [if_neg room]
          split at ret
          · cases ret
          · rename_i copied
            rw [if_neg copied]
            refine ⟨exchange_table e table _, Or.inr ⟨given, long, room, ?_⟩⟩
            have agrees := open_agrees e.guest e.host e.behind e.newBuffer flags mode rfl
            by_cases stores : e.Stores hcallOpen
            · rw [exchange_stored table rfl stores] at ret
              exact Option.some.inj (ret.symm.trans agrees.2)
            · rw [exchange_faults table rfl stores] at ret
              cases ret

theorem Accounts.open_step (accounts : Accounts pid s f ptrs) {e : FileEnv} {pathname len : Word} {flags mode : CInt}
    (step : preparedStep pid s (e, .open pathname len flags mode) t) : ∃ f ptrs, Accounts pid t f ptrs := by
  obtain ⟨prepared, r, v, returned, answer, rfl⟩ := step
  have result : r = sysOpen e s.table pathname len flags mode :=
    returned.unique ⟨0, fun _ _ => rfl⟩
  subst result
  obtain ⟨table, negative | ⟨path, long, room, rfl⟩⟩ := sysOpen_returned answer
  · simp only [ProcessFiles.record, if_pos negative, table]
    exact ⟨f, ptrs, accounts⟩
  · have value : ((e.openAnswer flags mode).signExtend 64).toInt = (e.openAnswer flags mode).toInt :=
      BitVec.toInt_signExtend_of_le (by decide)
    simp only [ProcessFiles.record, value, table, truncate_signExtend]
    by_cases negative : (e.openAnswer flags mode).toInt < 0
    · rw [if_pos negative]
      exact ⟨f, ptrs, accounts⟩
    · rw [if_neg negative]
      have known := prepared path long room (Int.not_lt.mp negative)
      generalize e.openAnswer flags mode = h at known negative
      have lookup : Returns (fun fuel => s.table.getHostFd fuel pid h.toInt) ((f (pid, h.toInt)).getD (-enoent)) :=
        ⟨ptrs.length, fun fuel enough => FdState.getHostFd_spec accounts.holds pid h.toInt enough⟩
      have entry : f (pid, h.toInt) = some h.toInt := by
        have same := lookup.unique known
        cases stored : f (pid, h.toInt) with
        | none =>
          rw [stored, Option.getD_none] at same
          unfold enoent at same
          omega
        | some host =>
          rw [stored, Option.getD_some] at same
          exact congrArg some same
      refine ⟨f, ptrs, accounts.holds, accounts.own, fun k x => ?_, fun k member => accounts.closed k member.1⟩
      cases decEq k h with
      | isTrue same =>
        subst same
        simp only [Function.update_self, entry, Option.some.injEq]
        exact ⟨congrArg BitVec.toInt, BitVec.eq_of_toInt_eq⟩
      | isFalse other =>
        simp only [Function.update_of_ne other]
        exact accounts.opened k x

theorem Accounts.close_step (accounts : Accounts pid s f ptrs) {e : FileEnv} {k : CInt}
    (step : fileStep pid s (e, .close k) t) : ∃ f ptrs, Accounts pid t f ptrs := by
  obtain ⟨r, v, returned, answer, rfl⟩ := step
  have apart : ∀ {k' : CInt}, k' ≠ k → (pid, k'.toInt) ≠ (pid, k.toInt) := fun other same =>
    other (BitVec.eq_of_toInt_eq (Prod.mk.inj same).2)
  cases entry : f (pid, k.toInt) with
  | none =>
    have result := returned.unique (FileCall.refused _ accounts.holds entry rfl e)
    subst result
    refine ⟨f, ptrs, accounts.holds, accounts.own, fun k' h => ?_, fun k' member => ?_⟩
    · cases decEq k' k with
      | isTrue same =>
        subst same
        simp [ProcessFiles.record, entry]
      | isFalse other =>
        simp only [ProcessFiles.record, Function.update_of_ne other]
        exact accounts.opened k' h
    · cases member with
      | inl same => exact same ▸ entry
      | inr before => exact accounts.closed k' before
  | some host =>
    obtain ⟨rfl, proper⟩ := accounts.own k host entry
    by_cases stores : e.Stores hcallClose
    swap
    · -- the kernel does not come back
      have faults := @exchange_faults e s.table (closeWrapper e.host e.behind (BitVec.ofInt 32 k.toInt)) _ rfl stores
      have result := returned.unique ⟨ptrs.length, fun fuel enough =>
        withHostFd_entry accounts.holds entry proper (closeFound e s.table fuel pid k) enough |>.trans
          (by simp only [closeFound, faults]; rfl)⟩
      rw [result] at answer
      cases answer
    obtain ⟨r', ptrs', closed, -, -, after⟩ := FileCall.closed accounts.holds entry proper stores
    have result := returned.unique closed
    subst result
    refine ⟨Function.update f (pid, k.toInt) none, ptrs', after, fun k' host stored => ?_, fun k' h => ?_,
      fun k' member => ?_⟩
    · cases decEq k' k with
      | isTrue same =>
        subst same
        rw [Function.update_self] at stored
        cases stored
      | isFalse other =>
        rw [Function.update_of_ne (apart other)] at stored
        exact accounts.own k' host stored
    · cases decEq k' k with
      | isTrue same =>
        subst same
        simp [ProcessFiles.record]
      | isFalse other =>
        simp only [ProcessFiles.record, Function.update_of_ne other, Function.update_of_ne (apart other)]
        exact accounts.opened k' h
    · cases decEq k' k with
      | isTrue same =>
        subst same
        exact Function.update_self ..
      | isFalse other =>
        rw [Function.update_of_ne (apart other)]
        exact accounts.closed k' (member.resolve_left other)

/- The other calls leave the table alone. -/
theorem found_table {table : FdState} {fuel : Nat} {fd : CInt} {found : Int → Option FileResult} {r : FileResult}
    (keeps : ∀ hostFd r, found hostFd = some r → r.table = table)
    (result : withHostFd table fuel pid fd found = some r) : r.table = table := by
  unfold withHostFd at result
  cases lookup : table.getHostFd fuel pid fd.toInt with
  | none => simp [lookup] at result
  | some hostFd =>
    simp only [lookup] at result
    split at result
    · exact (congrArg FileResult.table (Option.some.inj result)).symm
    · exact keeps hostFd r result

theorem readFound_table {e : FileEnv} {table : FdState} {fd : CInt} {buf count : Word} {hostFd : Int} {r : FileResult}
    (result : readFound e table fd buf count hostFd = some r) : r.table = table := by
  unfold readFound at result
  split at result
  · exact (congrArg FileResult.table (Option.some.inj result)).symm
  · simp only at result
    split at result
    · rw [← Option.some.inj result]
      exact exchange_table e table _
    · exact (congrArg FileResult.table (Option.some.inj result)).symm

theorem writeFound_table {e : FileEnv} {table : FdState} {fd : CInt} {buf count : Word} {hostFd : Int} {r : FileResult}
    (result : writeFound e table fd buf count hostFd = some r) : r.table = table := by
  unfold writeFound at result
  split at result
  · exact (congrArg FileResult.table (Option.some.inj result)).symm
  · split at result
    · exact (congrArg FileResult.table (Option.some.inj result)).symm
    · simp only at result
      split at result
      · exact (congrArg FileResult.table (Option.some.inj result)).symm
      · rw [← Option.some.inj result]
        exact exchange_table e table _

theorem lseekFound_table {e : FileEnv} {table : FdState} {offset : Word} {whence : CInt} {hostFd : Int} {r : FileResult}
    (result : lseekFound e table offset whence hostFd = some r) : r.table = table := by
  rw [← Option.some.inj result]
  exact exchange_table e table _

theorem Accounts.step (accounts : Accounts pid s f ptrs) {c : FileEnv × FileCall}
    (step : preparedStep pid s c t) : ∃ f ptrs, Accounts pid t f ptrs := by
  obtain ⟨e, call⟩ := c
  cases call with
  | «open» pathname len flags mode => exact accounts.open_step step
  | close k => exact accounts.close_step step.2
  | read fd buf count =>
    obtain ⟨-, r, v, ⟨n, returned⟩, -, rfl⟩ := step
    have table : r.table = s.table :=
      found_table (fun _ _ result => readFound_table result) (returned (n + 1) (Nat.lt_succ_self n))
    simp only [ProcessFiles.record, table]
    exact ⟨f, ptrs, accounts⟩
  | write fd buf count =>
    obtain ⟨-, r, v, ⟨n, returned⟩, -, rfl⟩ := step
    have table : r.table = s.table :=
      found_table (fun _ _ result => writeFound_table result) (returned (n + 1) (Nat.lt_succ_self n))
    simp only [ProcessFiles.record, table]
    exact ⟨f, ptrs, accounts⟩
  | lseek fd offset whence =>
    obtain ⟨-, r, v, ⟨n, returned⟩, -, rfl⟩ := step
    have table : r.table = s.table :=
      found_table (fun _ _ result => lseekFound_table result) (returned (n + 1) (Nat.lt_succ_self n))
    simp only [ProcessFiles.record, table]
    exact ⟨f, ptrs, accounts⟩

end RealmVm
