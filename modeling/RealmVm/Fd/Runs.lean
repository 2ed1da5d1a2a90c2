import RealmVm.Fd.Refinement

/-! Runs of the table next to the map it should be. -/
namespace RealmVm

open Lib

/- `target` is the block that `kcalloc` returns for the new entry. -/
inductive FdCall where
  | insert (pid hostFd kFd : Int) (target : Word)
  | delete (pid hostFd kFd : Int)

structure FdHistory where
  table : FdState
  map : FdMap

def noFds : FdHistory := ⟨⟨0, fun _ => ⟨0, 0, 0, 0⟩, ∅⟩, fun _ => none⟩

/-- A key is inserted when it is not there and deleted with its host descriptor; `kcalloc`
returns a block that nobody has. -/
def FdCall.Allowed (s : FdHistory) : FdCall → Prop
  | .insert pid _ kFd target =>
    s.map (pid, kFd) = none ∧ target ≠ 0 ∧ target ∉ s.table.allocated
  | .delete pid hostFd kFd => s.map (pid, kFd) = some hostFd

def FdCall.record (f : FdMap) : FdCall → FdMap
  | .insert pid hostFd kFd _ => Function.update f (pid, kFd) (some hostFd)
  | .delete pid _ kFd => Function.update f (pid, kFd) none

def FdCall.perform (s : FdState) (fuel : Nat) : FdCall → Option (Int × FdState)
  | .insert pid hostFd kFd target => s.insertFd fuel pid hostFd kFd target
  | .delete pid hostFd kFd => s.deleteFd fuel pid hostFd kFd

def fdStep (s : FdHistory) (call : FdCall) (t : FdHistory) : Prop :=
  call.Allowed s ∧ (∃ code, Returns (fun fuel => call.perform s.table fuel) (code, t.table)) ∧
    t.map = call.record s.map

/-- The insertion does not hit one of the cases that lose or misplace entries. -/
def FdCall.Safe (s : FdHistory) : FdCall → Prop
  | .insert pid _ kFd _ => ∃ ptrs, s.table.Entries ptrs ∧ s.table.Insertable pid kFd ptrs
  | .delete _ _ _ => True

def safeFdStep (s : FdHistory) (call : FdCall) (t : FdHistory) : Prop :=
  call.Safe s ∧ fdStep s call t

/-- Every lookup returns, with what the map says. -/
def Answers (s : FdHistory) : Prop :=
  ∀ pid kFd, Returns (fun fuel => s.table.getHostFd fuel pid kFd) ((s.map (pid, kFd)).getD (-enoent))

theorem answers_of_holds {s : FdHistory} {ptrs : List Word} (holds : s.table.Holds s.map ptrs) :
    Answers s :=
  fun pid kFd => ⟨ptrs.length, fun _ enough => FdState.getHostFd_spec holds pid kFd enough⟩

/-- A safe call returns 0 and does to the table what it says for the map. -/
theorem fd_call {s : FdHistory} {ptrs : List Word} (holds : s.table.Holds s.map ptrs) (call : FdCall)
    (allowed : call.Allowed s) (safe : call.Safe s) :
    ∃ t ptrs', Returns (fun fuel => call.perform s.table fuel) (0, t) ∧
      t.Holds (call.record s.map) ptrs' := by
  cases call with
  | insert pid hostFd kFd target =>
    obtain ⟨absent, proper, fresh⟩ := allowed
    obtain ⟨ptrs', entries, insertable⟩ := safe
    obtain rfl := holds.entries.unique entries
    obtain ⟨t, ptrs', returns, after⟩ := FdState.insertFd_spec holds hostFd absent
      insertable proper fresh
    exact ⟨t, ptrs', ⟨ptrs.length, returns⟩, after⟩
  | delete pid hostFd kFd =>
    obtain ⟨t, ptrs', returns, after⟩ := FdState.deleteFd_spec holds allowed
    exact ⟨t, ptrs', ⟨ptrs.length, returns⟩, after⟩

theorem fd_run {s : FdHistory} {calls : List FdCall} (run : Run safeFdStep noFds calls s) :
    ∃ ptrs, s.table.Holds s.map ptrs := by
  refine run.invariant (I := fun s => ∃ ptrs, s.table.Holds s.map ptrs) ?_ ?_
  · rintro s call t ⟨ptrs, holds⟩ ⟨safe, allowed, ⟨code, returned⟩, recorded⟩
    obtain ⟨t', ptrs', returns, after⟩ := fd_call holds call allowed safe
    obtain ⟨_, same⟩ := Prod.mk.inj (returned.unique returns)
    refine ⟨ptrs', ?_⟩
    rw [same, recorded]
    exact after
  · exact ⟨[], ⟨rfl, List.not_mem_nil⟩, by simp, by simp, by simp, by simp [noFds]⟩

/-- While no insertion hits one of the cases that lose entries, every lookup gives what
the map says, and every further such call returns 0. -/
theorem fd_table_refines_map (s : FdHistory) (calls : List FdCall) (run : Run safeFdStep noFds calls s) :
    Answers s ∧ ∀ call : FdCall, call.Allowed s → call.Safe s →
      ∃ t, Returns (fun fuel => call.perform s.table fuel) (0, t) ∧
        safeFdStep s call ⟨t, call.record s.map⟩ := by
  obtain ⟨ptrs, holds⟩ := fd_run run
  refine ⟨answers_of_holds holds, fun call allowed safe => ?_⟩
  obtain ⟨t, _, returns, _⟩ := fd_call holds call allowed safe
  exact ⟨t, returns, safe, allowed, ⟨0, returns⟩, rfl⟩

/- The table after `insert_fd(1, 0, 0)`. -/
def oneFd : FdHistory where
  table := ⟨0x100, Function.update (fun _ => ⟨0, 0, 0, 0⟩) 0x100 ⟨1, 0, 0, 0⟩, {0x100}⟩
  map := Function.update (fun _ => none) (1, 0) (some 0)

theorem oneFd_step : fdStep noFds (.insert 1 0 0 0x100) oneFd :=
  ⟨⟨rfl, by decide, by decide⟩, ⟨0, 0, fun _ _ => rfl⟩, rfl⟩

/- The tables after `insert_fd(1, 2, 2)`, `insert_fd(1, 1, 1)`, `insert_fd(2, 0, 0)` and
`delete_fd(1, 1, 1)` on top of it. -/
def twoFdsApart : FdHistory where
  table := oneFd.table.linkAfter 0x100 0x140 0 ⟨1, 2, 2, 0⟩
  map := Function.update oneFd.map (1, 2) (some 2)

def betweenFds : FdHistory where
  table := twoFdsApart.table.linkAfter 0x100 0x180 0x140 ⟨1, 1, 1, 0⟩
  map := Function.update twoFdsApart.map (1, 1) (some 1)

def twoPidFds : FdHistory where
  table := betweenFds.table.linkAfter 0x140 0x1C0 0 ⟨2, 0, 0, 0⟩
  map := Function.update betweenFds.map (2, 0) (some 0)

def oneDeleted : FdHistory where
  table := { twoPidFds.table with
    node := Function.update twoPidFds.table.node 0x100 ⟨1, 0, 0, 0x140⟩
    allocated := twoPidFds.table.allocated.erase 0x180 }
  map := Function.update twoPidFds.map (1, 1) none

def twoProcessCalls : List FdCall :=
  [.insert 1 0 0 0x100, .insert 1 2 2 0x140, .insert 1 1 1 0x180, .insert 2 0 0 0x1C0, .delete 1 1 1]

theorem betweenFds_pid : ∀ p ∈ [0x100, 0x180, 0x140], (betweenFds.table.node p).pid ≠ 2 := by
  have pids : [0x100, 0x180, 0x140].map (fun p => (betweenFds.table.node p).pid) = [1, 1, 1] := rfl
  intro p member two
  have here : (2 : Int) ∈ [0x100, 0x180, 0x140].map fun p => (betweenFds.table.node p).pid :=
    List.mem_map.mpr ⟨p, member, two⟩
  rw [pids] at here
  exact absurd here (by decide)

theorem oneDeleted_run : Run safeFdStep noFds twoProcessCalls oneDeleted := by
  have returns {s t : FdState} {call : FdCall} (within : ∀ spare, call.perform s (spare + 5) = some (0, t)) :
      ∃ code, Returns (fun fuel => call.perform s fuel) (code, t) := by
    refine ⟨0, 5, fun fuel enough => ?_⟩
    obtain ⟨spare, rfl⟩ : ∃ spare, fuel = spare + 5 := ⟨fuel - 5, by omega⟩
    exact within spare
  have first : safeFdStep noFds (.insert 1 0 0 0x100) oneFd := ⟨⟨[], ⟨rfl, List.not_mem_nil⟩, rfl⟩, oneFd_step⟩
  have second : safeFdStep oneFd (.insert 1 2 2 0x140) twoFdsApart :=
    ⟨⟨[0x100], ⟨⟨rfl, rfl⟩, by decide⟩, Or.inr ⟨rfl, Or.inr rfl⟩⟩, ⟨by decide, by decide, by decide⟩,
      returns fun _ => rfl, rfl⟩
  have third : safeFdStep twoFdsApart (.insert 1 1 1 0x180) betweenFds :=
    ⟨⟨[0x100, 0x140], ⟨⟨rfl, rfl, rfl⟩, by decide⟩, Or.inr ⟨rfl, Or.inl ⟨0x140, by decide, rfl⟩⟩⟩,
      ⟨by decide, by decide, by decide⟩, returns fun _ => rfl, rfl⟩
  have fourth : safeFdStep betweenFds (.insert 2 0 0 0x1C0) twoPidFds :=
    ⟨⟨[0x100, 0x180, 0x140], ⟨⟨rfl, rfl, rfl, rfl⟩, by decide⟩, Or.inl betweenFds_pid⟩,
      ⟨by decide, by decide, by decide⟩, returns fun _ => rfl, rfl⟩
  have fifth : safeFdStep twoPidFds (.delete 1 1 1) oneDeleted :=
    ⟨trivial, show _ = _ by decide, returns fun _ => rfl, rfl⟩
  exact .cons first (.cons second (.cons third (.cons fourth (.cons fifth (.nil _)))))

theorem fd_table_refines_map_two_processes : Answers oneDeleted :=
  (fd_table_refines_map oneDeleted twoProcessCalls oneDeleted_run).1

/- The tables after `insert_fd(1, 1, 1)` and `insert_fd(1, 2, 2)` on top of it. -/
def twoFds : FdHistory where
  table := oneFd.table.linkAfter 0x100 0x140 0 ⟨1, 1, 1, 0⟩
  map := Function.update oneFd.map (1, 1) (some 1)

def threeFds : FdHistory where
  table := twoFds.table.linkAfter 0x100 0x180 0 ⟨1, 2, 2, 0⟩
  map := Function.update twoFds.map (1, 2) (some 2)

/-- The descriptors 0, 1, 2 that `sys_execve` gives a new process: the third insertion
drops the second entry. -/
theorem standard_fds_lost :
    ∃ s, Run fdStep noFds [.insert 1 0 0 0x100, .insert 1 1 1 0x140, .insert 1 2 2 0x180] s ∧
      ¬ Answers s := by
  have second : fdStep oneFd (.insert 1 1 1 0x140) twoFds := by
    refine ⟨⟨by decide, by decide, by decide⟩, ⟨0, 4, fun fuel enough => ?_⟩, rfl⟩
    obtain ⟨spare, rfl⟩ : ∃ spare, fuel = spare + 4 := ⟨fuel - 4, by omega⟩
    rfl
  have third : fdStep twoFds (.insert 1 2 2 0x180) threeFds := by
    refine ⟨⟨by decide, by decide, by decide⟩, ⟨0, 4, fun fuel enough => ?_⟩, rfl⟩
    obtain ⟨spare, rfl⟩ : ∃ spare, fuel = spare + 4 := ⟨fuel - 4, by omega⟩
    rfl
  refine ⟨threeFds, .cons oneFd_step (.cons second (.cons third (.nil _))), fun answers => ?_⟩
  have lost : Returns (fun fuel => threeFds.table.getHostFd fuel 1 1) (-enoent) := by
    refine ⟨4, fun fuel enough => ?_⟩
    obtain ⟨spare, rfl⟩ : ∃ spare, fuel = spare + 4 := ⟨fuel - 4, by omega⟩
    rfl
  exact absurd (lost.unique (answers 1 1)) (by decide)

end RealmVm
