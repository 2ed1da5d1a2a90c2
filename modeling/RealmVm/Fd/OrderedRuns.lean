import RealmVm.Fd.Append
import RealmVm.Fd.Runs

/-! Runs of `insert_fd`, `append_fd` and `delete_fd`: the order of the list. -/
namespace RealmVm

open Lib

/- `target` is what `kcalloc` returns for the new entry, 0 when it fails. -/
inductive FdListCall where
  | insert (pid hostFd kFd : Int) (target : Word)
  | append (pid hostFd : Int) (target : Word)
  | delete (pid hostFd kFd : Int)

namespace FdListCall

def perform (s : FdState) (fuel : Nat) : FdListCall → Option (Int × FdState)
  | .insert pid hostFd kFd target => s.insertFd fuel pid hostFd kFd target
  | .append pid hostFd target => s.appendFd fuel pid hostFd target
  | .delete pid hostFd kFd => s.deleteFd fuel pid hostFd kFd

/-- A block from `kcalloc` belongs to nobody; an entry to delete can be reached from the head. -/
def Allowed (s : FdState) : FdListCall → Prop
  | .insert _ _ _ target | .append _ _ target => target = 0 ∨ target ∉ s.allocated
  | .delete pid hostFd kFd =>
    ∃ xs p, Segment s.next s.head xs p ∧ 0 ∉ xs ∧ p ≠ 0 ∧ s.Matches pid hostFd kFd p

/-- The table after the call, whatever it returns. -/
def Leaves (call : FdListCall) (s t : FdState) : Prop :=
  Returns (fun fuel => (call.perform s fuel).map Prod.snd) t

def step (s : FdState) (call : FdListCall) (t : FdState) : Prop := call.Allowed s ∧ call.Leaves s t

/-- The insertions that fit into the list. -/
def Safe (s : FdState) : FdListCall → Prop
  | .insert pid hostFd kFd target => target = 0 ∨ ∃ ptrs, s.Entries ptrs ∧ s.Placeable pid hostFd kFd ptrs
  | .append pid hostFd target => target = 0 ∨ ∃ ptrs, s.Entries ptrs ∧ s.Appendable pid hostFd ptrs
  | .delete _ _ _ => True

def safeStep (s : FdState) (call : FdListCall) (t : FdState) : Prop := call.Safe s ∧ call.step s t

end FdListCall

namespace FdState

variable {s t : FdState} {ptrs : List Word} {pid hostFd kFd : Int} {target : Word}

/-- Without memory `insert_fd` runs the same loops and changes nothing. -/
theorem insertFd_without_memory {fuel : Nat} {result : Int × FdState}
    (returned : s.insertFd fuel pid hostFd kFd 1 = some result) :
    (s.insertFd fuel pid hostFd kFd 0).map Prod.snd = some s := by
  unfold insertFd at returned ⊢
  split
  · rfl
  · rename_i nonempty
    rw [if_neg nonempty] at returned
    cases scan : s.insertScan pid hostFd kFd fuel s.head false with
    | none =>
      rw [scan] at returned
      cases returned
    | some found =>
      rw [scan] at returned
      cases found with
      | inl code => rfl
      | inr places =>
        obtain ⟨last, new, pidExists⟩ := places
        dsimp only at returned ⊢
        split at returned
        · cases returned
        · rfl

/-- What `insert_fd` does to an ordered list, and when it stays one. -/
theorem insertFd_leaves (sorted : s.Sorted ptrs) (pid hostFd kFd : Int) (allowed : target = 0 ∨ target ∉ s.allocated) :
    ∃ t, (∀ fuel, ptrs.length < fuel → (s.insertFd fuel pid hostFd kFd target).map Prod.snd = some t) ∧
      (t.WellFormed → target = 0 ∨ s.Placeable pid hostFd kFd ptrs) ∧
        (target = 0 ∨ s.Placeable pid hostFd kFd ptrs → ∃ ptrs', t.Sorted ptrs') := by
  by_cases zero : target = 0
  · subst zero
    obtain ⟨code, t, returns, _⟩ := insertFd_inserted sorted pid hostFd kFd (show (1 : Word) ≠ 0 by decide)
    have unchanged := fun fuel enough => insertFd_without_memory (returns fuel enough)
    exact ⟨s, unchanged, fun _ => Or.inl rfl, fun _ => ⟨ptrs, sorted⟩⟩
  · have fresh := allowed.resolve_left zero
    obtain ⟨code, t, returns, inserted⟩ := insertFd_inserted sorted pid hostFd kFd zero
    refine ⟨t, fun fuel enough => ?_, fun wellFormed => Or.inr ?_, fun placeable => ?_⟩
    · rw [returns fuel enough]
      rfl
    · exact placeable_of_wellFormed sorted zero fresh inserted wellFormed
    · exact sorted_of_placeable sorted zero fresh (placeable.resolve_left zero) inserted

theorem Sorted.remove {pre post : List Word} {q : Word} (sorted : s.Sorted (pre ++ q :: post))
    (entries : t.Entries (pre ++ post)) (allocated : t.allocated = s.allocated.erase q)
    (data : ∀ x, t.key x = s.key x) : t.Sorted (pre ++ post) := by
  have inside : ∀ x ∈ pre ++ post, x ∈ pre ++ q :: post := by
    intro x hx
    simp only [List.mem_append, List.mem_cons] at hx ⊢
    tauto
  refine ⟨entries, fun x hx => ?_, ?_⟩
  · rw [allocated]
    exact Finset.mem_erase.mpr ⟨sorted.entries.apart hx, sorted.allocated x (inside x hx)⟩
  · have fewer : (pre ++ post).Sublist (pre ++ q :: post) :=
      List.Sublist.append (List.Sublist.refl pre) (List.sublist_cons_self q post)
    rw [funext data]
    exact List.Pairwise.sublist (fewer.map s.key) sorted.ascending

theorem deleteFd_leaves (sorted : s.Sorted ptrs) {p : Word} (member : p ∈ ptrs)
    (matching : s.Matches pid hostFd kFd p) :
    ∃ t ptrs', (∀ fuel, ptrs.length < fuel → (s.deleteFd fuel pid hostFd kFd).map Prod.snd = some t) ∧
      t.Sorted ptrs' := by
  obtain ⟨pre, post, rfl⟩ := List.append_of_mem member
  have first : ∀ x ∈ pre, ¬ s.Matches pid hostFd kFd x := by
    intro x hx other
    have apart := sorted.entries.apart (List.mem_append_left post hx)
    exact apart (sorted.distinct (List.mem_append_left _ hx) member (other.1.trans matching.1.symm))
  obtain ⟨t, returns, entries, allocated, data⟩ := deleteFd_unlinks sorted.entries matching first
  refine ⟨t, pre ++ post, fun fuel enough => ?_, sorted.remove entries allocated fun x => (data x).1⟩
  rw [returns fuel enough]
  rfl

end FdState

/-- Every allowed call on an ordered list returns, and leaves an ordered list exactly when it is safe. -/
theorem fd_list_call {s : FdState} {ptrs : List Word} (sorted : s.Sorted ptrs) (call : FdListCall)
    (allowed : call.Allowed s) :
    ∃ t, call.Leaves s t ∧ (t.WellFormed → call.Safe s) ∧ (call.Safe s → ∃ ptrs', t.Sorted ptrs') := by
  cases call with
  | insert pid hostFd kFd target =>
    obtain ⟨t, returns, only, kept⟩ := FdState.insertFd_leaves sorted pid hostFd kFd allowed
    refine ⟨t, ⟨ptrs.length, returns⟩, fun wellFormed => ?_, fun safe => kept ?_⟩
    · exact (only wellFormed).imp id fun placeable => ⟨ptrs, sorted.entries, placeable⟩
    · refine safe.imp id fun ⟨ptrs', entries, placeable⟩ => ?_
      exact sorted.entries.unique entries ▸ placeable
  | append pid hostFd target =>
    obtain ⟨v, scans, picked⟩ := FdState.append_picks sorted pid
    have fits := FdState.appendable_iff sorted hostFd picked
    obtain ⟨t, returns, only, kept⟩ := FdState.insertFd_leaves sorted pid hostFd (if v = -1 then 0 else v) allowed
    refine ⟨t, ⟨ptrs.length, fun fuel enough => ?_⟩, fun wellFormed => ?_, fun safe => kept ?_⟩
    · simp only [FdListCall.perform, FdState.appendFd, scans fuel enough, Option.map_map]
      exact returns fuel enough
    · exact (only wellFormed).imp id fun placeable => ⟨ptrs, sorted.entries, fits.mp placeable⟩
    · refine safe.imp id fun ⟨ptrs', entries, appendable⟩ => ?_
      exact fits.mpr (sorted.entries.unique entries ▸ appendable)
  | delete pid hostFd kFd =>
    obtain ⟨xs, p, way, inner, proper, matching⟩ := allowed
    have member := sorted.entries.reaches way inner proper
    obtain ⟨t, ptrs', returns, after⟩ := FdState.deleteFd_leaves sorted member matching
    exact ⟨t, ⟨ptrs.length, returns⟩, fun _ => trivial, fun _ => ⟨ptrs', after⟩⟩

theorem fd_list_run {s : FdState} {calls : List FdListCall} (run : Run FdListCall.safeStep noFds.table calls s) :
    ∃ ptrs, s.Sorted ptrs := by
  refine run.invariant (I := fun s => ∃ ptrs, s.Sorted ptrs) ?_ ?_
  · rintro s call t ⟨ptrs, sorted⟩ ⟨safe, allowed, leaves⟩
    obtain ⟨t', leaves', _, kept⟩ := fd_list_call sorted call allowed
    exact leaves.unique leaves' ▸ kept safe
  · exact ⟨[], ⟨rfl, List.not_mem_nil⟩, by simp, List.Pairwise.nil⟩

/-- While every insertion fits, the list is in order; every further call returns, and the list
stays in order exactly when that call fits as well. -/
theorem fd_list_well_formed (s : FdState) (calls : List FdListCall)
    (run : Run FdListCall.safeStep noFds.table calls s) :
    s.WellFormed ∧ ∀ call : FdListCall, call.Allowed s → ∃ t, call.Leaves s t ∧ (t.WellFormed ↔ call.Safe s) := by
  obtain ⟨ptrs, sorted⟩ := fd_list_run run
  refine ⟨sorted.wellFormed, fun call allowed => ?_⟩
  obtain ⟨t, leaves, only, kept⟩ := fd_list_call sorted call allowed
  refine ⟨t, leaves, only, fun safe => ?_⟩
  obtain ⟨ptrs', after⟩ := kept safe
  exact after.wellFormed

theorem oneFd_leaves : FdListCall.step noFds.table (.insert 1 0 0 0x100) oneFd.table :=
  ⟨Or.inr (by decide), 0, fun fuel enough => rfl⟩

/- The calls of `oneDeleted_run`, with `append_fd(1, 1)` to fill the gap. -/
def twoProcessListCalls : List FdListCall :=
  [.insert 1 0 0 0x100, .insert 1 2 2 0x140, .append 1 1 0x180, .insert 2 0 0 0x1C0, .delete 1 1 1]

theorem oneDeleted_leaves : Run FdListCall.safeStep noFds.table twoProcessListCalls oneDeleted.table := by
  have leaves {s t : FdState} {call : FdListCall}
      (within : ∀ spare, (call.perform s (spare + 5)).map Prod.snd = some t) : call.Leaves s t := by
    refine ⟨5, fun fuel enough => ?_⟩
    obtain ⟨spare, rfl⟩ : ∃ spare, fuel = spare + 5 := ⟨fuel - 5, by omega⟩
    exact within spare
  have first : FdListCall.safeStep noFds.table (.insert 1 0 0 0x100) oneFd.table :=
    ⟨Or.inr ⟨[], ⟨rfl, List.not_mem_nil⟩, Or.inl rfl⟩, oneFd_leaves⟩
  have second : FdListCall.safeStep oneFd.table (.insert 1 2 2 0x140) twoFdsApart.table := by
    refine ⟨Or.inr ⟨[0x100], ⟨⟨rfl, rfl⟩, by decide⟩, Or.inr (Or.inr ⟨rfl, ?_⟩)⟩, Or.inr (by decide), leaves fun _ => rfl⟩
    rintro ⟨p, member, key⟩
    obtain rfl := List.mem_singleton.mp member
    exact absurd (congrArg Prod.snd key) (by decide)
  have gap : twoFdsApart.table.Appendable 1 1 [0x100, 0x140] := by
    refine ⟨fun _ _ => by decide, fun _ _ only => absurd (only 2 ⟨0x140, by decide, rfl⟩) (by decide), ?_⟩
    rintro ⟨⟨k, low, p, member, key⟩, _⟩
    have here : (twoFdsApart.table.node p).kFd = k := congrArg Prod.snd key
    obtain rfl | rfl := List.mem_pair.mp member
    · exact absurd (here.symm ▸ low) (by decide)
    · exact absurd (here.symm ▸ low) (by decide)
  have third : FdListCall.safeStep twoFdsApart.table (.append 1 1 0x180) betweenFds.table :=
    ⟨Or.inr ⟨[0x100, 0x140], ⟨⟨rfl, rfl, rfl⟩, by decide⟩, gap⟩, Or.inr (by decide), leaves fun _ => rfl⟩
  have fourth : FdListCall.safeStep betweenFds.table (.insert 2 0 0 0x1C0) twoPidFds.table := by
    refine ⟨Or.inr ⟨[0x100, 0x180, 0x140], ⟨⟨rfl, rfl, rfl, rfl⟩, by decide⟩, Or.inr (Or.inr ⟨rfl, ?_⟩)⟩,
      Or.inr (by decide), leaves fun _ => rfl⟩
    rintro ⟨p, member, key⟩
    exact absurd (congrArg Prod.fst key) (betweenFds_pid p member)
  have fifth : FdListCall.safeStep twoPidFds.table (.delete 1 1 1) oneDeleted.table :=
    ⟨trivial, ⟨[0x100], 0x180, ⟨rfl, rfl⟩, by decide, by decide, by decide⟩, leaves fun _ => rfl⟩
  exact .cons first (.cons second (.cons third (.cons fourth (.cons fifth (.nil _)))))

theorem fd_list_well_formed_two_processes : oneDeleted.table.WellFormed :=
  (fd_list_well_formed oneDeleted.table twoProcessListCalls oneDeleted_leaves).1

/-- After `insert_fd(1, 0, 0)` a call of `append_fd(1, 6)` picks the number 0 again. -/
theorem append_repeats_number : ¬ ∀ (s : FdState) (calls : List FdListCall), Run FdListCall.step noFds.table calls s →
    s.WellFormed := by
  intro always
  have second : FdListCall.step oneFd.table (.append 1 6 0x140) (oneFd.table.linkAfter 0x100 0x140 0 ⟨1, 6, 0, 0⟩) := by
    refine ⟨Or.inr (by decide), 3, fun fuel enough => ?_⟩
    obtain ⟨spare, rfl⟩ : ∃ spare, fuel = spare + 3 := ⟨fuel - 3, by omega⟩
    rfl
  obtain ⟨xs, ordered⟩ := always _ _ (.cons oneFd_leaves (.cons second (.nil _)))
  have entries : (oneFd.table.linkAfter 0x100 0x140 0 ⟨1, 6, 0, 0⟩).Entries [0x100, 0x140] :=
    ⟨⟨rfl, rfl, rfl⟩, by decide⟩
  obtain rfl := ordered.entries.unique entries
  exact absurd ordered.once (by decide)

end RealmVm
