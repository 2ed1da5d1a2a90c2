import RealmVm.Fd.Refinement

/-! `delete_fd` on every list: which entry it takes off, and when it ends. -/
namespace RealmVm

open Lib

namespace FdState

variable {s : FdState} {ptrs : List Word} {pid hostFd kFd : Int}

/-- The list without `q`, whose block is free. No entry is changed but for its link. -/
structure Unlinked (s t : FdState) (q : Word) (rest : List Word) : Prop where
  entries : t.Entries rest
  freed : t.allocated = s.allocated.erase q
  data : ∀ x, t.key x = s.key x ∧ (t.node x).hostFd = (s.node x).hostFd

/-- The call takes off the first entry that matches, or reports that there is none. -/
structure DeletesFirst (s : FdState) (ptrs : List Word) (pid hostFd kFd : Int) : Prop where
  found : ∀ pre q post, ptrs = pre ++ q :: post → s.Matches pid hostFd kFd q →
    (∀ x ∈ pre, ¬ s.Matches pid hostFd kFd x) →
    ∃ t, Returns (fun fuel => s.deleteFd fuel pid hostFd kFd) (0, t) ∧ s.Unlinked t q (pre ++ post)
  missing : (∀ p ∈ ptrs, ¬ s.Matches pid hostFd kFd p) →
    Returns (fun fuel => s.deleteFd fuel pid hostFd kFd) (-enoent, s)

/-- Where nothing matches, the search does not leave the list. -/
theorem deleteFd_never (entries : s.Entries ptrs) (some : ptrs ≠ [])
    (absent : ∀ p ∈ ptrs, ¬ s.Matches pid hostFd kFd p) (fuel : Nat) : s.deleteFd fuel pid hostFd kFd = none := by
  have start : s.head ∈ ptrs := by
    cases ptrs with
    | nil => exact absurd rfl some
    | cons p rest => exact entries.head_eq ▸ List.mem_cons_self
  have endless := follow_never (fun p => if s.next p = 0 then p else s.next p)
    (fun p => p == 0 || ((s.node p).pid == pid && (s.node p).hostFd == hostFd && (s.node p).kFd == kFd))
    start (fun x member => ?_) (fun x member => ?_) fuel
  · unfold deleteFd
    simp only [endless]
  · obtain ⟨pre, post, rfl⟩ := List.append_of_mem member
    by_cases last : s.next x = 0
    · simp only [if_pos last]
      exact member
    · simp only [if_neg last]
      cases post with
      | nil => exact absurd entries.next_last last
      | cons y post =>
        have next : s.next x = y := (Chain.suffix entries).2.head_eq
        rw [next]
        simp
  · have nonzero : x ≠ 0 := fun zero => entries.proper (zero ▸ member)
    have differs := absent x member
    rw [matches_iff] at differs
    simp only [Bool.or_eq_false_iff, beq_eq_false_iff_ne, Bool.and_eq_false_iff]
    refine ⟨nonzero, ?_⟩
    tauto

/-- On every list `delete_fd` does its work exactly when the list is empty or an entry matches. -/
theorem deleteFd_exact_iff (entries : s.Entries ptrs) :
    s.DeletesFirst ptrs pid hostFd kFd ↔ ptrs = [] ∨ ∃ p ∈ ptrs, s.Matches pid hostFd kFd p := by
  constructor
  · intro deletes
    by_contra neither
    rw [not_or] at neither
    have absent : ∀ p ∈ ptrs, ¬ s.Matches pid hostFd kFd p := fun p member matching =>
      neither.2 ⟨p, member, matching⟩
    exact (deletes.missing absent).not_none ⟨0, fun fuel _ => deleteFd_never entries neither.1 absent fuel⟩
  · intro condition
    constructor
    · intro pre q post split matching first
      subst split
      obtain ⟨t, returns, chain, freed, data⟩ := deleteFd_unlinks entries matching first
      exact ⟨t, ⟨_, returns⟩, chain, freed, data⟩
    · intro absent
      cases condition with
      | inl empty =>
        have nothing : s.head = 0 := entries.empty_iff.mpr empty
        refine ⟨0, fun fuel enough => ?_⟩
        cases fuel with
        | zero => cases enough
        | succ fuel =>
          unfold deleteFd
          simp [follow, nothing]
      | inr some =>
        obtain ⟨p, member, matching⟩ := some
        exact absurd matching (absent p member)

/- Two open files of process 1, and one of process 2 between them. -/
def threeFiles : FdState where
  head := 0x100
  node p := if p = 0x100 then ⟨1, 5, 0, 0x140⟩ else if p = 0x140 then ⟨2, 5, 0, 0x180⟩ else ⟨1, 6, 1, 0⟩
  allocated := {0x100, 0x140, 0x180}

theorem deleteFd_exact_iff_three : threeFiles.DeletesFirst [0x100, 0x140, 0x180] 1 6 1 := by
  have entries : threeFiles.Entries [0x100, 0x140, 0x180] := ⟨⟨rfl, rfl, rfl, rfl⟩, by decide⟩
  exact (deleteFd_exact_iff entries).mpr (Or.inr ⟨0x180, by decide, by decide⟩)

/- One open file of process 1. -/
def single : FdState := ⟨0x100, fun _ => ⟨1, 5, 0, 0⟩, {0x100}⟩

theorem single_entries : single.Entries [0x100] := ⟨⟨rfl, rfl⟩, by decide⟩

/-- Another host descriptor for the one entry: the search never ends. -/
theorem deleteFd_stays_at_last : single.Entries [0x100] ∧ (∀ fuel, single.deleteFd fuel 1 6 0 = none) ∧
    ¬ single.DeletesFirst [0x100] 1 6 0 := by
  have absent : ∀ p ∈ [0x100], ¬ single.Matches 1 6 0 p := by
    intro p member matching
    cases matching.2
  have never := deleteFd_never single_entries (List.cons_ne_nil _ _) absent
  exact ⟨single_entries, never, fun deletes => (deletes.missing absent).not_none ⟨0, fun fuel _ => never fuel⟩⟩

end FdState

end RealmVm
