import RealmVm.Fd.Table
import RealmVm.Lib.Run

/-! The table as a finite map from (pid, k_fd) to host descriptors. -/
namespace RealmVm

open Lib

/-- What the table is for. -/
abbrev FdMap := Int × Int → Option Int

namespace FdState

variable {s : FdState} {ptrs : List Word}

def key (s : FdState) (p : Word) : Int × Int := ((s.node p).pid, (s.node p).kFd)

def Entries (s : FdState) (ptrs : List Word) : Prop := Chain s.next 0 s.head ptrs

/-- Every entry on the list is an allocated block, no key occurs twice, and the entries
are those of `f`. -/
structure Holds (s : FdState) (f : FdMap) (ptrs : List Word) : Prop where
  entries : s.Entries ptrs
  allocated : ∀ p ∈ ptrs, p ∈ s.allocated
  distinct : ∀ p ∈ ptrs, ∀ q ∈ ptrs, s.key p = s.key q → p = q
  agree : ∀ p ∈ ptrs, f (s.key p) = some (s.node p).hostFd
  complete : ∀ k host, f k = some host → ∃ p ∈ ptrs, s.key p = k

/-- The entry belongs to `pid` and comes after `kFd`. -/
def larger (s : FdState) (pid kFd : Int) (p : Word) : Bool :=
  decide ((s.node p).pid = pid ∧ kFd < (s.node p).kFd)

/-- The tables `ptrs` in front of which, behind which or between whose entries
`insert_fd` links a new entry without losing one. -/
def Insertable (s : FdState) (pid kFd : Int) : List Word → Prop
  | [] => kFd = 0
  | first :: rest =>
    (∀ p ∈ first :: rest, (s.node p).pid ≠ pid) ∨
    (s.larger pid kFd first = false ∧ ((∃ p ∈ rest, s.larger pid kFd p = true) ∨ rest = []))

theorem matching_iff {p : Word} {pid kFd : Int} :
    ((s.node p).pid == pid && (s.node p).kFd == kFd) = true ↔ s.key p = (pid, kFd) := by
  simp [key]

/-- With fuel for the whole list, `get_host_fd` is a lookup in the map. -/
theorem getHostFd_spec {f : FdMap} (holds : s.Holds f ptrs) (pid kFd : Int) {fuel : Nat}
    (enough : ptrs.length < fuel) :
    s.getHostFd fuel pid kFd = some ((f (pid, kFd)).getD (-enoent)) := by
  unfold getHostFd
  rw [follow_chain holds.entries _ enough]
  cases answer : ptrs.find? fun p => (s.node p).pid == pid && (s.node p).kFd == kFd with
  | none =>
    cases stored : f (pid, kFd) with
    | none => rfl
    | some host =>
      obtain ⟨p, hp, same⟩ := holds.complete _ _ stored
      exact absurd (matching_iff.mpr same) (List.find?_eq_none.mp answer p hp)
  | some p =>
    have member := List.mem_of_find?_eq_some answer
    have found := matching_iff.mp (List.find?_eq_some_iff_append.mp answer).1
    have proper : p ≠ 0 := fun zero => holds.entries.proper (zero ▸ member)
    have stored := holds.agree p member
    rw [found] at stored
    show some (if p = 0 then -enoent else (s.node p).hostFd) = _
    rw [if_neg proper, stored, Option.getD_some]

/-- The entry that makes `insert_fd` return `-EEXIST`. -/
def Matches (s : FdState) (pid hostFd kFd : Int) (p : Word) : Prop :=
  s.key p = (pid, kFd) ∧ (s.node p).hostFd = hostFd

instance (s : FdState) (pid hostFd kFd : Int) (p : Word) : Decidable (s.Matches pid hostFd kFd p) :=
  inferInstanceAs (Decidable (_ ∧ _))

theorem matches_iff {p : Word} {pid hostFd kFd : Int} :
    s.Matches pid hostFd kFd p ↔ (s.node p).pid = pid ∧ (s.node p).hostFd = hostFd ∧ (s.node p).kFd = kFd := by
  simp only [Matches, key, Prod.mk.injEq]
  tauto

/-- The scan passes over a list of entries that neither match nor are larger. -/
theorem insertScan_skip {pid hostFd kFd : Int} {a b : Word} {xs : List Word}
    (segment : Segment s.next a xs b) (proper : b ≠ 0) (inner : ∀ x ∈ xs, x ≠ 0)
    (other : ∀ x ∈ xs, ¬ s.Matches pid hostFd kFd x) (low : ∀ x ∈ xs, s.larger pid kFd x = false)
    (fuel : Nat) (seen : Bool) :
    s.insertScan pid hostFd kFd (xs.length + fuel) a seen =
      s.insertScan pid hostFd kFd fuel b (seen || xs.any fun x => (s.node x).pid == pid) := by
  induction xs generalizing a seen with
  | nil =>
    cases segment
    simp
  | cons x xs ih =>
    obtain ⟨rfl, rest⟩ := segment
    have onward : (s.node a).next ≠ 0 := by
      cases xs with
      | nil =>
        cases rest
        exact proper
      | cons y ys =>
        obtain ⟨same, _⟩ := rest
        have := inner y (List.mem_cons_of_mem _ List.mem_cons_self)
        rwa [← same] at this
    have different := other a List.mem_cons_self
    have notLarger := low a List.mem_cons_self
    have later := ih rest (fun y hy => inner y (List.mem_cons_of_mem a hy))
      (fun y hy => other y (List.mem_cons_of_mem a hy)) (fun y hy => low y (List.mem_cons_of_mem a hy))
    have length : (a :: xs).length + fuel = (xs.length + fuel) + 1 := by
      simp only [List.length_cons]
      omega
    rw [length, insertScan]
    simp only [larger, decide_eq_false_iff_not, not_and] at notLarger
    rw [matches_iff, not_and] at different
    cases decEq (s.node a).pid pid with
    | isTrue same =>
      simp only [same, if_true, different same, if_false, notLarger same, onward, ne_eq, not_false_eq_true]
      refine (later true).trans ?_
      simp [same]
    | isFalse differs =>
      simp only [differs, if_false, onward, ne_eq, not_false_eq_true, if_true]
      have none : ((s.node a).pid == pid) = false := beq_eq_false_iff_ne.mpr differs
      rw [List.any_cons, none, Bool.false_or]
      exact later seen

/-- How the scan of a nonempty table ends when no entry matches. -/
theorem insertScan_spec (entries : s.Entries ptrs) (nonempty : ptrs ≠ []) (pid hostFd kFd : Int)
    (absent : ∀ p ∈ ptrs, ¬ s.Matches pid hostFd kFd p) :
    (∃ pre q post, ptrs = pre ++ q :: post ∧ s.larger pid kFd q = true ∧ (∀ x ∈ pre, s.larger pid kFd x = false) ∧
      ∀ fuel, ptrs.length < fuel →
        s.insertScan pid hostFd kFd fuel s.head false = some (.inr (q, q, true))) ∨
    (∃ pre last, ptrs = pre ++ [last] ∧ (∀ x ∈ ptrs, s.larger pid kFd x = false) ∧
      ∀ fuel, ptrs.length < fuel → s.insertScan pid hostFd kFd fuel s.head false =
        some (.inr (last, 0, ptrs.any fun x => (s.node x).pid == pid))) := by
  have proper : ∀ x ∈ ptrs, x ≠ 0 := fun x hx zero => entries.proper (zero ▸ hx)
  cases first : ptrs.find? (s.larger pid kFd) with
  | some q =>
    obtain ⟨above, pre, post, rfl, before⟩ := List.find?_eq_some_iff_append.mp first
    have member : q ∈ pre ++ q :: post := List.mem_append_right pre List.mem_cons_self
    have inner : ∀ x ∈ pre, x ∈ pre ++ q :: post := fun x hx => List.mem_append_left _ hx
    refine Or.inl ⟨pre, q, post, rfl, above, fun x hx => by simpa using before x hx, fun fuel enough => ?_⟩
    simp only [List.length_append, List.length_cons] at enough
    obtain ⟨spare, rfl⟩ : ∃ spare, fuel = pre.length + (spare + 1) := ⟨fuel - pre.length - 1, by omega⟩
    rw [insertScan_skip entries.segment.split.1 (proper q member) (fun x hx => proper x (inner x hx))
      (fun x hx => absent x (inner x hx)) (fun x hx => by simpa using before x hx)]
    obtain ⟨same, less⟩ := of_decide_eq_true above
    have differs : (s.node q).kFd ≠ kFd := by omega
    simp [insertScan, same, less, differs]
  | none =>
    have low : ∀ x ∈ ptrs, s.larger pid kFd x = false := fun x hx => by
      simpa using List.find?_eq_none.mp first x hx
    obtain ⟨pre, last, rfl⟩ : ∃ pre last, ptrs = pre ++ [last] :=
      ⟨_, _, (List.dropLast_append_getLast nonempty).symm⟩
    have member : last ∈ pre ++ [last] := List.mem_append_right pre List.mem_cons_self
    have inner : ∀ x ∈ pre, x ∈ pre ++ [last] := fun x hx => List.mem_append_left _ hx
    have ends : (s.node last).next = 0 := entries.next_last
    refine Or.inr ⟨pre, last, rfl, low, fun fuel enough => ?_⟩
    simp only [List.length_append, List.length_cons, List.length_nil] at enough
    obtain ⟨spare, rfl⟩ : ∃ spare, fuel = pre.length + (spare + 1) := ⟨fuel - pre.length - 1, by omega⟩
    rw [insertScan_skip entries.segment.snoc.1 (proper last member) (fun x hx => proper x (inner x hx))
      (fun x hx => absent x (inner x hx)) (fun x hx => low x (inner x hx))]
    have different := absent last member
    have notLarger := low last member
    simp only [larger, decide_eq_false_iff_not, not_and] at notLarger
    rw [matches_iff, not_and] at different
    rw [insertScan]
    cases decEq (s.node last).pid pid with
    | isTrue same =>
      simp [same, different same, notLarger same, ends]
    | isFalse differs => simp [differs, ends]

/-- The second loop of `insert_fd` finds the entry in front of `q`. -/
theorem predecessor_found {before post : List Word} {p q : Word}
    (entries : s.Entries (before ++ p :: q :: post)) {fuel : Nat}
    (enough : (before ++ p :: q :: post).length < fuel) :
    follow s.next (fun ptr => s.next ptr == 0 || q == 0 || s.next ptr == q) fuel s.head = some p := by
  have links : s.next p = q := (Chain.suffix entries).2.head_eq
  have proper : q ≠ 0 := fun zero => entries.proper (zero ▸ by simp)
  simp only [List.length_append, List.length_cons] at enough
  refine follow_segment entries.segment.split.1 (fun x hx => ?_) (by simp [links]) (by omega)
  simpa [entries.next_ne hx] using ⟨entries.next_ne_stop hx, proper⟩

section Insert

variable {f : FdMap} {pid hostFd kFd : Int} {target : Word}

theorem Holds.first (holds : s.Holds f []) (proper : target ≠ 0) :
    (FdState.mk target (Function.update s.node target ⟨pid, hostFd, 0, 0⟩)
      (insert target s.allocated)).Holds (Function.update f (pid, 0) (some hostFd)) [target] := by
  constructor
  · exact ⟨⟨rfl, by simp [Segment, next]⟩, by simpa using proper.symm⟩
  · simp
  · simp
  · simp [key]
  · intro k host stored
    cases decEq k (pid, 0) with
    | isTrue same => exact ⟨target, List.mem_singleton_self _, by simp [key, same]⟩
    | isFalse other =>
      rw [Function.update_of_ne other] at stored
      obtain ⟨x, hx, _⟩ := holds.complete k host stored
      cases hx

/-- A new entry changes the data of no other. -/
theorem linkAfter_data (s : FdState) (p target new : Word) (e : FdEntry) {x : Word} (other : x ≠ target) :
    (s.linkAfter p target new e).key x = s.key x ∧
      ((s.linkAfter p target new e).node x).hostFd = (s.node x).hostFd := by
  cases decEq x p with
  | isTrue same =>
    subst same
    simp [key, FdState.linkAfter, Function.update_of_ne other]
  | isFalse differs => simp [key, FdState.linkAfter, Function.update_of_ne other, Function.update_of_ne differs]

theorem linkAfter_key (s : FdState) (p target new : Word) (e : FdEntry) :
    (s.linkAfter p target new e).key target = (e.pid, e.kFd) := by
  simp [key, FdState.linkAfter]

theorem linkAfter_next (s : FdState) {p target : Word} (new : Word) (e : FdEntry) (different : p ≠ target) :
    (s.linkAfter p target new e).next target = new ∧ (s.linkAfter p target new e).next p = target ∧
      ∀ x, x ≠ target → x ≠ p → (s.linkAfter p target new e).next x = s.next x := by
  refine ⟨by simp [next, FdState.linkAfter], by simp [next, FdState.linkAfter, Function.update_of_ne different], ?_⟩
  intro x other apart
  simp [next, FdState.linkAfter, Function.update_of_ne other, Function.update_of_ne apart]

theorem Entries.linkAfter {pre post : List Word} {p : Word} (entries : s.Entries (pre ++ p :: post)) (e : FdEntry)
    (new : target ∉ pre ++ p :: post) (proper : target ≠ 0) :
    (s.linkAfter p target (s.next p) e).Entries (pre ++ p :: target :: post) := by
  have different : p ≠ target := fun same => new (same ▸ List.mem_append_right pre List.mem_cons_self)
  obtain ⟨atTarget, atNode, others⟩ := linkAfter_next s (s.next p) e different
  refine Chain.insertAfter entries new proper atTarget atNode fun x hx => ?_
  have apart : x ≠ p := Chain.apart entries hx
  have inside : x ∈ pre ++ p :: post := by
    simp only [List.mem_append, List.mem_cons] at hx ⊢
    tauto
  exact others x (fun same => new (same ▸ inside)) apart

/-- Linking a fresh entry in behind one that is there adds its key to the map. -/
theorem Holds.linkAfter {pre post : List Word} {p : Word} (holds : s.Holds f (pre ++ p :: post))
    (absent : f (pid, kFd) = none) (proper : target ≠ 0) (fresh : target ∉ s.allocated) :
    (s.linkAfter p target (s.next p) ⟨pid, hostFd, kFd, 0⟩).Holds
      (Function.update f (pid, kFd) (some hostFd)) (pre ++ p :: target :: post) := by
  have new : target ∉ pre ++ p :: post := fun member => fresh (holds.allocated _ member)
  have data : ∀ x ≠ target, _ := fun x hx => linkAfter_data s p target (s.next p) ⟨pid, hostFd, kFd, 0⟩ hx
  have own := linkAfter_key s p target (s.next p) ⟨pid, hostFd, kFd, 0⟩
  have split : ∀ x, x ∈ pre ++ p :: target :: post ↔ x = target ∨ x ∈ pre ++ p :: post := by
    intro x
    simp only [List.mem_append, List.mem_cons]
    tauto
  have old : ∀ x ∈ pre ++ p :: post, x ≠ target ∧ s.key x ≠ (pid, kFd) := by
    intro x hx
    refine ⟨fun same => new (same ▸ hx), fun same => ?_⟩
    have stored := holds.agree x hx
    rw [same, absent] at stored
    cases stored
  constructor
  · exact Entries.linkAfter holds.entries _ new proper
  · intro x hx
    cases (split x).mp hx with
    | inl same => exact Finset.mem_insert.mpr (Or.inl same)
    | inr inside => exact Finset.mem_insert_of_mem (holds.allocated x inside)
  · intro x hx y hy same
    rcases (split x).mp hx with rfl | inX <;> rcases (split y).mp hy with rfl | inY
    · rfl
    · rw [own, (data y (old y inY).1).1] at same
      exact absurd same.symm (old y inY).2
    · rw [own, (data x (old x inX).1).1] at same
      exact absurd same (old x inX).2
    · rw [(data x (old x inX).1).1, (data y (old y inY).1).1] at same
      exact holds.distinct x inX y inY same
  · intro x hx
    rcases (split x).mp hx with rfl | inside
    · rw [own, Function.update_self]
      simp [FdState.linkAfter]
    · obtain ⟨apart, other⟩ := old x inside
      rw [(data x apart).1, (data x apart).2, Function.update_of_ne other]
      exact holds.agree x inside
  · intro k host stored
    cases decEq k (pid, kFd) with
    | isTrue same =>
      subst same
      exact ⟨target, (split target).mpr (Or.inl rfl), own⟩
    | isFalse other =>
      rw [Function.update_of_ne other] at stored
      obtain ⟨x, hx, same⟩ := holds.complete k host stored
      exact ⟨x, (split x).mpr (Or.inr hx), (data x (old x hx).1).1.trans same⟩

/-- `insert_fd` of a new key adds it to the map when the table is insertable. -/
theorem insertFd_spec (holds : s.Holds f ptrs) (hostFd : Int) (absent : f (pid, kFd) = none)
    (insertable : s.Insertable pid kFd ptrs) (proper : target ≠ 0) (fresh : target ∉ s.allocated) :
    ∃ s' ptrs', (∀ fuel, ptrs.length < fuel → s.insertFd fuel pid hostFd kFd target = some (0, s')) ∧
      s'.Holds (Function.update f (pid, kFd) (some hostFd)) ptrs' := by
  have missing : ∀ p ∈ ptrs, s.key p ≠ (pid, kFd) := by
    intro p hp same
    have stored := holds.agree p hp
    rw [same, absent] at stored
    cases stored
  cases ptrs with
  | nil =>
    have empty : s.head = 0 := holds.entries.empty_iff.mpr rfl
    have zero : kFd = 0 := insertable
    subst zero
    refine ⟨_, [target], fun fuel _ => ?_, holds.first proper⟩
    rw [insertFd, if_pos empty, if_neg proper]
  | cons first rest =>
    have nonempty : s.head ≠ 0 := fun zero => nomatch holds.entries.empty_iff.mp zero
    have start : s.head = first := holds.entries.head_eq
    rcases insertScan_spec holds.entries (List.cons_ne_nil _ _) pid hostFd kFd
        (fun p hp matching => missing p hp matching.1) with
      ⟨pre, q, post, split, above, _, scan⟩ | ⟨pre, last, split, low, scan⟩
    · have notFirst : s.larger pid kFd first = false := by
        cases insertable with
        | inl absentPid =>
          have member : q ∈ first :: rest := split ▸ List.mem_append_right pre List.mem_cons_self
          exact absurd (of_decide_eq_true above).1 (absentPid q member)
        | inr inner => exact inner.1
      -- the larger entry is not the first one, so it has a predecessor on the list
      cases pre.eq_nil_or_concat with
      | inl nothing =>
        subst nothing
        cases split
        rw [notFirst] at above
        cases above
      | inr some =>
        obtain ⟨before, p, rfl⟩ := some
        have line : first :: rest = before ++ p :: q :: post := by
          rw [split, List.concat_eq_append, List.append_assoc, List.singleton_append]
        rw [line] at holds scan ⊢
        have links : s.next p = q := (Chain.suffix holds.entries).2.head_eq
        refine ⟨_, _, fun fuel enough => ?_, links ▸ holds.linkAfter absent proper fresh⟩
        have found := predecessor_found holds.entries enough
        rw [insertFd, if_neg nonempty, scan fuel enough]
        simp only [if_true, found, if_neg proper]
    · rw [split] at holds
      have ends : s.next last = 0 := holds.entries.next_last
      refine ⟨_, _, fun fuel enough => ?_, ends ▸ holds.linkAfter absent proper fresh⟩
      have place : (if (first :: rest).any (fun x => (s.node x).pid == pid) = true then
          follow s.next (fun ptr => s.next ptr == 0 || (0 : Word) == 0 || s.next ptr == 0) fuel s.head
          else some last) = some last := by
        split
        · rename_i present
          cases insertable with
          | inl absentPid =>
            obtain ⟨x, hx, same⟩ := List.any_eq_true.mp present
            exact absurd (beq_iff_eq.mp same) (absentPid x hx)
          | inr inner =>
            rcases inner.2 with ⟨x, hx, above⟩ | alone
            · rw [low x (List.mem_cons_of_mem first hx)] at above
              cases above
            · subst alone
              have only : last = first := by
                cases pre with
                | nil => exact (List.cons.inj split).1.symm
                | cons y ys => simp at split
              cases fuel with
              | zero => cases enough
              | succ fuel => simp [follow, start, only]
        · rfl
      rw [insertFd, if_neg nonempty, scan fuel enough]
      simp only [place, if_neg proper]

end Insert

/-- Taking an entry off the list takes its key out of the map. -/
theorem Holds.remove {f : FdMap} {rest : List Word} {s' : FdState} {q : Word} (holds : s.Holds f ptrs)
    (member : q ∈ ptrs) (split : ∀ x, x ∈ rest ↔ x ∈ ptrs ∧ x ≠ q) (entries : s'.Entries rest)
    (allocated : s'.allocated = s.allocated.erase q)
    (data : ∀ x, s'.key x = s.key x ∧ (s'.node x).hostFd = (s.node x).hostFd) :
    s'.Holds (Function.update f (s.key q) none) rest := by
  have other : ∀ x ∈ rest, s.key x ≠ s.key q := fun x hx same =>
    ((split x).mp hx).2 (holds.distinct x ((split x).mp hx).1 q member same)
  constructor
  · exact entries
  · intro x hx
    rw [allocated]
    exact Finset.mem_erase.mpr ⟨((split x).mp hx).2, holds.allocated x ((split x).mp hx).1⟩
  · intro x hx y hy same
    rw [(data x).1, (data y).1] at same
    exact holds.distinct x ((split x).mp hx).1 y ((split y).mp hy).1 same
  · intro x hx
    rw [(data x).1, (data x).2, Function.update_of_ne (other x hx)]
    exact holds.agree x ((split x).mp hx).1
  · intro k host stored
    cases decEq k (s.key q) with
    | isTrue same =>
      rw [same, Function.update_self] at stored
      cases stored
    | isFalse differs =>
      rw [Function.update_of_ne differs] at stored
      obtain ⟨x, hx, same⟩ := holds.complete k host stored
      have apart : x ≠ q := fun equal => differs (same.symm.trans (congrArg s.key equal))
      exact ⟨x, (split x).mpr ⟨hx, apart⟩, (data x).1.trans same⟩

/-- `delete_fd` unlinks the first entry that matches. -/
theorem deleteFd_unlinks {pid hostFd kFd : Int} {pre post : List Word} {q : Word}
    (chain : s.Entries (pre ++ q :: post)) (matching : s.Matches pid hostFd kFd q)
    (first : ∀ x ∈ pre, ¬ s.Matches pid hostFd kFd x) :
    ∃ s', (∀ fuel, (pre ++ q :: post).length < fuel → s.deleteFd fuel pid hostFd kFd = some (0, s')) ∧
      s'.Entries (pre ++ post) ∧ s'.allocated = s.allocated.erase q ∧
        ∀ x, s'.key x = s.key x ∧ (s'.node x).hostFd = (s.node x).hostFd := by
  have member : q ∈ pre ++ q :: post := List.mem_append_right pre List.mem_cons_self
  have proper : q ≠ 0 := fun zero => chain.proper (zero ▸ member)
  obtain ⟨same, host⟩ := matching
  -- the first loop stops at the entry: nothing in front of it matches
  have found : ∀ fuel, (pre ++ q :: post).length < fuel →
      follow (fun p => if s.next p = 0 then p else s.next p)
      (fun p => p == 0 || ((s.node p).pid == pid && (s.node p).hostFd == hostFd && (s.node p).kFd == kFd))
      fuel s.head = some q := by
    intro fuel enough
    refine follow_segment (chain.segment.split.1.frame fun x hx => if_neg (chain.next_ne_stop hx))
      (fun x hx => ?_) ?_ (by simp only [List.length_append, List.length_cons] at enough; omega)
    · have inside : x ∈ pre ++ q :: post := List.mem_append_left _ hx
      have nonzero : x ≠ 0 := fun zero => chain.proper (zero ▸ inside)
      have differs := first x hx
      rw [matches_iff] at differs
      simp only [Bool.or_eq_false_iff, beq_eq_false_iff_ne, Bool.and_eq_false_iff]
      refine ⟨nonzero, ?_⟩
      tauto
    · simp only [key, Prod.mk.injEq] at same
      simp [same.1, same.2, host]
  cases pre.eq_nil_or_concat with
  | inl nothing =>
    subst nothing
    have entries : ({ s with head := s.next q }.kfree q).Entries post := chain.tail
    refine ⟨_, fun fuel enough => ?_, entries, rfl, fun x => ⟨rfl, rfl⟩⟩
    unfold deleteFd
    simp only [found fuel enough, if_neg proper]
    rw [if_pos chain.head_eq.symm]
  | inr some =>
    obtain ⟨before, p, rfl⟩ := some
    have line : before.concat p ++ q :: post = before ++ p :: q :: post := by simp
    have line' : before.concat p ++ post = before ++ p :: post := by simp
    rw [line] at chain found ⊢
    rw [line']
    have notHead : q ≠ s.head := chain.head_ne.symm
    have links : s.next p = q := (Chain.suffix chain).2.head_eq
    have second : ∀ fuel, (before ++ p :: q :: post).length < fuel →
        follow s.next (fun prev => s.next prev == q) fuel s.head = Option.some p := by
      intro fuel enough
      simp only [List.length_append, List.length_cons] at enough
      refine follow_segment chain.segment.split.1 (fun x hx => ?_) (by simp [links]) (by omega)
      simpa using chain.next_ne hx
    refine ⟨{ s with node := Function.update s.node p { s.node p with next := s.next q } }.kfree q,
      fun fuel enough => ?_, ?_, rfl, ?_⟩
    · unfold deleteFd
      simp only [found fuel enough, if_neg proper, if_neg notHead, second fuel enough]
    · refine chain.unlink (by simp [next, kfree]) (fun x hx => ?_)
      have other : x ≠ p := chain.apart (by simp only [List.mem_append, List.mem_cons] at hx ⊢; tauto)
      simp [next, kfree, Function.update_of_ne other]
    · intro x
      cases decEq x p with
      | isTrue equal =>
        subst equal
        simp [key, kfree]
      | isFalse other => simp [key, kfree, Function.update_of_ne other]

/-- `delete_fd` of a stored key takes it out of the map. -/
theorem deleteFd_spec {f : FdMap} {pid hostFd kFd : Int} (holds : s.Holds f ptrs)
    (stored : f (pid, kFd) = some hostFd) :
    ∃ s' ptrs', (∀ fuel, ptrs.length < fuel → s.deleteFd fuel pid hostFd kFd = some (0, s')) ∧
      s'.Holds (Function.update f (pid, kFd) none) ptrs' := by
  obtain ⟨q, member, same⟩ := holds.complete _ _ stored
  have host : (s.node q).hostFd = hostFd := by
    have agree := holds.agree q member
    rw [same, stored] at agree
    exact (Option.some.inj agree).symm
  obtain ⟨pre, post, rfl⟩ := List.append_of_mem member
  have apart : ∀ x ∈ pre ++ post, x ≠ q := fun x hx => holds.entries.apart hx
  have split : ∀ x, x ∈ pre ++ post ↔ x ∈ pre ++ q :: post ∧ x ≠ q := by
    intro x
    have := apart x
    simp only [List.mem_append, List.mem_cons] at this ⊢
    tauto
  have first : ∀ x ∈ pre, ¬ s.Matches pid hostFd kFd x := by
    intro x hx matching
    have equal := holds.distinct x (List.mem_append_left _ hx) q member (matching.1.trans same.symm)
    exact apart x (List.mem_append_left post hx) equal
  obtain ⟨s', returns, entries, allocated, data⟩ := deleteFd_unlinks holds.entries ⟨same, host⟩ first
  refine ⟨s', pre ++ post, returns, ?_⟩
  rw [← same]
  exact holds.remove member split entries allocated data

end FdState

end RealmVm
