import RealmVm.Fd.Ordered

/-! Which descriptor `append_fd` picks, and when its entry can be inserted. -/
namespace RealmVm

open Lib

namespace FdState

variable {s : FdState} {ptrs pre suf : List Word} {pid hostFd kFd v : Int} {a : Word}

/-- The process has an entry with this number. -/
def Has (s : FdState) (ptrs : List Word) (pid kFd : Int) : Prop := ∃ p ∈ ptrs, s.key p = (pid, kFd)

/-- From the first number of `p` on none is missing up to `v`. -/
def Full (has : Int → Prop) (v : Int) : Prop := ∀ j < v, (∃ i ≤ j, has i) → has j

/-- The numbers that `append_fd` hands to `insert_fd`, where -1 becomes 0: the first that is
missing, or the last that is there. -/
inductive Picked (has : Int → Prop) : Int → Prop where
  | nothing (empty : ∀ k, ¬ has k) : Picked has (-1)
  | front (some : ∃ k, has k) (positive : ∀ k, has k → 0 < k) : Picked has 0
  | gap {v : Int} (before : has (v - 1)) (missing : ¬ has v) (later : ∃ k, v < k ∧ has k) (full : Full has v)
      (start : ∃ k ≤ 0, has k) : Picked has v
  | last {v : Int} (here : has v) (greatest : ∀ k, has k → k ≤ v) (full : Full has v)
      (start : ∃ k ≤ 0, has k) : Picked has v

/-- The variable `new_kfd` behind the entries `pre`. -/
structure Passed (has : Int → Prop) (newKfd : Int) : Prop where
  fresh : (∀ k, ¬ has k) → newKfd = -1
  last : (∃ k, has k) → has newKfd
  greatest : ∀ k, has k → k ≤ newKfd
  full : Full has newKfd
  start : (∃ k, has k) → ∃ k ≤ 0, has k

theorem has_append {xs ys : List Word} {k : Int} :
    s.Has (xs ++ ys) pid k ↔ s.Has xs pid k ∨ s.Has ys pid k := by
  simp only [Has, List.mem_append, or_and_right, exists_or]

theorem has_of_mem {p : Word} (member : p ∈ ptrs) (own : (s.node p).pid = pid) : s.Has ptrs pid (s.node p).kFd :=
  ⟨p, member, by rw [key, own]⟩

theorem not_has_single {p : Word} (other : (s.node p).pid ≠ pid) (k : Int) : ¬ s.Has [p] pid k := by
  rintro ⟨x, hx, same⟩
  obtain rfl := List.mem_singleton.mp hx
  exact other (congrArg Prod.fst same)

theorem has_single {p : Word} (own : (s.node p).pid = pid) (k : Int) : s.Has [p] pid k ↔ (s.node p).kFd = k := by
  simp [Has, key, own]

/-- The next number of the process comes without a gap. -/
theorem Passed.step {has has' : Int → Prop} {newKfd k : Int} (passed : Passed has newKfd)
    (more : ∀ j, has' j ↔ has j ∨ j = k) (above : ∀ j, has j → j < k) (next : ¬ newKfd + 1 < k) : Passed has' k := by
  have here : has' k := (more k).mpr (Or.inr rfl)
  refine ⟨fun empty => absurd here (empty k), fun _ => here, ?_, ?_, ?_⟩
  · intro j member
    exact ((more j).mp member).elim (fun old => Int.le_of_lt (above j old)) Int.le_of_eq
  · rintro j below ⟨i, low, member⟩
    have old : has i := ((more i).mp member).resolve_right (by omega)
    have last := passed.last ⟨i, old⟩
    cases Int.lt_or_eq_of_le (show j ≤ newKfd by omega) with
    | inl before => exact (more j).mpr (Or.inl (passed.full j before ⟨i, low, old⟩))
    | inr same => exact (more j).mpr (Or.inl (same ▸ last))
  · intro _
    by_cases some : ∃ j, has j
    · obtain ⟨j, low, member⟩ := passed.start some
      exact ⟨j, low, (more j).mpr (Or.inl member)⟩
    · have first := passed.fresh fun j member => some ⟨j, member⟩
      exact ⟨k, by omega, here⟩

theorem Passed.picked {has : Int → Prop} {newKfd : Int} (passed : Passed has newKfd) : Picked has newKfd := by
  by_cases some : ∃ k, has k
  · exact .last (passed.last some) passed.greatest passed.full (passed.start some)
  · have empty : ∀ k, ¬ has k := fun k member => some ⟨k, member⟩
    exact passed.fresh empty ▸ .nothing empty

/-- The number before `k` is missing: the loop breaks. -/
theorem Passed.gap {has has' : Int → Prop} {newKfd k : Int} (passed : Passed has newKfd)
    (more : ∀ j, has j → has' j) (here : has' k) (rest : ∀ j, has' j → has j ∨ k ≤ j) (next : newKfd + 1 < k) :
    Picked has' (newKfd + 1) := by
  by_cases some : ∃ j, has j
  · obtain ⟨j, low, member⟩ := passed.start some
    refine .gap ?_ ?_ ⟨k, next, here⟩ ?_ ⟨j, low, more j member⟩
    · rw [Int.add_sub_cancel]
      exact more _ (passed.last some)
    · intro there
      cases rest _ there with
      | inl old => exact absurd (passed.greatest _ old) (by omega)
      | inr later => omega
    · rintro j below ⟨i, low, member⟩
      have old : has i := (rest i member).resolve_right (by omega)
      cases Int.lt_or_eq_of_le (show j ≤ newKfd by omega) with
      | inl before => exact more j (passed.full j before ⟨i, low, old⟩)
      | inr same => exact more j (same ▸ passed.last some)
  · have first := passed.fresh fun j member => some ⟨j, member⟩
    subst first
    refine .front ⟨k, here⟩ fun j member => ?_
    cases rest j member with
    | inl old => exact absurd ⟨j, old⟩ some
    | inr later => omega

theorem appendScan_picked (sorted : s.Sorted (pre ++ suf)) (segment : Segment s.next a suf 0)
    (proper : ∀ x ∈ suf, x ≠ 0)
    {newKfd : Int} (passed : Passed (s.Has pre pid) newKfd) :
    ∃ v, (∀ fuel, suf.length < fuel → s.appendScan pid fuel a newKfd = some v) ∧ Picked (s.Has (pre ++ suf) pid) v := by
  induction suf generalizing pre a newKfd with
  | nil =>
    obtain rfl : a = 0 := segment
    rw [List.append_nil]
    refine ⟨newKfd, fun fuel enough => ?_, passed.picked⟩
    cases fuel with
    | zero => cases enough
    | succ fuel => rw [appendScan, if_pos rfl]
  | cons p rest ih =>
    obtain ⟨rfl, later⟩ := segment
    have nonzero := proper a List.mem_cons_self
    have line : pre ++ a :: rest = (pre ++ [a]) ++ rest := List.append_cons _ _ _
    have onward : ∀ {newKfd' : Int}, Passed (s.Has (pre ++ [a]) pid) newKfd' →
        (∀ fuel, s.appendScan pid (fuel + 1) a newKfd = s.appendScan pid fuel (s.next a) newKfd') →
        ∃ v, (∀ fuel, (a :: rest).length < fuel → s.appendScan pid fuel a newKfd = some v) ∧
          Picked (s.Has (pre ++ a :: rest) pid) v := by
      intro newKfd' passed' step
      obtain ⟨v, scans, picked⟩ := ih (line ▸ sorted) later (fun x hx => proper x (List.mem_cons_of_mem a hx)) passed'
      refine ⟨v, fun fuel enough => ?_, line ▸ picked⟩
      cases fuel with
      | zero => cases enough
      | succ fuel => exact (step fuel).trans (scans fuel (Nat.lt_of_succ_lt_succ enough))
    by_cases own : (s.node a).pid = pid
    · have above : ∀ j, s.Has pre pid j → j < (s.node a).kFd := by
        rintro j ⟨x, hx, same⟩
        obtain ⟨owner, number⟩ := Prod.mk.inj same
        exact number ▸ sorted.in_front hx (owner.trans own.symm)
      by_cases gap : newKfd + 1 < (s.node a).kFd
      · refine ⟨newKfd + 1, fun fuel enough => ?_, passed.gap ?_ (has_of_mem ?_ own) ?_ gap⟩
        · cases fuel with
          | zero => cases enough
          | succ fuel => rw [appendScan, if_neg nonzero, if_pos own, if_pos gap]
        · intro j member
          exact has_append.mpr (Or.inl member)
        · exact List.mem_append_right pre List.mem_cons_self
        · intro j member
          refine (has_append.mp member).imp id ?_
          rintro ⟨x, hx, same⟩
          obtain ⟨owner, number⟩ := Prod.mk.inj same
          cases List.mem_cons.mp hx with
          | inl here => exact here ▸ Int.le_of_eq number
          | inr behind => exact number ▸ Int.le_of_lt (sorted.behind behind (owner.trans own.symm))
      · refine onward (passed.step (fun j => ?_) above gap) fun fuel => ?_
        · rw [has_append, has_single own]
          exact or_congr Iff.rfl eq_comm
        · rw [appendScan, if_neg nonzero, if_pos own, if_neg gap]
          rfl
    · have same : s.Has (pre ++ [a]) pid = s.Has pre pid := by
        funext j
        rw [has_append, eq_iff_iff]
        exact or_iff_left (not_has_single own j)
      refine onward (same ▸ passed) fun fuel => ?_
      rw [appendScan, if_neg nonzero, if_neg own]
      rfl

/-- The number that `append_fd` goes on with. -/
theorem append_picks (sorted : s.Sorted ptrs) (pid : Int) :
    ∃ v, (∀ fuel, ptrs.length < fuel → s.appendScan pid fuel s.head (-1) = some v) ∧ Picked (s.Has ptrs pid) v := by
  have proper : ∀ x ∈ ptrs, x ≠ 0 := fun x hx zero => sorted.entries.proper (zero ▸ hx)
  have whole : s.Sorted ([] ++ ptrs) := sorted
  have empty : ∀ k, ¬ s.Has [] pid k := by
    rintro k ⟨p, member, _⟩
    cases member
  have initial : Passed (s.Has [] pid) (-1) :=
    ⟨fun _ => rfl, fun ⟨k, has⟩ => absurd has (empty k), fun k has => absurd has (empty k),
      fun j _ ⟨i, _, has⟩ => absurd has (empty i), fun ⟨k, has⟩ => absurd has (empty k)⟩
  exact appendScan_picked whole sorted.entries.segment proper initial

/-- The first missing number is -1. -/
structure GapAtMinusOne (has : Int → Prop) : Prop where
  before : ∃ k < -1, has k
  missing : ¬ has (-1)
  later : ∃ k, -1 < k ∧ has k
  full : Full has (-1)

/-- The lists on which `append_fd` does no harm: the process at the head starts at 0 or below and
has more than its first entry there, unless the new entry is the one that is there. The number -1
is taken for a missing one, and 0 in its place. -/
structure Appendable (s : FdState) (pid hostFd : Int) (ptrs : List Word) : Prop where
  front : s.head ∈ ptrs → (s.node s.head).pid = pid → (s.node s.head).kFd ≤ 0
  alone : s.head ∈ ptrs → (s.node s.head).pid = pid → (∀ k, s.Has ptrs pid k → k = (s.node s.head).kFd) →
    (s.node s.head).kFd = -1 ∨ (s.node s.head).hostFd = hostFd
  negative : GapAtMinusOne (s.Has ptrs pid) → s.Has ptrs pid 0 →
    (∃ p ∈ ptrs, s.Matches pid hostFd 0 p) ∨ ∀ k, s.Has ptrs pid k → k ≤ 0

theorem Sorted.head_mem (sorted : s.Sorted ptrs) (some : ptrs ≠ []) : s.head ∈ ptrs := by
  cases ptrs with
  | nil => exact absurd rfl some
  | cons p rest => exact sorted.entries.head_eq ▸ List.mem_cons_self

theorem Sorted.head_least (sorted : s.Sorted ptrs) (own : (s.node s.head).pid = pid) {k : Int}
    (has : s.Has ptrs pid k) :
    (s.node s.head).kFd ≤ k := by
  obtain ⟨x, hx, same⟩ := has
  obtain ⟨owner, rfl⟩ := Prod.mk.inj same
  cases ptrs with
  | nil => cases hx
  | cons p rest =>
    rw [sorted.entries.head_eq] at own ⊢
    have line : s.Sorted ([] ++ p :: rest) := sorted
    cases List.mem_cons.mp hx with
    | inl here => exact here ▸ Int.le_refl _
    | inr later => exact Int.le_of_lt (line.behind later (owner.trans own.symm))

theorem Sorted.distinct (sorted : s.Sorted ptrs) {p q : Word} (hp : p ∈ ptrs) (hq : q ∈ ptrs)
    (same : s.key p = s.key q) :
    p = q :=
  List.inj_on_of_nodup_map sorted.ascending.nodup hp hq same

theorem low_iff (pid kFd : Int) :
    (∀ p ∈ ptrs, s.larger pid kFd p = false) ↔ ∀ k, s.Has ptrs pid k → k ≤ kFd := by
  constructor
  · rintro low k ⟨p, member, same⟩
    obtain ⟨owner, rfl⟩ := Prod.mk.inj same
    exact not_larger_iff.mp (low p member) owner
  · intro low p member
    exact not_larger_iff.mpr fun owner => low _ (has_of_mem member owner)

/-- A number that the process does not have can be inserted unless it belongs in front of the head. -/
theorem placeable_missing (missing : ¬ s.Has ptrs pid kFd) (some : ptrs ≠ []) :
    s.Placeable pid hostFd kFd ptrs ↔ ((s.node s.head).pid = pid → (s.node s.head).kFd ≤ kFd) := by
  constructor
  · rintro (empty | ⟨p, member, matching⟩ | ⟨low, _⟩)
    · exact absurd empty some
    · exact absurd ⟨p, member, matching.1⟩ missing
    · exact not_larger_iff.mp low
  · intro low
    exact Or.inr (Or.inr ⟨not_larger_iff.mpr low, fun there => absurd there missing⟩)

/-- One that it has only as the last one of several, or for the same host descriptor. -/
theorem placeable_there (sorted : s.Sorted ptrs) (there : s.Has ptrs pid kFd) :
    s.Placeable pid hostFd kFd ptrs ↔ (∃ p ∈ ptrs, s.Matches pid hostFd kFd p) ∨
      s.key s.head ≠ (pid, kFd) ∧ ∀ k, s.Has ptrs pid k → k ≤ kFd := by
  constructor
  · rintro (rfl | found | ⟨_, last⟩)
    · obtain ⟨p, member, _⟩ := there
      cases member
    · exact Or.inl found
    · obtain ⟨other, low⟩ := last there
      exact Or.inr ⟨other, (low_iff pid kFd).mp low⟩
  · rintro (found | ⟨other, low⟩)
    · exact Or.inr (Or.inl found)
    · refine Or.inr (Or.inr ⟨?_, fun _ => ⟨other, (low_iff pid kFd).mpr low⟩⟩)
      exact not_larger_iff.mpr fun own => sorted.head_least own there

theorem has_nonempty {k : Int} (has : s.Has ptrs pid k) : ptrs ≠ [] := by
  rintro rfl
  obtain ⟨p, member, _⟩ := has
  cases member

theorem Sorted.head_front (sorted : s.Sorted ptrs) {j : Int} (has : s.Has ptrs pid j) (low : j ≤ 0) :
    s.head ∈ ptrs → (s.node s.head).pid = pid → (s.node s.head).kFd ≤ 0 :=
  fun _ own => Int.le_trans (sorted.head_least own has) low

/- The number that was picked is a gap. -/
theorem appendable_gap (sorted : s.Sorted ptrs) (hostFd : Int) {v : Int} (before : s.Has ptrs pid (v - 1))
    (missing : ¬ s.Has ptrs pid v) (later : ∃ k, v < k ∧ s.Has ptrs pid k) (full : Full (s.Has ptrs pid) v)
    (start : ∃ j ≤ 0, s.Has ptrs pid j) :
    s.Placeable pid hostFd (if v = -1 then 0 else v) ptrs ↔ s.Appendable pid hostFd ptrs := by
  obtain ⟨j, low, has⟩ := start
  obtain ⟨k, above, more⟩ := later
  have nonempty := has_nonempty has
  have front := sorted.head_front has low
  have alone : s.head ∈ ptrs → (s.node s.head).pid = pid → (∀ k, s.Has ptrs pid k → k = (s.node s.head).kFd) →
      (s.node s.head).kFd = -1 ∨ (s.node s.head).hostFd = hostFd := by
    intro _ _ only
    have first := only _ before
    have second := only _ more
    omega
  by_cases special : v = -1
  · subst special
    have gap : GapAtMinusOne (s.Has ptrs pid) := ⟨⟨_, by decide, before⟩, missing, ⟨k, above, more⟩, full⟩
    have start (own : (s.node s.head).pid = pid) : (s.node s.head).kFd < 0 :=
      Int.lt_of_le_of_lt (sorted.head_least own before) (by decide)
    rw [if_pos rfl]
    by_cases zero : s.Has ptrs pid 0
    · apply (placeable_there sorted zero).trans
      constructor
      · intro placeable
        exact ⟨front, alone, fun _ _ => placeable.imp id And.right⟩
      · intro appendable
        refine (appendable.negative gap zero).imp id fun low => ⟨fun same => ?_, low⟩
        obtain ⟨own, number⟩ := Prod.mk.inj same
        exact absurd (start own) (by omega)
    · apply iff_of_true ((placeable_missing zero nonempty).mpr fun own => Int.le_of_lt (start own))
      exact ⟨front, alone, fun _ there => absurd there zero⟩
  · rw [if_neg special]
    have behind (own : (s.node s.head).pid = pid) : (s.node s.head).kFd ≤ v :=
      Int.le_trans (sorted.head_least own before) (by omega)
    refine iff_of_true ((placeable_missing missing nonempty).mpr behind) ⟨front, alone, ?_⟩
    intro other _
    cases Int.lt_or_gt_of_ne special with
    | inl below => exact absurd (other.full v below ⟨_, by omega, before⟩) missing
    | inr beyond =>
      obtain ⟨i, small, there⟩ := other.before
      exact absurd (full (-1) beyond ⟨i, Int.le_of_lt small, there⟩) other.missing

/- The number that was picked is the last one. -/
theorem appendable_last (sorted : s.Sorted ptrs) (hostFd : Int) {v : Int} (here : s.Has ptrs pid v)
    (greatest : ∀ k, s.Has ptrs pid k → k ≤ v) (full : Full (s.Has ptrs pid) v)
    (start : ∃ j ≤ 0, s.Has ptrs pid j) :
    s.Placeable pid hostFd (if v = -1 then 0 else v) ptrs ↔ s.Appendable pid hostFd ptrs := by
  obtain ⟨j, low, has⟩ := start
  have nonempty := has_nonempty has
  have front := sorted.head_front has low
  have noGap : ¬ GapAtMinusOne (s.Has ptrs pid) := by
    rintro ⟨⟨i, small, there⟩, missing, ⟨k, above, more⟩, _⟩
    exact missing (full (-1) (Int.lt_of_lt_of_le above (greatest k more)) ⟨i, Int.le_of_lt small, there⟩)
  by_cases special : v = -1
  · subst special
    have missing : ¬ s.Has ptrs pid 0 := fun zero => absurd (greatest 0 zero) (by decide)
    rw [if_pos rfl]
    have behind (own : (s.node s.head).pid = pid) : (s.node s.head).kFd ≤ 0 :=
      Int.le_trans (sorted.head_least own here) (by decide)
    refine iff_of_true ((placeable_missing missing nonempty).mpr behind) ⟨front, ?_, fun gap => absurd gap noGap⟩
    intro _ _ only
    exact Or.inl (only _ here).symm
  · rw [if_neg special]
    apply (placeable_there sorted here).trans
    constructor
    · intro placeable
      refine ⟨front, fun inside own only => Or.inr ?_, fun gap => absurd gap noGap⟩
      have same : s.key s.head = (pid, v) := by rw [key, own, only v here]
      cases placeable with
      | inl found =>
        obtain ⟨p, member, matching⟩ := found
        have equal := sorted.distinct member inside (matching.1.trans same.symm)
        exact equal ▸ matching.2
      | inr other => exact absurd same other.1
    · intro appendable
      by_cases same : s.key s.head = (pid, v)
      · have inside := sorted.head_mem nonempty
        obtain ⟨own, number⟩ := Prod.mk.inj same
        have only : ∀ k, s.Has ptrs pid k → k = (s.node s.head).kFd := by
          intro k there
          exact Int.le_antisymm (number ▸ greatest k there) (sorted.head_least own there)
        refine Or.inl ⟨s.head, inside, same, (appendable.alone inside own only).resolve_left fun negative => ?_⟩
        exact special (number.symm.trans negative)
      · exact Or.inr ⟨same, greatest⟩

theorem appendable_iff (sorted : s.Sorted ptrs) (hostFd : Int) {v : Int} (picked : Picked (s.Has ptrs pid) v) :
    s.Placeable pid hostFd (if v = -1 then 0 else v) ptrs ↔ s.Appendable pid hostFd ptrs := by
  have atHead (member : s.head ∈ ptrs) (own : (s.node s.head).pid = pid) : s.Has ptrs pid (s.node s.head).kFd :=
    has_of_mem member own
  cases picked with
  | nothing empty =>
    refine iff_of_true ?_ ⟨?_, ?_, ?_⟩
    · by_cases some : ptrs = []
      · exact Or.inl some
      · have other : (s.node s.head).pid ≠ pid := fun own => empty _ (atHead (sorted.head_mem some) own)
        exact (placeable_missing (empty 0) some).mpr fun own => absurd own other
    · exact fun member own => absurd (atHead member own) (empty _)
    · exact fun member own => absurd (atHead member own) (empty _)
    · exact fun _ zero => absurd zero (empty 0)
  | front some positive =>
    obtain ⟨k, has⟩ := some
    have missing : ¬ s.Has ptrs pid 0 := fun zero => Int.lt_irrefl 0 (positive 0 zero)
    have nonempty := has_nonempty has
    have inside := sorted.head_mem nonempty
    apply (placeable_missing missing nonempty).trans
    constructor
    · intro low
      have other : (s.node s.head).pid ≠ pid := fun own => Int.not_lt.mpr (low own) (positive _ (atHead inside own))
      exact ⟨fun _ own => absurd own other, fun _ own => absurd own other, fun _ zero => absurd zero missing⟩
    · intro appendable own
      exact appendable.front inside own
  | gap before missing later full start => exact appendable_gap sorted hostFd before missing later full start
  | last here greatest full start => exact appendable_last sorted hostFd here greatest full start

end FdState

end RealmVm
