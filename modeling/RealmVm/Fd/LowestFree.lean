import RealmVm.Fd.Append
import RealmVm.Fd.Deletion
import Mathlib.Order.Bounds.Basic

/-! Which number `append_fd` hands out, and where its entry goes. -/
namespace RealmVm

open Lib

namespace FdState

variable {s t : FdState} {ptrs pre post : List Word} {pid hostFd kFd v m : Int} {p target : Word}

/-- The old entries in their order, with the new one among them. -/
structure Added (s t : FdState) (target : Word) (ptrs : List Word) : Prop where
  entries : ∃ pre post, ptrs = pre ++ post ∧ t.Entries (pre ++ target :: post)
  data : ∀ x ∈ ptrs, t.key x = s.key x ∧ (t.node x).hostFd = (s.node x).hostFd

/-- The smallest descriptor that the process does not use is returned, and leads to `host_fd`. -/
def AllocatesLowest (s : FdState) (ptrs : List Word) (pid hostFd : Int) (target : Word) : Prop :=
  ∃ k t, Returns (fun fuel => s.appendFd fuel pid hostFd target) (k, t) ∧
    IsLeast {k | 0 ≤ k ∧ ¬ s.Has ptrs pid k} k ∧
    Returns (fun fuel => t.getHostFd fuel pid k) hostFd ∧ s.Added t target ptrs

/-- The free numbers that the search finds: the process has none yet, or only -1 in the only entry,
or the number lies below one that is used, with no other gap in front of it and not in front of
the head. A gap at -1 counts as one at 0. -/
inductive LowestInReach (s : FdState) (pid : Int) (ptrs : List Word) : Prop where
  | unused (none : ∀ k, ¬ s.Has ptrs pid k)
  | onlyMinusOne (p : Word) (single : ptrs = [p]) (key : s.key p = (pid, -1))
  | gap (m : Int) (least : IsLeast {k | 0 ≤ k ∧ ¬ s.Has ptrs pid k} m) (later : ∃ k, m < k ∧ s.Has ptrs pid k)
      (reached : Full (s.Has ptrs pid) m ∨ m = 0 ∧ Full (s.Has ptrs pid) (-1))
      (head : (s.node s.head).pid = pid → (s.node s.head).kFd < m)

/-- The first gap that the search meets is the one it should find. -/
theorem Picked.eq_least {has : Int → Prop} (picked : Picked has v) (least : IsLeast {k | 0 ≤ k ∧ ¬ has k} m)
    (later : ∃ k, m < k ∧ has k) (reached : Full has m ∨ m = 0 ∧ Full has (-1)) :
    (if v = -1 then 0 else v) = m := by
  obtain ⟨⟨nonneg, free⟩, smallest⟩ := least
  obtain ⟨k, above, used⟩ := later
  cases picked with
  | nothing empty => exact absurd used (empty k)
  | front some positive =>
    have zero : m ≤ 0 := smallest ⟨Int.le_refl 0, fun has0 => Int.lt_irrefl 0 (positive 0 has0)⟩
    exact Int.le_antisymm nonneg zero
  | gap before missing _ full start =>
    obtain ⟨i, low, there⟩ := start
    have notAbove : ¬ m < v := fun below => free (full m below ⟨i, by omega, there⟩)
    cases reached with
    | inl reached =>
      have notBelow : ¬ v < m := fun below => missing (reached v below ⟨v - 1, by omega, before⟩)
      rw [if_neg (by omega)]
      omega
    | inr reached =>
      obtain ⟨rfl, reached⟩ := reached
      have notBelow : ¬ v < -1 := fun below => missing (reached v below ⟨v - 1, by omega, before⟩)
      split <;> omega
  | last here greatest full start =>
    obtain ⟨i, low, there⟩ := start
    have behind := greatest k used
    exact absurd (full m (by omega) ⟨i, by omega, there⟩) free

theorem Picked.single {has : Int → Prop} {j : Int} (picked : Picked has v) (only : ∀ k, has k ↔ k = j) :
    v = j ∨ v = 0 ∧ 0 < j := by
  cases picked with
  | nothing empty => exact absurd ((only j).mpr rfl) (empty j)
  | front some positive => exact Or.inr ⟨rfl, positive j ((only j).mpr rfl)⟩
  | gap before missing later full start =>
    obtain ⟨k, above, used⟩ := later
    have first := (only _).mp before
    have second := (only _).mp used
    omega
  | last here _ _ _ => exact Or.inl ((only _).mp here)

/-- Below a number that is used, the search comes to a free one without passing over another. -/
theorem Picked.reached {has : Int → Prop} (picked : Picked has v) (free : ¬ has (if v = -1 then 0 else v))
    (later : ∃ k, (if v = -1 then 0 else v) < k ∧ has k) :
    Full has (if v = -1 then 0 else v) ∨ (if v = -1 then 0 else v) = 0 ∧ Full has (-1) := by
  obtain ⟨k, above, used⟩ := later
  cases picked with
  | nothing empty => exact absurd used (empty k)
  | front some positive =>
    refine Or.inl fun j below ⟨i, low, there⟩ => ?_
    have negative : j < 0 := below
    exact absurd (positive i there) (by omega)
  | gap before missing _ full start =>
    by_cases special : v = -1
    · subst special
      exact Or.inr ⟨rfl, full⟩
    · rw [if_neg special]
      exact Or.inl full
  | last here greatest full start =>
    by_cases special : v = -1
    · subst special
      have behind := greatest k used
      rw [if_pos rfl] at above
      omega
    · rw [if_neg special] at free
      exact absurd here free

theorem appendFd_inserted (sorted : s.Sorted ptrs) (pid hostFd : Int) (proper : target ≠ 0) :
    ∃ v t, Picked (s.Has ptrs pid) v ∧
      Returns (fun fuel => s.appendFd fuel pid hostFd target) (if v = -1 then 0 else v, t) ∧
      (∃ code, Returns (fun fuel => s.insertFd fuel pid hostFd (if v = -1 then 0 else v) target) (code, t)) ∧
      Inserted s pid hostFd (if v = -1 then 0 else v) target ptrs t := by
  obtain ⟨v, scans, picked⟩ := append_picks sorted pid
  obtain ⟨code, t, returns, inserted⟩ := insertFd_inserted sorted pid hostFd (if v = -1 then 0 else v) proper
  refine ⟨v, t, picked, ⟨ptrs.length, fun fuel enough => ?_⟩, ⟨code, ptrs.length, returns⟩, inserted⟩
  simp only [appendFd, scans fuel enough, returns fuel enough, Option.map_some]

/-- The lookup stops at the first entry with the key. -/
theorem getHostFd_first (entries : s.Entries (pre ++ p :: post)) (here : s.key p = (pid, kFd))
    (before : ∀ x ∈ pre, s.key x ≠ (pid, kFd)) :
    Returns (fun fuel => s.getHostFd fuel pid kFd) (s.node p).hostFd := by
  refine ⟨(pre ++ p :: post).length, fun fuel enough => ?_⟩
  have found : (pre ++ p :: post).find? (fun p => (s.node p).pid == pid && (s.node p).kFd == kFd) = some p := by
    refine List.find?_eq_some_iff_append.mpr ⟨matching_iff.mpr here, pre, post, rfl, fun x hx => ?_⟩
    rw [Bool.not_eq_true', Bool.eq_false_iff]
    exact fun same => before x hx (matching_iff.mp same)
  have proper : p ≠ 0 := fun zero => entries.proper (zero ▸ List.mem_append_right pre List.mem_cons_self)
  simp only [getHostFd, follow_chain entries _ enough, found, Option.getD_some, if_neg proper]

/-- Linked in behind an entry that is not the last one of many, the new entry is found and nothing is lost. -/
theorem added_linkAfter (sorted : s.Sorted (pre ++ p :: post)) (proper : target ≠ 0) (fresh : target ∉ s.allocated)
    (hostFd : Int) (missing : ¬ s.Has (pre ++ p :: post) pid kFd) :
    let t := s.linkAfter p target (s.next p) ⟨pid, hostFd, kFd, 0⟩
    Returns (fun fuel => t.getHostFd fuel pid kFd) hostFd ∧ s.Added t target (pre ++ p :: post) := by
  have line : ∀ xs, pre ++ p :: xs = (pre ++ [p]) ++ xs := fun xs => List.append_cons pre p xs
  have outside : target ∉ pre ++ p :: post := fun member => fresh (sorted.allocated _ member)
  have entries := Entries.linkAfter sorted.entries ⟨pid, hostFd, kFd, 0⟩ outside proper
  have data : ∀ x ∈ pre ++ p :: post, _ := fun x hx =>
    linkAfter_data s p target (s.next p) ⟨pid, hostFd, kFd, 0⟩ fun same => outside (same ▸ hx)
  constructor
  · have host : ((s.linkAfter p target (s.next p) ⟨pid, hostFd, kFd, 0⟩).node target).hostFd = hostFd := by
      simp [linkAfter]
    rw [line] at entries
    have found := getHostFd_first entries (linkAfter_key s p target _ _) (fun x hx same => ?_)
    · rw [host] at found
      exact found
    · have inside : x ∈ pre ++ p :: post := line post ▸ List.mem_append_left post hx
      exact missing ⟨x, inside, (data x inside).1.symm.trans same⟩
  · exact ⟨⟨pre ++ [p], post, line post, line (target :: post) ▸ entries⟩, data⟩

/-- Into an empty list only 0 is inserted. -/
theorem added_first (hostFd : Int) (proper : target ≠ 0) :
    let t : FdState := ⟨target, Function.update s.node target ⟨pid, hostFd, 0, 0⟩, insert target s.allocated⟩
    Returns (fun fuel => t.getHostFd fuel pid 0) hostFd ∧ s.Added t target [] := by
  intro t
  have entries : t.Entries ([] ++ target :: []) := ⟨⟨rfl, by simp [t, Segment, next]⟩, by simpa using proper.symm⟩
  have host : (t.node target).hostFd = hostFd := by simp [t]
  have here : t.key target = (pid, 0) := by simp [t, key]
  have found := getHostFd_first entries here (List.forall_mem_nil _)
  rw [host] at found
  exact ⟨found, ⟨[], [], rfl, entries⟩, List.forall_mem_nil _⟩

/-- Where a further number of the process goes: behind the head, which then ends the list, in front
of the first larger one, or around the list. -/
theorem Inserted.places (inserted : Inserted s pid hostFd kFd target ptrs t) (sorted : s.Sorted ptrs)
    (missing : ¬ s.Has ptrs pid kFd) (some : ∃ k, s.Has ptrs pid k) :
    (∃ rest, ptrs = s.head :: rest ∧ (∀ k, s.Has ptrs pid k → k ≤ kFd) ∧
      t = s.linkAfter s.head target 0 ⟨pid, hostFd, kFd, 0⟩) ∨
    (∃ pre p q post, ptrs = pre ++ p :: q :: post ∧ (∀ x ∈ pre ++ [p], s.larger pid kFd x = false) ∧
      s.larger pid kFd q = true ∧ t = s.linkAfter p target q ⟨pid, hostFd, kFd, 0⟩) ∨
    (∃ pre last, ptrs = pre ++ [last] ∧ s.larger pid kFd s.head = true ∧
      t = s.linkAfter last target s.head ⟨pid, hostFd, kFd, 0⟩) := by
  obtain ⟨k, x, member, same⟩ := some
  cases inserted with
  | first => cases member
  | present member' matching => exact absurd ⟨_, member', matching.1⟩ missing
  | newProcess others => exact absurd (congrArg Prod.fst same) (others x member)
  | behindHead low _ =>
    obtain rfl := sorted.entries.head_eq
    exact Or.inl ⟨_, rfl, (low_iff pid kFd).mp low, rfl⟩
  | between low above _ => exact Or.inr (Or.inl ⟨_, _, _, _, rfl, low, above, rfl⟩)
  | cycle split above _ =>
    obtain rfl := sorted.entries.head_eq
    exact Or.inr (Or.inr ⟨_, _, split, above, rfl⟩)

theorem has_larger (above : s.larger pid kFd p = true) (member : p ∈ ptrs) : ∃ k, kFd < k ∧ s.Has ptrs pid k := by
  obtain ⟨own, above⟩ := larger_iff.mp above
  exact ⟨_, above, has_of_mem member own⟩

theorem allocates_of_reach (sorted : s.Sorted ptrs) (hostFd : Int) (proper : target ≠ 0) (fresh : target ∉ s.allocated)
    (reach : s.LowestInReach pid ptrs) : s.AllocatesLowest ptrs pid hostFd target := by
  obtain ⟨v, t, picked, returns, ⟨code, inserts⟩, inserted⟩ := appendFd_inserted sorted pid hostFd proper
  cases reach with
  | unused none =>
    have first : v = -1 := by
      cases picked with
      | nothing _ => rfl
      | front some _ => exact absurd some fun ⟨k, has⟩ => none k has
      | gap before _ _ _ _ => exact absurd before (none _)
      | last here _ _ _ => exact absurd here (none _)
    subst first
    have least : IsLeast {k | 0 ≤ k ∧ ¬ s.Has ptrs pid k} 0 := ⟨⟨Int.le_refl 0, none 0⟩, fun k free => free.1⟩
    cases List.eq_nil_or_concat' ptrs with
    | inl empty =>
      subst empty
      have nothing : s.head = 0 := sorted.entries.empty_iff.mpr rfl
      have made : Returns (fun fuel => s.insertFd fuel pid hostFd 0 target)
          (0, ⟨target, Function.update s.node target ⟨pid, hostFd, 0, 0⟩, insert target s.allocated⟩) := by
        refine ⟨0, fun fuel _ => ?_⟩
        simp only [insertFd, if_pos nothing, if_neg proper]
      obtain ⟨_, rfl⟩ := Prod.mk.inj (inserts.unique made)
      exact ⟨0, _, returns, least, added_first hostFd proper⟩
    | inr some =>
      obtain ⟨front, last, rfl⟩ := some
      have others : ∀ x ∈ front ++ [last], (s.node x).pid ≠ pid := fun x hx own => none _ (has_of_mem hx own)
      have ends : s.next last = 0 := sorted.entries.next_last
      have after := added_linkAfter sorted proper fresh hostFd (none 0)
      have same := Returns.unique inserts ⟨_, fun fuel enough =>
        insertFd_newProcess sorted.entries hostFd 0 others proper enough⟩
      rw [ends] at after
      obtain ⟨_, rfl⟩ := Prod.mk.inj same
      exact ⟨0, _, returns, least, after⟩
  | onlyMinusOne p single key =>
    subst single
    obtain ⟨own, number⟩ := Prod.mk.inj key
    have numbers : ∀ k, s.Has [p] pid k ↔ k = -1 := by
      intro k
      rw [has_single own, number, eq_comm]
    have first : v = -1 := (picked.single numbers).resolve_right fun positive => absurd positive.2 (by decide)
    subst first
    have free : ¬ s.Has [p] pid 0 := fun has => absurd ((numbers 0).mp has) (by decide)
    have least : IsLeast {k | 0 ≤ k ∧ ¬ s.Has [p] pid k} 0 := ⟨⟨Int.le_refl 0, free⟩, fun k member => member.1⟩
    have start : s.head = p := sorted.entries.head_eq
    have ends : s.next p = 0 := Chain.next_single sorted.entries
    have sorted' : s.Sorted ([] ++ p :: []) := sorted
    have after := added_linkAfter sorted' proper fresh hostFd free
    rw [ends] at after
    rcases inserted.places sorted free ⟨_, (numbers _).mpr rfl⟩ with ⟨_, _, _, rfl⟩ |
      ⟨pre, a, q, post, split, _⟩ | ⟨_, _, _, above, _⟩
    · exact ⟨0, _, returns, least, start.symm ▸ after⟩
    · have lengths := congrArg List.length split
      simp only [List.length_append, List.length_cons, List.length_nil] at lengths
      omega
    · obtain ⟨k, above, has⟩ := has_larger above (start ▸ List.mem_cons_self : s.head ∈ [p])
      exact absurd ((numbers k).mp has ▸ above) (by decide)
  | gap m least later reached head =>
    have number := picked.eq_least least later reached
    rw [number] at returns inserted
    have free := least.1.2
    obtain ⟨k, above, used⟩ := later
    rcases inserted.places sorted free ⟨k, used⟩ with
      ⟨_, _, low, _⟩ | ⟨pre, p, q, post, rfl, _, _, rfl⟩ | ⟨_, _, _, larger, _⟩
    · exact absurd (low k used) (Int.not_le.mpr above)
    · have links : s.next p = q := (Chain.suffix sorted.entries).2.head_eq
      exact ⟨m, _, returns, least, links ▸ added_linkAfter sorted proper fresh hostFd free⟩
    · obtain ⟨own, larger⟩ := larger_iff.mp larger
      exact absurd (head own) (Int.not_lt.mpr (Int.le_of_lt larger))

/-- Whatever list it leaves, one with all the old entries comes from a gap that was in reach. -/
theorem reach_of_allocates (sorted : s.Sorted ptrs) (hostFd : Int) (proper : target ≠ 0) (fresh : target ∉ s.allocated)
    (allocates : s.AllocatesLowest ptrs pid hostFd target) : s.LowestInReach pid ptrs := by
  obtain ⟨v, t, picked, returns, _, inserted⟩ := appendFd_inserted sorted pid hostFd proper
  obtain ⟨k, t', returns', least, _, added⟩ := allocates
  obtain ⟨rfl, rfl⟩ := Prod.mk.inj (returns'.unique returns)
  obtain ⟨⟨front, back, line, entries⟩, _⟩ := added
  by_cases some : ∃ k, s.Has ptrs pid k
  · have free := least.1.2
    have outside : target ∉ ptrs := fun member => fresh (sorted.allocated _ member)
    rcases inserted.places sorted free some with
      ⟨rest, split, low, rfl⟩ | ⟨pre, p, q, post, split, low, above, rfl⟩ | ⟨pre, last, split, above, rfl⟩
    · have chain : s.Entries (s.head :: rest) := split ▸ sorted.entries
      have whole := entries.unique (entries_behindHead chain (split ▸ outside) proper)
      -- two entries are left: the old list had one
      have lengths := congrArg List.length whole
      have old := congrArg List.length (line.symm.trans split)
      simp only [List.length_append, List.length_cons, List.length_nil] at lengths old
      obtain rfl : rest = [] := List.eq_nil_of_length_eq_zero (by omega)
      subst split
      obtain ⟨k, x, member, same⟩ := some
      obtain rfl := List.mem_singleton.mp member
      obtain ⟨own, _⟩ := Prod.mk.inj same
      have numbers : ∀ k, s.Has [s.head] pid k ↔ k = (s.node s.head).kFd := fun k =>
        (has_single own k).trans eq_comm
      refine .onlyMinusOne s.head rfl ?_
      have minusOne : (s.node s.head).kFd = -1 := by
        by_contra other
        rcases picked.single numbers with rfl | ⟨rfl, positive⟩
        · rw [if_neg other] at free
          exact free ((numbers _).mpr rfl)
        · exact absurd (low _ ((numbers _).mpr rfl)) (Int.not_le.mpr positive)
      rw [key, own, minusOne]
    · have member : q ∈ ptrs := split ▸ by simp
      have later := has_larger above member
      refine .gap _ least later (picked.reached free later) fun own => ?_
      have inside : s.head ∈ pre ++ [p] := by
        have chain := sorted.entries
        rw [split] at chain
        exact chain.head_mem
      have most := not_larger_iff.mp (low _ inside) own
      have listed : s.head ∈ ptrs := by
        rw [split, List.append_cons]
        exact List.mem_append_left _ inside
      exact lt_of_le_of_ne most fun same => free (same ▸ has_of_mem listed own)
    · have chain : s.Entries (pre ++ [last]) := split ▸ sorted.entries
      exact absurd entries (not_entries_of_cycle chain (split ▸ outside) proper)
  · exact .unused fun k has => some ⟨k, has⟩

/-- `append_fd` hands out the lowest free number exactly when its search can reach it. -/
theorem appendFd_lowest_iff (sorted : s.Sorted ptrs) (hostFd : Int) (proper : target ≠ 0)
    (fresh : target ∉ s.allocated) :
    s.AllocatesLowest ptrs pid hostFd target ↔ s.LowestInReach pid ptrs :=
  ⟨reach_of_allocates sorted hostFd proper fresh, allocates_of_reach sorted hostFd proper fresh⟩

theorem single_sorted : single.Sorted [0x100] :=
  ⟨single_entries, by simp [single], List.pairwise_singleton _ _⟩

theorem fresh_for_single : (0x140 : Word) ∉ single.allocated := by simp [single]

theorem appendFd_lowest_iff_single :
    single.AllocatesLowest [0x100] 2 6 0x140 ↔ single.LowestInReach 2 [0x100] :=
  appendFd_lowest_iff single_sorted 6 (by decide) fresh_for_single

/-- The second file of a process gets the number of the first. -/
theorem appendFd_takes_used : single.Sorted [0x100] ∧ (0x140 : Word) ≠ 0 ∧ 0x140 ∉ single.allocated ∧
    single.Has [0x100] 1 0 ∧ (∃ t, Returns (fun fuel => single.appendFd fuel 1 6 0x140) (0, t)) ∧
    ¬ single.AllocatesLowest [0x100] 1 6 0x140 := by
  have used : single.Has [0x100] 1 0 := ⟨0x100, List.mem_cons_self, rfl⟩
  have returns : Returns (fun fuel => single.appendFd fuel 1 6 0x140)
      (0, single.linkAfter 0x100 0x140 0 ⟨1, 6, 0, 0⟩) := by
    refine ⟨3, fun fuel enough => ?_⟩
    obtain ⟨spare, rfl⟩ : ∃ spare, fuel = spare + 3 := ⟨fuel - 3, by omega⟩
    rfl
  refine ⟨single_sorted, by decide, fresh_for_single, used, ⟨_, returns⟩, ?_⟩
  rintro ⟨k, t, returns', least, _⟩
  obtain ⟨rfl, _⟩ := Prod.mk.inj (returns'.unique returns)
  exact least.1.2 used

end FdState

end RealmVm
