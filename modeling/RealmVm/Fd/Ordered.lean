import RealmVm.Fd.Refinement

/-! The order of the list, and what each call does to it. -/
namespace RealmVm

open Lib

/-- The entries of one process come with growing keys. -/
def Ascending (keys : List (Int × Int)) : Prop := keys.Pairwise fun a b => a.1 = b.1 → a.2 < b.2

theorem Ascending.nodup {keys : List (Int × Int)} (ascending : Ascending keys) : keys.Nodup := by
  apply List.Pairwise.imp _ ascending
  rintro a b smaller rfl
  exact absurd (smaller rfl) (Int.lt_irrefl _)

theorem Ascending.insert {before after : List (Int × Int)} {k : Int × Int} (ascending : Ascending (before ++ after))
    (low : ∀ a ∈ before, a.1 = k.1 → a.2 < k.2) (high : ∀ b ∈ after, b.1 = k.1 → k.2 < b.2) :
    Ascending (before ++ k :: after) := by
  obtain ⟨first, second, across⟩ := List.pairwise_append.mp ascending
  have behind : Ascending (k :: after) :=
    List.pairwise_cons.mpr ⟨fun b member same => high b member same.symm, second⟩
  refine List.pairwise_append.mpr ⟨first, behind, fun a member b member' => ?_⟩
  cases List.mem_cons.mp member' with
  | inl here => exact here ▸ low a member
  | inr later => exact across a member b later

namespace FdState

variable {s t : FdState} {ptrs : List Word} {pid hostFd kFd : Int} {target : Word}

/-- What every traversal relies on. -/
structure Ordered (s : FdState) (ptrs : List Word) : Prop where
  entries : s.Entries ptrs
  once : (ptrs.map s.key).Nodup
  ascending : Ascending (ptrs.map s.key)

def WellFormed (s : FdState) : Prop := ∃ ptrs, s.Ordered ptrs

/-- An ordered list of allocated blocks. -/
structure Sorted (s : FdState) (ptrs : List Word) : Prop where
  entries : s.Entries ptrs
  allocated : ∀ p ∈ ptrs, p ∈ s.allocated
  ascending : Ascending (ptrs.map s.key)

theorem Sorted.wellFormed (sorted : s.Sorted ptrs) : s.WellFormed :=
  ⟨ptrs, sorted.entries, sorted.ascending.nodup, sorted.ascending⟩

/-- Insertions that leave the list ordered: of an entry that is there, into an empty list, or
not in front of the head. A key that is there under another host descriptor must be overwritten
by dropping the list behind the head. -/
def Placeable (s : FdState) (pid hostFd kFd : Int) (ptrs : List Word) : Prop :=
  ptrs = [] ∨ (∃ p ∈ ptrs, s.Matches pid hostFd kFd p) ∨
    s.larger pid kFd s.head = false ∧ ((∃ p ∈ ptrs, s.key p = (pid, kFd)) →
      s.key s.head ≠ (pid, kFd) ∧ ∀ p ∈ ptrs, s.larger pid kFd p = false)

/-- The tables that `insert_fd` leaves behind when it gets the block `target`. -/
inductive Inserted (s : FdState) (pid hostFd kFd : Int) (target : Word) : List Word → FdState → Prop where
  | first : Inserted s pid hostFd kFd target []
      ⟨target, Function.update s.node target ⟨pid, hostFd, 0, 0⟩, insert target s.allocated⟩
  | present {ptrs : List Word} {p : Word} (member : p ∈ ptrs) (matching : s.Matches pid hostFd kFd p) :
      Inserted s pid hostFd kFd target ptrs s
  | newProcess {pre : List Word} {last : Word} (others : ∀ x ∈ pre ++ [last], (s.node x).pid ≠ pid) :
      Inserted s pid hostFd kFd target (pre ++ [last]) (s.linkAfter last target 0 ⟨pid, hostFd, kFd, 0⟩)
  | behindHead {head : Word} {rest : List Word} (low : ∀ x ∈ head :: rest, s.larger pid kFd x = false)
      (absent : ∀ x ∈ head :: rest, ¬ s.Matches pid hostFd kFd x) :
      Inserted s pid hostFd kFd target (head :: rest) (s.linkAfter head target 0 ⟨pid, hostFd, kFd, 0⟩)
  | between {pre post : List Word} {p q : Word} (low : ∀ x ∈ pre ++ [p], s.larger pid kFd x = false)
      (above : s.larger pid kFd q = true) (absent : ∀ x ∈ pre ++ p :: q :: post, ¬ s.Matches pid hostFd kFd x) :
      Inserted s pid hostFd kFd target (pre ++ p :: q :: post) (s.linkAfter p target q ⟨pid, hostFd, kFd, 0⟩)
  | cycle {head last : Word} {rest pre : List Word} (split : head :: rest = pre ++ [last])
      (above : s.larger pid kFd head = true) (absent : ∀ x ∈ head :: rest, ¬ s.Matches pid hostFd kFd x) :
      Inserted s pid hostFd kFd target (head :: rest) (s.linkAfter last target head ⟨pid, hostFd, kFd, 0⟩)

theorem larger_iff {p : Word} : s.larger pid kFd p = true ↔ (s.node p).pid = pid ∧ kFd < (s.node p).kFd :=
  decide_eq_true_iff

theorem not_larger_iff {p : Word} :
    s.larger pid kFd p = false ↔ ((s.node p).pid = pid → (s.node p).kFd ≤ kFd) := by
  rw [larger, decide_eq_false_iff_not, not_and]
  exact forall_congr' fun _ => Int.not_lt

/-- Of two entries of one process the one in front has the smaller key. -/
theorem Sorted.in_front {pre post : List Word} {p x : Word} (sorted : s.Sorted (pre ++ p :: post)) (before : x ∈ pre)
    (same : (s.node x).pid = (s.node p).pid) : (s.node x).kFd < (s.node p).kFd := by
  have ascending := sorted.ascending
  rw [List.map_append, List.map_cons] at ascending
  obtain ⟨_, _, across⟩ := List.pairwise_append.mp ascending
  exact across _ (List.mem_map_of_mem before) _ List.mem_cons_self same

theorem Sorted.behind {pre post : List Word} {p x : Word} (sorted : s.Sorted (pre ++ p :: post)) (after : x ∈ post)
    (same : (s.node x).pid = (s.node p).pid) : (s.node p).kFd < (s.node x).kFd := by
  have ascending := sorted.ascending
  rw [List.map_append, List.map_cons] at ascending
  obtain ⟨_, inner, _⟩ := List.pairwise_append.mp ascending
  exact List.rel_of_pairwise_cons inner (List.mem_map_of_mem after) same.symm

/-- The scan stops at an entry that matches. -/
theorem insertScan_matches (sorted : s.Sorted ptrs) {p : Word} (member : p ∈ ptrs)
    (matching : s.Matches pid hostFd kFd p) {fuel : Nat} (enough : ptrs.length < fuel) :
    s.insertScan pid hostFd kFd fuel s.head false = some (.inl (-eexist)) := by
  have proper : ∀ x ∈ ptrs, x ≠ 0 := fun x hx zero => sorted.entries.proper (zero ▸ hx)
  cases found : ptrs.find? fun x => decide (s.Matches pid hostFd kFd x) with
  | none =>
    have missing := List.find?_eq_none.mp found p member
    exact absurd (decide_eq_true matching) missing
  | some q =>
    obtain ⟨here, pre, post, rfl, before⟩ := List.find?_eq_some_iff_append.mp found
    have here := matches_iff.mp (of_decide_eq_true here)
    have inner : ∀ x ∈ pre, x ∈ pre ++ q :: post := fun x hx => List.mem_append_left _ hx
    have low : ∀ x ∈ pre, s.larger pid kFd x = false := by
      intro x hx
      apply not_larger_iff.mpr
      intro same
      have smaller := sorted.in_front hx (same.trans here.1.symm)
      rw [here.2.2] at smaller
      exact Int.le_of_lt smaller
    simp only [List.length_append, List.length_cons] at enough
    obtain ⟨spare, rfl⟩ : ∃ spare, fuel = pre.length + (spare + 1) := ⟨fuel - pre.length - 1, by omega⟩
    rw [insertScan_skip sorted.entries.segment.split.1 (proper q (List.mem_append_right pre List.mem_cons_self))
      (fun x hx => proper x (inner x hx)) (fun x hx => by simpa using before x hx) low, insertScan]
    simp [here]

/-- The first entry of a process goes to the end of the list. -/
theorem insertFd_newProcess {pre : List Word} {last : Word} (entries : s.Entries (pre ++ [last])) (hostFd kFd : Int)
    (others : ∀ x ∈ pre ++ [last], (s.node x).pid ≠ pid) (proper : target ≠ 0) {fuel : Nat}
    (enough : (pre ++ [last]).length < fuel) :
    s.insertFd fuel pid hostFd kFd target = some (0, s.linkAfter last target 0 ⟨pid, hostFd, kFd, 0⟩) := by
  have some : pre ++ [last] ≠ [] := by simp
  have nonempty : s.head ≠ 0 := fun zero => some (entries.empty_iff.mp zero)
  have absent : ∀ p ∈ pre ++ [last], ¬ s.Matches pid hostFd kFd p := fun p hp matching =>
    others p hp (congrArg Prod.fst matching.1)
  have none : ((pre ++ [last]).any fun x => (s.node x).pid == pid) = false := by
    rw [List.any_eq_false]
    exact fun x hx same => others x hx (beq_iff_eq.mp same)
  rcases insertScan_spec entries some pid hostFd kFd absent with
    ⟨before, q, post, split, above, _⟩ | ⟨before, q, split, _, scan⟩
  · have member : q ∈ pre ++ [last] := split ▸ List.mem_append_right before List.mem_cons_self
    exact absurd (of_decide_eq_true above).1 (others q member)
  · obtain rfl := (List.cons.inj (List.append_inj_right' split rfl)).1
    rw [insertFd, if_neg nonempty, scan fuel enough, none]
    simp only [if_neg proper]
    rfl

/-- Every insertion with memory returns, and leaves one of the tables of `Inserted`. -/
theorem insertFd_inserted (sorted : s.Sorted ptrs) (pid hostFd kFd : Int) (proper : target ≠ 0) :
    ∃ code t, (∀ fuel, ptrs.length < fuel → s.insertFd fuel pid hostFd kFd target = some (code, t)) ∧
      Inserted s pid hostFd kFd target ptrs t := by
  cases ptrs with
  | nil =>
    have empty : s.head = 0 := sorted.entries.empty_iff.mpr rfl
    refine ⟨0, _, fun fuel _ => ?_, .first⟩
    rw [insertFd, if_pos empty, if_neg proper]
  | cons first rest =>
    have nonempty : s.head ≠ 0 := fun zero => absurd (sorted.entries.empty_iff.mp zero) (List.cons_ne_nil _ _)
    have start : s.head = first := sorted.entries.head_eq
    by_cases found : ∃ p ∈ first :: rest, s.Matches pid hostFd kFd p
    · obtain ⟨p, member, matching⟩ := found
      refine ⟨-eexist, _, fun fuel enough => ?_, .present member matching⟩
      rw [insertFd, if_neg nonempty, insertScan_matches sorted member matching enough]
    · have absent : ∀ p ∈ first :: rest, ¬ s.Matches pid hostFd kFd p := fun p hp matching => found ⟨p, hp, matching⟩
      rcases insertScan_spec sorted.entries (List.cons_ne_nil _ _) pid hostFd kFd absent with
        ⟨pre, q, post, split, above, low, scan⟩ | ⟨pre, last, split, low, scan⟩
      · cases pre.eq_nil_or_concat with
        | inl nothing =>
          subst nothing
          obtain ⟨rfl, rfl⟩ := List.cons.inj split
          obtain ⟨before, last, line⟩ : ∃ before last, first :: rest = before ++ [last] :=
            ⟨_, _, (List.dropLast_append_getLast (List.cons_ne_nil first rest)).symm⟩
          -- no entry has the head as its successor: the loop ends at the last one
          have place : ∀ fuel, (first :: rest).length < fuel →
              follow s.next (fun ptr => s.next ptr == 0 || first == 0 || s.next ptr == first) fuel s.head =
                some last := by
            intro fuel enough
            have chain := sorted.entries
            have notZero : first ≠ 0 := start ▸ nonempty
            rw [line] at chain enough
            simp only [List.length_append, List.length_cons, List.length_nil] at enough
            refine follow_segment chain.segment.snoc.1 (fun x hx => ?_) (by simp [chain.next_last]) (by omega)
            have back : s.next x ≠ first := start ▸ chain.next_ne_head (List.mem_append_left _ hx)
            simpa [back] using And.intro (chain.next_ne_stop hx) notZero
          refine ⟨0, _, fun fuel enough => ?_, .cycle line above absent⟩
          rw [insertFd, if_neg nonempty, scan fuel enough]
          simp only [if_true, place fuel enough, if_neg proper]
        | inr some =>
          obtain ⟨before, p, rfl⟩ := some
          have line : first :: rest = before ++ p :: q :: post := by
            rw [split, List.concat_eq_append, List.append_assoc, List.singleton_append]
          rw [List.concat_eq_append] at low
          rw [line] at sorted scan absent ⊢
          refine ⟨0, _, fun fuel enough => ?_, .between low above absent⟩
          rw [insertFd, if_neg nonempty, scan fuel enough]
          simp only [if_true, predecessor_found sorted.entries enough, if_neg proper]
      · by_cases own : (first :: rest).any (fun x => (s.node x).pid == pid) = true
        · refine ⟨0, _, fun fuel enough => ?_, .behindHead low absent⟩
          have place : follow s.next (fun ptr => s.next ptr == 0 || (0 : Word) == 0 || s.next ptr == 0) fuel s.head =
              some first := by
            cases fuel with
            | zero => cases enough
            | succ fuel => simp [follow, start]
          rw [insertFd, if_neg nonempty, scan fuel enough]
          simp only [own, if_true, place, if_neg proper]
        · have others : ∀ x ∈ pre ++ [last], (s.node x).pid ≠ pid := by
            intro x hx same
            exact own (List.any_eq_true.mpr ⟨x, split ▸ hx, beq_iff_eq.mpr same⟩)
          rw [split] at sorted ⊢
          exact ⟨0, _, fun fuel enough => insertFd_newProcess sorted.entries hostFd kFd others proper enough,
            .newProcess others⟩

section Outcome

variable {pre post rest : List Word} {p q head : Word} {e : FdEntry}

theorem linkAfter_keys (new : Word) (outside : target ∉ ptrs) :
    ptrs.map (s.linkAfter p target new e).key = ptrs.map s.key :=
  List.map_congr_left fun _ hx => (linkAfter_data s p target new e fun same => outside (same ▸ hx)).1

theorem Sorted.linkAfter (sorted : s.Sorted (pre ++ p :: post)) (pid hostFd kFd : Int) (proper : target ≠ 0)
    (fresh : target ∉ s.allocated)
    (low : ∀ x ∈ pre ++ [p], (s.node x).pid = pid → (s.node x).kFd < kFd)
    (high : ∀ x ∈ post, (s.node x).pid = pid → kFd < (s.node x).kFd) :
    (s.linkAfter p target (s.next p) ⟨pid, hostFd, kFd, 0⟩).Sorted (pre ++ p :: target :: post) := by
  have line : ∀ xs, pre ++ p :: xs = (pre ++ [p]) ++ xs := fun xs => List.append_cons pre p xs
  have outside : target ∉ pre ++ p :: post := fun member => fresh (sorted.allocated _ member)
  rw [line, List.mem_append, not_or] at outside
  constructor
  · apply Entries.linkAfter sorted.entries _ _ proper
    rw [line, List.mem_append, not_or]
    exact outside
  · intro x hx
    rw [line, List.mem_append, List.mem_cons] at hx
    have older : x = target ∨ x ∈ pre ++ p :: post := by
      rw [line, List.mem_append]
      tauto
    exact older.elim (fun same => Finset.mem_insert.mpr (Or.inl same))
      fun inside => Finset.mem_insert_of_mem (sorted.allocated x inside)
  · have ascending := sorted.ascending
    rw [line, List.map_append] at ascending
    rw [line, List.map_append, List.map_cons, linkAfter_keys _ outside.1, linkAfter_keys _ outside.2, linkAfter_key]
    refine ascending.insert (fun a member => ?_) (fun b member => ?_)
    · obtain ⟨x, hx, rfl⟩ := List.mem_map.mp member
      exact low x hx
    · obtain ⟨x, hx, rfl⟩ := List.mem_map.mp member
      exact high x hx

/-- The insertion behind the head: the rest of the list is gone. -/
theorem entries_behindHead (entries : s.Entries (head :: rest)) (outside : target ∉ head :: rest)
    (proper : target ≠ 0) :
    (s.linkAfter head target 0 e).Entries [head, target] := by
  have different : head ≠ target := fun same => outside (same ▸ List.mem_cons_self)
  have notZero : head ≠ 0 := fun zero => entries.proper (zero ▸ List.mem_cons_self)
  obtain ⟨atTarget, atHead, _⟩ := linkAfter_next s 0 e different
  constructor
  · exact ⟨entries.head_eq, atHead, atTarget⟩
  · simpa using And.intro notZero.symm proper.symm

/-- The insertion in front of the head: the last entry leads to the new one, and that to the head. -/
theorem not_entries_of_cycle {last : Word} (entries : s.Entries (pre ++ [last])) (outside : target ∉ pre ++ [last])
    (proper : target ≠ 0) : ¬ (s.linkAfter last target s.head e).Entries ptrs := by
  intro chain
  have different : last ≠ target := fun same => outside (same ▸ List.mem_append_right pre List.mem_cons_self)
  obtain ⟨atTarget, atLast, others⟩ := linkAfter_next s s.head e different
  have apart : ∀ x ∈ pre, x ≠ last := fun x hx => entries.apart (List.mem_append_left _ hx)
  have around : Segment (s.linkAfter last target s.head e).next s.head (pre ++ [last, target]) s.head := by
    refine Segment.append.mpr ⟨last, entries.segment.snoc.1.frame fun x hx => ?_, rfl, atLast, atTarget⟩
    exact others x (fun same => outside (same ▸ List.mem_append_left _ hx)) (apart x hx)
  have notZero : 0 ∉ pre ++ [last, target] := by
    have old := entries.proper
    simp only [List.mem_append, List.mem_cons, List.not_mem_nil, or_false] at old ⊢
    have apart : (0 : Word) ≠ target := proper.symm
    tauto
  exact Chain.not_of_loop around notZero (by simp) chain

theorem sorted_of_placeable (sorted : s.Sorted ptrs) (proper : target ≠ 0) (fresh : target ∉ s.allocated)
    (placeable : s.Placeable pid hostFd kFd ptrs) (inserted : Inserted s pid hostFd kFd target ptrs t) :
    ∃ ptrs', t.Sorted ptrs' := by
  cases inserted with
  | first =>
    refine ⟨[target], ⟨⟨rfl, by simp [Segment, next]⟩, by simpa using proper.symm⟩, by simp, ?_⟩
    exact List.pairwise_singleton _ _
  | present member matching => exact ⟨ptrs, sorted⟩
  | @newProcess pre last others =>
    have ends : s.next last = 0 := sorted.entries.next_last
    have after := sorted.linkAfter pid hostFd kFd proper fresh
      (fun x hx same => absurd same (others x hx)) (List.forall_mem_nil _)
    exact ⟨_, ends ▸ after⟩
  | @behindHead head rest low absent =>
    obtain empty | ⟨p, member, matching⟩ | ⟨_, dropped⟩ := placeable
    · cases empty
    · exact absurd matching (absent p member)
    · have outside : target ∉ head :: rest := fun member => fresh (sorted.allocated _ member)
      have start : s.head = head := sorted.entries.head_eq
      have here : head ∈ head :: rest := List.mem_cons_self
      refine ⟨[head, target], entries_behindHead sorted.entries outside proper, ?_, ?_⟩
      · intro x hx
        rcases List.mem_cons.mp hx with rfl | later
        · exact Finset.mem_insert_of_mem (sorted.allocated x here)
        · exact Finset.mem_insert.mpr (Or.inl (List.mem_singleton.mp later))
      · have smaller : (s.node head).pid = pid → (s.node head).kFd < kFd := by
          intro same
          apply lt_of_le_of_ne (not_larger_iff.mp (low head here) same)
          rintro rfl
          have equal : s.key head = (pid, (s.node head).kFd) := by rw [key, same]
          exact (dropped ⟨head, here, equal⟩).1 (start ▸ equal)
        have kept := (linkAfter_data s head target 0 ⟨pid, hostFd, kFd, 0⟩ fun same => outside (same ▸ here)).1
        rw [List.map_cons, List.map_singleton, kept, linkAfter_key]
        exact List.pairwise_pair.mpr smaller
  | @between pre post p q low above absent =>
    have member : q ∈ pre ++ p :: q :: post := by simp
    obtain empty | ⟨x, inside, matching⟩ | ⟨_, dropped⟩ := placeable
    · simp at empty
    · exact absurd matching (absent x inside)
    · have missing : ∀ x ∈ pre ++ p :: q :: post, s.key x ≠ (pid, kFd) := by
        intro x hx same
        have small := (dropped ⟨x, hx, same⟩).2 q member
        rw [above] at small
        cases small
      have line : pre ++ p :: q :: post = (pre ++ [p]) ++ q :: post := List.append_cons _ _ _
      have links : s.next p = q := (Chain.suffix sorted.entries).2.head_eq
      have above := larger_iff.mp above
      have after := sorted.linkAfter pid hostFd kFd proper fresh (fun x hx same => ?_) (fun x hx same => ?_)
      · exact ⟨_, links ▸ after⟩
      · apply lt_of_le_of_ne (not_larger_iff.mp (low x hx) same)
        rintro rfl
        exact missing x (line ▸ List.mem_append_left _ hx) (by rw [key, same])
      · rcases List.mem_cons.mp hx with rfl | later
        · exact above.2
        · rw [line] at sorted
          exact lt_trans above.2 (sorted.behind later (same.trans above.1.symm))
  | @cycle head last rest pre split above absent =>
    obtain empty | ⟨p, member, matching⟩ | ⟨low, _⟩ := placeable
    · cases empty
    · exact absurd matching (absent p member)
    · rw [sorted.entries.head_eq, above] at low
      cases low

/-- Only the insertions of `Placeable` leave the list well formed. -/
theorem placeable_of_wellFormed (sorted : s.Sorted ptrs) (proper : target ≠ 0) (fresh : target ∉ s.allocated)
    (inserted : Inserted s pid hostFd kFd target ptrs t) (wellFormed : t.WellFormed) :
    s.Placeable pid hostFd kFd ptrs := by
  cases inserted with
  | first => exact Or.inl rfl
  | present member matching => exact Or.inr (Or.inl ⟨_, member, matching⟩)
  | @newProcess pre last others =>
    refine Or.inr (Or.inr ⟨?_, ?_⟩)
    · have inside : s.head ∈ pre ++ [last] := Chain.head_mem sorted.entries
      exact not_larger_iff.mpr fun same => absurd same (others _ inside)
    · rintro ⟨x, hx, same⟩
      exact absurd (congrArg Prod.fst same) (others x hx)
  | @behindHead head rest low absent =>
    obtain ⟨xs, ordered⟩ := wellFormed
    have outside : target ∉ head :: rest := fun member => fresh (sorted.allocated _ member)
    have start : s.head = head := sorted.entries.head_eq
    have here : head ∈ head :: rest := List.mem_cons_self
    obtain rfl := ordered.entries.unique (entries_behindHead sorted.entries outside proper)
    have once := ordered.once
    have kept := (linkAfter_data s head target 0 ⟨pid, hostFd, kFd, 0⟩ fun same => outside (same ▸ here)).1
    rw [List.map_cons, List.map_singleton, kept, linkAfter_key] at once
    refine Or.inr (Or.inr ⟨start ▸ low head here, fun _ => ⟨?_, low⟩⟩)
    rintro same
    rw [start] at same
    rw [same] at once
    simp at once
  | @between pre post p q low above absent =>
    obtain ⟨xs, ordered⟩ := wellFormed
    have line : pre ++ p :: q :: post = (pre ++ [p]) ++ q :: post := List.append_cons _ _ _
    have outside : target ∉ pre ++ p :: q :: post := fun member => fresh (sorted.allocated _ member)
    have links : s.next p = q := (Chain.suffix sorted.entries).2.head_eq
    have after := links ▸ Entries.linkAfter sorted.entries ⟨pid, hostFd, kFd, 0⟩ outside proper
    obtain rfl := ordered.entries.unique after
    refine Or.inr (Or.inr ⟨low _ (Chain.head_mem sorted.entries), ?_⟩)
    rintro ⟨x, hx, same⟩
    have once := ordered.once
    rw [List.append_cons, List.map_append, List.map_cons, linkAfter_key] at once
    have apart := (List.nodup_cons.mp (List.nodup_middle.mp once)).1
    have kept := (linkAfter_data s p target q ⟨pid, hostFd, kFd, 0⟩ fun equal => outside (equal ▸ hx)).1
    rw [← List.map_append, ← line] at apart
    exact absurd (List.mem_map.mpr ⟨x, hx, kept.trans same⟩) apart
  | @cycle head last rest pre split above absent =>
    have start : s.head = head := sorted.entries.head_eq
    rw [split] at sorted
    have outside : target ∉ pre ++ [last] := fun member => fresh (sorted.allocated _ member)
    obtain ⟨xs, ordered⟩ := wellFormed
    exact absurd (start ▸ ordered.entries) (not_entries_of_cycle sorted.entries outside proper)

end Outcome

end FdState

end RealmVm
