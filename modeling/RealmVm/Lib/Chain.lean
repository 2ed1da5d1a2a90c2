import Mathlib.Data.List.Basic
import Mathlib.Data.List.Nodup
import Mathlib.Logic.Function.Basic

/-! Singly linked lists threaded through a successor function, with a distinguished end.
The node type is arbitrary; what the nodes carry is of no interest here. -/
namespace Lib

variable {P : Type}

/-- The nodes `xs`, linked in order, lead from `a` to `b`. -/
def Segment (next : P → P) : P → List P → P → Prop
  | a, [], b => a = b
  | a, x :: xs, b => a = x ∧ Segment next (next x) xs b

/-- A list that starts at `head` and ends with `stop`, which is no node. -/
structure Chain (next : P → P) (stop head : P) (xs : List P) : Prop where
  segment : Segment next head xs stop
  proper : stop ∉ xs

namespace Segment

variable {next : P → P} {a b c x : P} {xs ys : List P}

theorem append : Segment next a (xs ++ ys) c ↔ ∃ b, Segment next a xs b ∧ Segment next b ys c := by
  induction xs generalizing a with
  | nil => exact ⟨fun h => ⟨a, rfl, h⟩, fun ⟨_, same, h⟩ => same ▸ h⟩
  | cons x xs ih =>
    constructor
    · rintro ⟨rfl, rest⟩
      obtain ⟨b, first, second⟩ := ih.mp rest
      exact ⟨b, ⟨rfl, first⟩, second⟩
    · rintro ⟨b, ⟨rfl, first⟩, second⟩
      exact ⟨rfl, ih.mpr ⟨b, first, second⟩⟩

/-- A change of successors outside the segment does not matter. -/
theorem frame {next' : P → P} (segment : Segment next a xs b) (same : ∀ x ∈ xs, next' x = next x) :
    Segment next' a xs b := by
  induction xs generalizing a with
  | nil => exact segment
  | cons x xs ih =>
    obtain ⟨rfl, rest⟩ := segment
    refine ⟨rfl, ?_⟩
    rw [same a List.mem_cons_self]
    exact ih rest fun y hy => same y (List.mem_cons_of_mem a hy)

theorem snoc (segment : Segment next a (xs ++ [x]) b) : Segment next a xs x ∧ next x = b := by
  obtain ⟨_, first, rfl, last⟩ := append.mp segment
  exact ⟨first, last⟩

theorem split (segment : Segment next a (xs ++ x :: ys) b) :
    Segment next a xs x ∧ Segment next (next x) ys b := by
  obtain ⟨_, first, rfl, rest⟩ := append.mp segment
  exact ⟨first, rest⟩

/-- Two ways from one node to the end are the same way. -/
theorem unique {stop : P} (first : Segment next a xs stop) (second : Segment next a ys stop)
    (proper : stop ∉ xs) (proper' : stop ∉ ys) : xs = ys := by
  induction xs generalizing a ys with
  | nil =>
    cases ys with
    | nil => rfl
    | cons y ys =>
      obtain ⟨rfl, _⟩ := second
      cases first
      exact absurd List.mem_cons_self proper'
  | cons x xs ih =>
    obtain ⟨rfl, rest⟩ := first
    cases ys with
    | nil =>
      cases second
      exact absurd List.mem_cons_self proper
    | cons y ys =>
      obtain ⟨rfl, rest'⟩ := second
      rw [ih rest rest' (fun h => proper (List.mem_cons_of_mem _ h))
        (fun h => proper' (List.mem_cons_of_mem _ h))]

end Segment

namespace Chain

variable {next : P → P} {stop head p q : P} {xs pre post : List P}

theorem empty_iff (chain : Chain next stop head xs) : head = stop ↔ xs = [] := by
  cases xs with
  | nil => exact ⟨fun _ => rfl, fun _ => chain.segment⟩
  | cons x rest =>
    obtain ⟨rfl, _⟩ := chain.segment
    constructor
    · rintro rfl
      exact absurd List.mem_cons_self chain.proper
    · intro nothing
      cases nothing

theorem head_eq (chain : Chain next stop head (p :: post)) : head = p := chain.segment.1

theorem tail (chain : Chain next stop head (p :: post)) : Chain next stop (next p) post :=
  ⟨chain.segment.2, fun h => chain.proper (List.mem_cons_of_mem p h)⟩

theorem suffix (chain : Chain next stop head (pre ++ p :: post)) :
    Chain next stop p (p :: post) ∧ Chain next stop (next p) post := by
  obtain ⟨_, rest⟩ := chain.segment.split
  have proper : stop ∉ p :: post := fun h => chain.proper (List.mem_append_right pre h)
  exact ⟨⟨⟨rfl, rest⟩, proper⟩, ⟨rest, fun h => proper (List.mem_cons_of_mem p h)⟩⟩

theorem unique {ys : List P} (first : Chain next stop head xs) (second : Chain next stop head ys) :
    xs = ys :=
  first.segment.unique second.segment first.proper second.proper

theorem nodup (chain : Chain next stop head xs) : xs.Nodup := by
  induction xs generalizing head with
  | nil => exact List.nodup_nil
  | cons x xs ih =>
    have rest := chain.tail
    refine List.nodup_cons.mpr ⟨fun again => ?_, ih rest⟩
    -- from a repeated node the end would be at two distances
    obtain ⟨pre, post, rfl⟩ := List.append_of_mem again
    have whole : Chain next stop x (x :: (pre ++ x :: post)) := chain.head_eq ▸ chain
    have short := rest.suffix.1
    have equal := congrArg List.length (whole.unique short)
    simp only [List.length_cons, List.length_append] at equal
    omega

theorem next_last (chain : Chain next stop head (pre ++ [p])) : next p = stop :=
  chain.segment.snoc.2

theorem next_single (chain : Chain next stop head [p]) : next p = stop := by
  have whole : Chain next stop head ([] ++ [p]) := chain
  exact whole.next_last

theorem apart (chain : Chain next stop head (pre ++ p :: post)) {x : P} (hx : x ∈ pre ++ post) :
    x ≠ p := by
  rintro rfl
  exact (List.nodup_cons.mp (List.nodup_middle.mp chain.nodup)).1 hx

theorem head_mem (chain : Chain next stop head (pre ++ p :: post)) : head ∈ pre ++ [p] := by
  cases pre with
  | nil =>
    rw [chain.head_eq]
    exact List.mem_append_right _ List.mem_cons_self
  | cons y rest =>
    have first : Chain next stop head (y :: (rest ++ p :: post)) := chain
    rw [first.head_eq]
    exact List.mem_append_left _ List.mem_cons_self

/-- From in front of `p` the successor is at most `p`. -/
theorem next_mem (chain : Chain next stop head (pre ++ p :: post)) {x : P} (hx : x ∈ pre) :
    next x ∈ pre ++ [p] := by
  obtain ⟨a, b, rfl⟩ := List.append_of_mem hx
  have rest : Chain next stop (next x) (b ++ p :: post) := by
    rw [List.append_assoc, List.cons_append] at chain
    exact chain.suffix.2
  have inside := rest.head_mem
  rw [List.append_assoc]
  exact List.mem_append_right a (List.mem_cons_of_mem x inside)

theorem next_ne_stop (chain : Chain next stop head (pre ++ p :: post)) {x : P} (hx : x ∈ pre) :
    next x ≠ stop := by
  intro same
  have inside := chain.next_mem hx
  rw [same] at inside
  apply chain.proper
  simp only [List.mem_append, List.mem_cons, List.not_mem_nil, or_false] at inside ⊢
  tauto

/-- Only the node in front of `q` has `q` as its successor. -/
theorem next_ne (chain : Chain next stop head (pre ++ p :: q :: post)) {x : P} (hx : x ∈ pre) :
    next x ≠ q := by
  have front : pre ++ p :: q :: post = (pre ++ [p]) ++ q :: post := by simp
  have inside := chain.next_mem hx
  rw [front] at chain
  exact chain.apart (List.mem_append_left post inside)

theorem head_ne (chain : Chain next stop head (pre ++ p :: q :: post)) : head ≠ q := by
  have front : pre ++ p :: q :: post = (pre ++ [p]) ++ q :: post := by simp
  have inside := chain.head_mem
  rw [front] at chain
  exact chain.apart (List.mem_append_left post inside)

/-- What the successors lead to in front of the end is a node. -/
theorem reaches {ys : List P} (chain : Chain next stop head xs) (way : Segment next head ys p) (inner : stop ∉ ys)
    (proper : p ≠ stop) : p ∈ xs := by
  induction ys generalizing head xs with
  | nil =>
    obtain rfl : head = p := way
    cases xs with
    | nil => exact absurd (chain.empty_iff.mpr rfl) proper
    | cons x rest => exact chain.head_eq ▸ List.mem_cons_self
  | cons y ys ih =>
    obtain ⟨rfl, later⟩ := way
    cases xs with
    | nil => exact absurd (chain.empty_iff.mpr rfl ▸ List.mem_cons_self) inner
    | cons x rest =>
      obtain rfl := chain.head_eq
      exact List.mem_cons_of_mem _ (ih chain.tail later fun member => inner (List.mem_cons_of_mem _ member))

/-- No node leads back to the first. -/
theorem next_ne_head (chain : Chain next stop head xs) {x : P} (hx : x ∈ xs) : next x ≠ head := by
  intro back
  obtain ⟨a, b, rfl⟩ := List.append_of_mem hx
  have rest : Chain next stop head b := back ▸ chain.suffix.2
  have equal := congrArg List.length (chain.unique rest)
  simp only [List.length_append, List.length_cons] at equal
  omega

/-- Where the nodes `ys` lead back to the head there is no list. -/
theorem not_of_loop {ys : List P} (around : Segment next head ys head) (proper : stop ∉ ys) (some : ys ≠ []) :
    ¬ Chain next stop head xs := by
  intro chain
  have longer : Chain next stop head (ys ++ xs) := by
    refine ⟨Segment.append.mpr ⟨head, around, chain.segment⟩, fun member => ?_⟩
    exact (List.mem_append.mp member).elim proper chain.proper
  have equal := congrArg List.length (longer.unique chain)
  rw [List.length_append] at equal
  have nothing : ys.length = 0 := by omega
  exact some (List.eq_nil_of_length_eq_zero nothing)

theorem frame {next' : P → P} (chain : Chain next stop head xs) (same : ∀ x ∈ xs, next' x = next x) :
    Chain next' stop head xs :=
  ⟨chain.segment.frame same, chain.proper⟩

/-- Links a fresh node in behind `p`. -/
theorem insertAfter {fresh : P} (chain : Chain next stop head (pre ++ p :: post))
    (new : fresh ∉ pre ++ p :: post) (proper : fresh ≠ stop) {next' : P → P}
    (atFresh : next' fresh = next p) (atNode : next' p = fresh)
    (same : ∀ x ∈ pre ++ post, next' x = next x) :
    Chain next' stop head (pre ++ p :: fresh :: post) := by
  obtain ⟨first, rest⟩ := chain.segment.split
  refine ⟨Segment.append.mpr ⟨p, first.frame fun x hx => same x (List.mem_append_left post hx), rfl, ?_⟩, ?_⟩
  · rw [atNode]
    refine ⟨rfl, ?_⟩
    rw [atFresh]
    exact rest.frame fun x hx => same x (List.mem_append_right pre hx)
  · intro member
    have older : stop ∈ pre ++ p :: post ∨ stop = fresh := by
      simp only [List.mem_append, List.mem_cons] at member ⊢
      tauto
    rcases older with old | rfl
    · exact chain.proper old
    · exact proper rfl

/-- Takes `q` out by linking its predecessor to its successor. -/
theorem unlink (chain : Chain next stop head (pre ++ p :: q :: post)) {next' : P → P}
    (atNode : next' p = next q) (same : ∀ x ∈ pre ++ post, next' x = next x) :
    Chain next' stop head (pre ++ p :: post) := by
  obtain ⟨first, _, rest⟩ := chain.segment.split
  refine ⟨Segment.append.mpr ⟨p, first.frame fun x hx => same x (List.mem_append_left post hx), rfl, ?_⟩, ?_⟩
  · rw [atNode]
    exact rest.frame fun x hx => same x (List.mem_append_right pre hx)
  · intro member
    apply chain.proper
    simp only [List.mem_append, List.mem_cons] at member ⊢
    tauto

end Chain

end Lib
