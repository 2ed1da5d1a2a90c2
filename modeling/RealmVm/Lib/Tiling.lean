import Mathlib.Data.List.Basic
import Mathlib.Data.List.Chain
import Mathlib.Algebra.BigOperators.Group.List.Basic
import Mathlib.Algebra.GroupWithZero.Nat

/-! Items laid out one behind the other: each starts where the one before it ends. Items
may be split into two and joined with their successor. -/
namespace Lib

variable {P : Type} {place size size' : P → Nat}

/-- The items `xs` fill `[a, b)`, in order and without gaps. -/
def Tiles (place size : P → Nat) : Nat → List P → Nat → Prop
  | a, [], b => a = b
  | a, x :: xs, b => place x = a ∧ Tiles place size (a + size x) xs b

namespace Tiles

variable {a b : Nat} {x y : P} {xs ys pre post : List P}

theorem append : Tiles place size a (xs ++ ys) b ↔ ∃ c, Tiles place size a xs c ∧ Tiles place size c ys b := by
  induction xs generalizing a with
  | nil => exact ⟨fun h => ⟨a, rfl, h⟩, fun ⟨_, same, h⟩ => same ▸ h⟩
  | cons x xs ih =>
    constructor
    · rintro ⟨here, rest⟩
      obtain ⟨c, first, second⟩ := ih.mp rest
      exact ⟨c, ⟨here, first⟩, second⟩
    · rintro ⟨c, ⟨here, first⟩, second⟩
      exact ⟨here, ih.mpr ⟨c, first, second⟩⟩

theorem le (tiles : Tiles place size a xs b) : a ≤ b := by
  induction xs generalizing a with
  | nil => exact Nat.le_of_eq tiles
  | cons x xs ih => exact Nat.le_trans (Nat.le_add_right a (size x)) (ih tiles.2)

theorem bounds (tiles : Tiles place size a xs b) (member : x ∈ xs) : a ≤ place x ∧ place x + size x ≤ b := by
  obtain ⟨pre, post, rfl⟩ := List.append_of_mem member
  obtain ⟨c, first, here, rest⟩ := append.mp tiles
  have low := first.le
  have high := rest.le
  omega

/-- The items stand in the order of their places. -/
theorem ascending (tiles : Tiles place size a xs b) (positive : ∀ x ∈ xs, 0 < size x) :
    xs.Pairwise fun x y => place x < place y := by
  induction xs generalizing a with
  | nil => exact .nil
  | cons x xs ih =>
    obtain ⟨here, rest⟩ := tiles
    obtain ⟨some, others⟩ := List.forall_mem_cons.mp positive
    refine .cons (fun y member => ?_) (ih rest others)
    have low := (rest.bounds member).1
    omega

/-- Each item ends where the next one begins. -/
theorem adjoining (tiles : Tiles place size a xs b) : xs.IsChain fun x y => place x + size x = place y := by
  induction xs generalizing a with
  | nil => exact .nil
  | cons x xs ih =>
    obtain ⟨here, rest⟩ := tiles
    cases xs with
    | nil => exact .singleton x
    | cons y ys => exact .cons_cons (here ▸ rest.1.symm) (ih rest)

theorem sum_sizes (tiles : Tiles place size a xs b) : a + (xs.map size).sum = b := by
  induction xs generalizing a with
  | nil => exact tiles
  | cons x xs ih =>
    rw [List.map_cons, List.sum_cons, ← Nat.add_assoc]
    exact ih tiles.2

/-- Every place in the range belongs to an item. -/
theorem cover (tiles : Tiles place size a xs b) {n : Nat} (low : a ≤ n) (high : n < b) :
    ∃ x ∈ xs, place x ≤ n ∧ n < place x + size x := by
  induction xs generalizing a with
  | nil =>
    obtain rfl : a = b := tiles
    omega
  | cons x xs ih =>
    obtain ⟨here, rest⟩ := tiles
    by_cases inside : n < a + size x
    · exact ⟨x, List.mem_cons_self, by omega, by omega⟩
    · obtain ⟨y, member, bounds⟩ := ih rest (Nat.le_of_not_lt inside)
      exact ⟨y, List.mem_cons_of_mem x member, bounds⟩

/-- Different positions hold items that lie apart. -/
theorem apart (tiles : Tiles place size a (pre ++ x :: post) b) (member : y ∈ pre ++ post) :
    place y + size y ≤ place x ∨ place x + size x ≤ place y := by
  obtain ⟨c, first, here, rest⟩ := append.mp tiles
  cases List.mem_append.mp member with
  | inl before =>
    have bound := (first.bounds before).2
    omega
  | inr after =>
    have bound := (rest.bounds after).1
    omega

theorem congr (tiles : Tiles place size a xs b) (same : ∀ x ∈ xs, size' x = size x) : Tiles place size' a xs b := by
  induction xs generalizing a with
  | nil => exact tiles
  | cons x xs ih =>
    refine ⟨tiles.1, ?_⟩
    rw [same x List.mem_cons_self]
    exact ih tiles.2 fun y hy => same y (List.mem_cons_of_mem x hy)

/-- `x` keeps its front, and the rest of it becomes a new item. -/
theorem split (tiles : Tiles place size a (pre ++ x :: post) b) (front : place y = place x + size' x)
    (whole : size' x + size' y = size x) (same : ∀ z ∈ pre ++ post, size' z = size z) :
    Tiles place size' a (pre ++ x :: y :: post) b := by
  obtain ⟨c, first, here, rest⟩ := append.mp tiles
  refine append.mpr ⟨c, first.congr fun z hz => same z (List.mem_append_left post hz), here, by omega, ?_⟩
  have behind : c + size' x + size' y = c + size x := by omega
  rw [behind]
  exact rest.congr fun z hz => same z (List.mem_append_right pre hz)

/-- `x` takes over the item behind it. -/
theorem join (tiles : Tiles place size a (pre ++ x :: y :: post) b) (whole : size' x = size x + size y)
    (same : ∀ z ∈ pre ++ post, size' z = size z) : Tiles place size' a (pre ++ x :: post) b := by
  obtain ⟨c, first, here, next, rest⟩ := append.mp tiles
  refine append.mpr ⟨c, first.congr fun z hz => same z (List.mem_append_left post hz), here, ?_⟩
  rw [whole, ← Nat.add_assoc]
  exact rest.congr fun z hz => same z (List.mem_append_right pre hz)

end Tiles

end Lib
