import RealmVm.Lib.Chain

/-! Loops with fuel: what it means that one returns, and the loop that walks a chain. -/
namespace Lib

variable {P : Type}

/-- With enough fuel the computation gives `a`. -/
def Returns {A : Type} (f : Nat → Option A) (a : A) : Prop := ∃ n, ∀ fuel, n < fuel → f fuel = some a

theorem Returns.unique {A : Type} {f : Nat → Option A} {a b : A} (first : Returns f a)
    (second : Returns f b) : a = b := by
  obtain ⟨n, left⟩ := first
  obtain ⟨k, right⟩ := second
  have same := (left (n + k + 1) (by omega)).symm.trans (right (n + k + 1) (by omega))
  exact Option.some.inj same

theorem Returns.not_none {A : Type} {f : Nat → Option A} {a : A} (returned : Returns f a) :
    ¬ ∃ k, ∀ fuel, k < fuel → f fuel = none := by
  rintro ⟨k, crash⟩
  obtain ⟨n, result⟩ := returned
  cases (result (n + k + 1) (by omega)).symm.trans (crash (n + k + 1) (by omega))

/-- A loop that follows successors until `done` holds. `none` when the fuel runs out. -/
def follow (next : P → P) (done : P → Bool) : Nat → P → Option P
  | 0, _ => none
  | fuel + 1, a => if done a then some a else follow next done fuel (next a)

/-- More fuel gives the same node. -/
theorem follow_mono {next : P → P} {done : P → Bool} {fuel more : Nat} {a p : P} (enough : fuel ≤ more)
    (arrived : follow next done fuel a = some p) : follow next done more a = some p := by
  induction fuel generalizing more a with
  | zero => cases arrived
  | succ fuel ih =>
    cases more with
    | zero => cases enough
    | succ more =>
      rw [follow] at arrived ⊢
      cases here : done a with
      | true =>
        rw [here] at arrived
        exact arrived
      | false =>
        simp only [here, Bool.false_eq_true, if_false] at arrived ⊢
        exact ih (Nat.le_of_succ_le_succ enough) arrived

theorem follow_segment {next : P → P} {done : P → Bool} {a p : P} {xs : List P}
    (segment : Segment next a xs p) (going : ∀ x ∈ xs, done x = false) (arrived : done p = true)
    {fuel : Nat} (enough : xs.length < fuel) : follow next done fuel a = some p := by
  induction xs generalizing a fuel with
  | nil =>
    cases segment
    cases fuel with
    | zero => cases enough
    | succ fuel => rw [follow, if_pos arrived]
  | cons x xs ih =>
    obtain ⟨rfl, rest⟩ := segment
    cases fuel with
    | zero => cases enough
    | succ fuel =>
      have here := going a List.mem_cons_self
      rw [follow, here]
      exact ih rest (fun y hy => going y (List.mem_cons_of_mem a hy)) (Nat.lt_of_succ_lt_succ enough)

/-- A loop that stays among nodes that do not satisfy `done` never returns. -/
theorem follow_never (next : P → P) (done : P → Bool) {among : P → Prop} {a : P} (here : among a)
    (stays : ∀ x, among x → among (next x)) (going : ∀ x, among x → done x = false) (fuel : Nat) :
    follow next done fuel a = none := by
  induction fuel generalizing a with
  | zero => rfl
  | succ fuel ih =>
    rw [follow, going a here]
    exact ih (stays a here)

/-- Over a chain the loop stops at the first node that satisfies `found`, or at the end. -/
theorem follow_chain [DecidableEq P] {next : P → P} {stop head : P} {xs : List P}
    (chain : Chain next stop head xs) (found : P → Bool) {fuel : Nat} (enough : xs.length < fuel) :
    follow next (fun a => a == stop || found a) fuel head = some ((xs.find? found).getD stop) := by
  cases answer : xs.find? found with
  | none =>
    have missing := List.find?_eq_none.mp answer
    refine follow_segment chain.segment (fun x hx => ?_) (by simp) enough
    have other : x ≠ stop := fun same => chain.proper (same ▸ hx)
    simp [other, missing x hx]
  | some p =>
    obtain ⟨holds, pre, post, rfl, before⟩ := List.find?_eq_some_iff_append.mp answer
    refine follow_segment chain.segment.split.1 (fun x hx => ?_) (by simp [holds]) ?_
    · have other : x ≠ stop := fun same => chain.proper (same ▸ List.mem_append_left _ hx)
      have missed := before x hx
      simp only [Bool.not_eq_true'] at missed
      simp [other, missed]
    · simp only [List.length_append, List.length_cons] at enough
      omega

/-- A loop over rounds ends at the first round that stops, with what that round gives. -/
theorem returns_iff_first {A : Type} {a : A} (f : Nat → Nat → Option A) (stop : Nat → Prop) (out : Nat → Option A)
    (empty : ∀ i, f 0 i = none) (halt : ∀ fuel i, stop i → f (fuel + 1) i = out i)
    (go : ∀ fuel i, ¬ stop i → f (fuel + 1) i = f fuel (i + 1)) :
    Returns (fun fuel => f fuel 0) a ↔ ∃ k, (∀ i < k, ¬ stop i) ∧ stop k ∧ out k = some a := by
  constructor
  · rintro ⟨n, result⟩
    -- every round before the end of the fuel is passed or is the first that stops
    have reached : ∀ fuel i, f fuel i = some a →
        ∃ k, i ≤ k ∧ (∀ j, i ≤ j → j < k → ¬ stop j) ∧ stop k ∧ out k = some a := by
      intro fuel
      induction fuel with
      | zero =>
        intro i found
        exact absurd ((empty i).symm.trans found) nofun
      | succ fuel ih =>
        intro i found
        by_cases stops : stop i
        · have value := (halt fuel i stops).symm.trans found
          exact ⟨i, Nat.le_refl i, fun j low high => absurd high (Nat.not_lt.mpr low), stops, value⟩
        · obtain ⟨k, later, passed, last, value⟩ := ih (i + 1) ((go fuel i stops).symm.trans found)
          refine ⟨k, Nat.le_of_succ_le later, fun j low high => ?_, last, value⟩
          cases Nat.eq_or_lt_of_le low with
          | inl same => exact same ▸ stops
          | inr above => exact passed j above high
    obtain ⟨k, _, passed, last, value⟩ := reached (n + 1) 0 (result (n + 1) (Nat.lt_succ_self n))
    exact ⟨k, fun i before => passed i (Nat.zero_le i) before, last, value⟩
  · rintro ⟨k, passed, last, value⟩
    have reached : ∀ d i, i + d = k → ∀ fuel, d < fuel → f fuel i = some a := by
      intro d
      induction d with
      | zero =>
        intro i here fuel enough
        obtain rfl : i = k := here
        cases fuel with
        | zero => exact absurd enough (Nat.lt_irrefl 0)
        | succ fuel => exact (halt fuel i last).trans value
      | succ d ih =>
        intro i here fuel enough
        cases fuel with
        | zero => exact absurd enough (Nat.not_lt_zero _)
        | succ fuel =>
          have running := passed i (by omega)
          exact (go fuel i running).trans (ih (i + 1) (by omega) fuel (Nat.lt_of_succ_lt_succ enough))
    exact ⟨k, fun fuel enough => reached k 0 (Nat.zero_add k) fuel enough⟩

end Lib
