import Mathlib.Init

/-! Runs of a labelled transition relation and the induction principles over them.
Nothing here mentions a particular system: states and labels are arbitrary types. -/
namespace Lib

universe u v w

/-- `Run step s as t`: the labels `as`, taken in order from `s`, lead to `t`. -/
inductive Run {S : Type u} {A : Type v} (step : S → A → S → Prop) : S → List A → S → Prop where
  | nil (s : S) : Run step s [] s
  | cons {s t r : S} {a : A} {rest : List A} :
      step s a t → Run step t rest r → Run step s (a :: rest) r

namespace Run

variable {S : Type u} {A : Type v} {step : S → A → S → Prop}

theorem mono {step' : S → A → S → Prop} {s t : S} {as : List A} (run : Run step s as t)
    (implied : ∀ s a t, step s a t → step' s a t) : Run step' s as t := by
  induction run with
  | nil s => exact .nil s
  | cons head _ ih => exact .cons (implied _ _ _ head) ih

/-- What every step preserves, every run preserves. -/
theorem invariant {I : S → Prop} (preserved : ∀ s a t, I s → step s a t → I t)
    {s t : S} {as : List A} (run : Run step s as t) (initial : I s) : I t := by
  induction run with
  | nil => exact initial
  | cons head _ ih => exact ih (preserved _ _ _ initial head)

theorem functional (unique : ∀ s a t t', step s a t → step s a t' → t = t') {s t t' : S}
    {as : List A} (first : Run step s as t) (second : Run step s as t') : t = t' := by
  induction first with
  | nil =>
    cases second with
    | nil => rfl
  | cons head _ ih =>
    cases second with
    | cons head' rest' =>
      obtain rfl := unique _ _ _ _ head head'
      exact ih rest'

theorem append {s t r : S} {as bs : List A} (first : Run step s as t) (second : Run step t bs r) :
    Run step s (as ++ bs) r := by
  induction first with
  | nil => exact second
  | cons head _ ih => exact .cons head (ih second)

end Run

/-- Every step of the run of `next` over the labels meets `P`. -/
def Along {S : Type u} {A : Type v} (next : S → A → S) (P : S → A → Prop) : S → List A → Prop
  | _, [] => True
  | s, a :: rest => P s a ∧ Along next P (next s a) rest

/-- Two conditions on a step that agree where `I` and `R` hold agree along every run whose
steps meet `R`, when the second keeps `I`. -/
theorem along_iff_of {S : Type u} {A : Type v} {next : S → A → S} {P Q R : S → A → Prop} {I : S → Prop}
    (same : ∀ s a, I s → R s a → (P s a ↔ Q s a)) (kept : ∀ s a, I s → R s a → Q s a → I (next s a)) {s : S}
    (initial : I s) (labels : List A) (given : Along next R s labels) :
    Along next P s labels ↔ Along next Q s labels := by
  induction labels generalizing s with
  | nil => exact Iff.rfl
  | cons a rest ih =>
    obtain ⟨allowed, others⟩ := given
    constructor
    · rintro ⟨here, later⟩
      have meets := (same s a initial allowed).mp here
      exact ⟨meets, (ih (kept s a initial allowed meets) others).mp later⟩
    · rintro ⟨meets, later⟩
      exact ⟨(same s a initial allowed).mpr meets, (ih (kept s a initial allowed meets) others).mpr later⟩

theorem along_true {S : Type u} {A : Type v} (next : S → A → S) (s : S) (labels : List A) :
    Along next (fun _ _ => True) s labels := by
  induction labels generalizing s with
  | nil => exact trivial
  | cons a rest ih => exact ⟨trivial, ih (next s a)⟩

theorem along_iff {S : Type u} {A : Type v} {next : S → A → S} {P Q : S → A → Prop} {I : S → Prop}
    (same : ∀ s a, I s → (P s a ↔ Q s a)) (kept : ∀ s a, I s → Q s a → I (next s a)) {s : S} (initial : I s)
    (labels : List A) : Along next P s labels ↔ Along next Q s labels :=
  along_iff_of (fun s a holds _ => same s a holds) (fun s a holds _ => kept s a holds) initial labels
    (along_true next s labels)

/-- `all` consists of the labels of `left` and those of `right`, each in their order. -/
inductive Interleaved {A : Type v} : List A → List A → List A → Prop where
  | nil : Interleaved [] [] []
  | left {a : A} {left right all : List A} : Interleaved left right all → Interleaved (a :: left) right (a :: all)
  | right {a : A} {left right all : List A} : Interleaved left right all → Interleaved left (a :: right) (a :: all)

theorem Interleaved.filterMap {A : Type v} {B : Type u} {f : A → Option B} {left right all : List A}
    (mixed : Interleaved left right all) (silent : ∀ a ∈ right, f a = none) :
    all.filterMap f = left.filterMap f := by
  induction mixed with
  | nil => rfl
  | left _ ih =>
    rw [List.filterMap_cons, List.filterMap_cons, ih silent]
  | right _ ih =>
    rw [List.filterMap_cons, silent _ (List.mem_cons_self ..)]
    exact ih fun a inside => silent a (List.mem_cons_of_mem _ inside)

theorem Interleaved.all_of {A : Type v} {P : A → Prop} {left right all : List A} (mixed : Interleaved left right all)
    (onLeft : ∀ a ∈ left, P a) (onRight : ∀ a ∈ right, P a) : ∀ a ∈ all, P a := by
  induction mixed with
  | nil => exact onLeft
  | left _ ih =>
    rw [List.forall_mem_cons] at onLeft ⊢
    exact ⟨onLeft.1, ih onLeft.2 onRight⟩
  | right _ ih =>
    rw [List.forall_mem_cons] at onRight ⊢
    exact ⟨onRight.1, ih onLeft onRight.2⟩

end Lib
