import Mathlib.Data.Finset.Card

/-! An abstract allocator: a finite set of resources, some of them held by somebody.
That only resources of the pool are held is part of the type. -/
namespace Lib

structure Pool (α : Type) [DecidableEq α] where
  all : Finset α
  held : Finset α
  within : held ⊆ all

namespace Pool

variable {α : Type} [DecidableEq α]

def free (p : Pool α) : Finset α := p.all \ p.held

def empty (all : Finset α) : Pool α := ⟨all, ∅, Finset.empty_subset all⟩

/-- Hands out resources that were free. -/
def take (p : Pool α) (fresh : Finset α) (available : fresh ⊆ p.free) : Pool α where
  all := p.all
  held := p.held ∪ fresh
  within := Finset.union_subset p.within (available.trans Finset.sdiff_subset)

def giveBack (p : Pool α) (a : α) : Pool α where
  all := p.all
  held := p.held.erase a
  within := (Finset.erase_subset a p.held).trans p.within

@[simp] theorem held_take (p : Pool α) (fresh : Finset α) (available : fresh ⊆ p.free) :
    (p.take fresh available).held = p.held ∪ fresh := rfl

@[simp] theorem held_giveBack (p : Pool α) (a : α) : (p.giveBack a).held = p.held.erase a := rfl

theorem mem_free {p : Pool α} {a : α} : a ∈ p.free ↔ a ∈ p.all ∧ a ∉ p.held :=
  Finset.mem_sdiff

@[simp] theorem free_empty (all : Finset α) : (empty all).free = all :=
  Finset.sdiff_empty

theorem card_free_add_held (p : Pool α) : p.free.card + p.held.card = p.all.card :=
  Finset.card_sdiff_add_card_eq_card p.within

theorem free_disjoint_held (p : Pool α) : Disjoint p.free p.held :=
  Finset.sdiff_disjoint

theorem card_free_take (p : Pool α) (fresh : Finset α) (available : fresh ⊆ p.free) :
    (p.take fresh available).free.card + fresh.card = p.free.card := by
  have same : (p.take fresh available).free = p.free \ fresh := by
    ext a
    simp only [mem_free, take, Finset.mem_union, Finset.mem_sdiff]
    tauto
  rw [same]
  exact Finset.card_sdiff_add_card_eq_card available

theorem take_empty (p : Pool α) (available : ∅ ⊆ p.free) : p.take ∅ available = p := by
  simp only [take, Finset.union_empty]

theorem card_free_giveBack (p : Pool α) {a : α} (held : a ∈ p.held) :
    (p.giveBack a).free.card = p.free.card + 1 := by
  have same : (p.giveBack a).free = insert a p.free := by
    ext b
    have inside : a ∈ p.all := p.within held
    by_cases hb : b = a
    · subst hb
      simp [mem_free, giveBack, inside]
    · simp [mem_free, giveBack, hb]
  have fresh : a ∉ p.free := fun h => (mem_free.mp h).2 held
  rw [same, Finset.card_insert_of_notMem fresh]

end Pool

end Lib
