import RealmVm.Vma.Descriptors
import Mathlib.Logic.Function.Basic

/-! Memory as the table walker and the kernel see it, and the hardware walk itself.
Only 64-bit words at entry addresses are ever accessed here. -/
namespace RealmVm

open Lib.Bits

/- `pa` gives the physical address behind a kernel pointer; the walker reads physically. -/
structure Memory where
  word : Word → Word
  pa : Word → Word

def Memory.load (m : Memory) (va : Word) : Word := m.word (m.pa va)

def Memory.store (m : Memory) (va v : Word) : Memory :=
  { m with word := Function.update m.word (m.pa va) v }

def entryAddress (table offset : Word) : Word := table + 8 * offset

/- A page (shift 12) or block (shift 21 or 30) descriptor that ends a walk. -/
structure Leaf where
  desc : Word
  shift : Nat

/-- The four-level walk of the 4 KB granule. Level 0 has no blocks, level 3 only pages. -/
def walkLeaf (word : Word → Word) (pgd va : Word) : Option Leaf :=
  let l0 := word (entryAddress pgd (vaOffset48L0 va))
  if !isValid l0 || !isLink l0 then none
  else
    let l1 := word (entryAddress (nextLevelTableAddress l0) (vaOffset48L1 va))
    if !isValid l1 then none
    else if !isLink l1 then some ⟨l1, 30⟩
    else
      let l2 := word (entryAddress (nextLevelTableAddress l1) (vaOffset48L2 va))
      if !isValid l2 then none
      else if !isLink l2 then some ⟨l2, 21⟩
      else
        let l3 := word (entryAddress (nextLevelTableAddress l2) (vaOffset48L3 va))
        if !isValid l3 || !isLink l3 then none else some ⟨l3, 12⟩

def Leaf.address (leaf : Leaf) (va : Word) : Word :=
  field leaf.desc leaf.shift (48 - leaf.shift) <<< leaf.shift ||| field va 0 leaf.shift

def walk (word : Word → Word) (pgd va : Word) : Option Word :=
  (walkLeaf word pgd va).map fun leaf => leaf.address va

/-- A valid entry, if it is valid at all, links to `table`. -/
def LinksTo (entry table : Word) : Prop :=
  isValid entry = true → isLink entry = true ∧ nextLevelTableAddress entry = table

theorem linksTo_linkEntry (reg : Word) {table : Word} (aligned : table.toNat % 4096 = 0)
    (bounded : table.toNat < 2 ^ 48) : LinksTo (linkEntry reg table) table :=
  fun _ => ⟨isLink_linkEntry reg table,
    nextLevelTableAddress_linkEntry reg table aligned bounded⟩

/-- Along tables whose valid entries link as told, a walk reaches a page descriptor
exactly when all four entries are valid. -/
theorem walkLeaf_of_links {word : Word → Word} {pgd pud pmd pt3 va : Word}
    (first : LinksTo (word (entryAddress pgd (vaOffset48L0 va))) pud)
    (second : LinksTo (word (entryAddress pud (vaOffset48L1 va))) pmd)
    (third : LinksTo (word (entryAddress pmd (vaOffset48L2 va))) pt3) :
    walkLeaf word pgd va =
      if isValid (word (entryAddress pgd (vaOffset48L0 va))) &&
        isValid (word (entryAddress pud (vaOffset48L1 va))) &&
        isValid (word (entryAddress pmd (vaOffset48L2 va))) &&
        isValid (word (entryAddress pt3 (vaOffset48L3 va))) &&
        isLink (word (entryAddress pt3 (vaOffset48L3 va)))
      then some ⟨word (entryAddress pt3 (vaOffset48L3 va)), 12⟩ else none := by
  cases valid₀ : isValid (word (entryAddress pgd (vaOffset48L0 va))) with
  | false => simp [walkLeaf, valid₀]
  | true =>
    obtain ⟨link₀, next₀⟩ := first valid₀
    cases valid₁ : isValid (word (entryAddress pud (vaOffset48L1 va))) with
    | false => simp [walkLeaf, valid₀, link₀, next₀, valid₁]
    | true =>
      obtain ⟨link₁, next₁⟩ := second valid₁
      cases valid₂ : isValid (word (entryAddress pmd (vaOffset48L2 va))) with
      | false => simp [walkLeaf, valid₀, link₀, next₀, valid₁, link₁, next₁, valid₂]
      | true =>
        obtain ⟨link₂, next₂⟩ := third valid₂
        cases valid₃ : isValid (word (entryAddress pt3 (vaOffset48L3 va))) <;>
          cases link₃ : isLink (word (entryAddress pt3 (vaOffset48L3 va))) <;>
          simp [walkLeaf, valid₀, link₀, next₀, valid₁, link₁, next₁, valid₂, link₂, next₂, valid₃, link₃]

end RealmVm
