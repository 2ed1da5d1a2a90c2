import RealmVm.Vma.PageTable
import Mathlib.Tactic.Common

/-! The four tables as arrays of entries, and what one mapping does to them. -/
namespace RealmVm

open Lib.Bits

inductive Level where
  | pgd | pud | pmd | pt3
deriving DecidableEq

def TranslationTables.base (t : TranslationTables) : Level → Word
  | .pgd => t.pgd
  | .pud => t.pud
  | .pmd => t.pmd
  | .pt3 => t.pt3

def TranslationTables.vaBase (t : TranslationTables) : Level → Word
  | .pgd => t.vaPgd
  | .pud => t.vaPud
  | .pmd => t.vaPmd
  | .pt3 => t.vaPt3

/- `PGD_QUAD_SIZE` and its siblings, in pages of 512 entries. -/
def kernelPages : Level → Nat
  | .pgd => 1
  | .pud => 1
  | .pmd => 32
  | .pt3 => 2048

/-- Page-aligned tables below 2^48 that do not overlap, each seen by the kernel at its
own pointer. -/
structure LaidOut (m : Memory) (t : TranslationTables) (pages : Level → Nat) : Prop where
  aligned : ∀ l, (t.base l).toNat % 4096 = 0
  bounded : ∀ l, (t.base l).toNat + pages l * 4096 ≤ 2 ^ 48
  apart : ∀ l l', l ≠ l' → (t.base l).toNat + pages l * 4096 ≤ (t.base l').toNat ∨
    (t.base l').toNat + pages l' * 4096 ≤ (t.base l).toNat
  visible : ∀ l i, i < pages l * 512 → m.pa (entryAddress (t.vaBase l) (BitVec.ofNat 64 i)) =
    entryAddress (t.base l) (BitVec.ofNat 64 i)

def entry (m : Memory) (t : TranslationTables) (l : Level) (i : Nat) : Word :=
  m.word (entryAddress (t.base l) (BitVec.ofNat 64 i))

/- The kernel's pointer to an entry. -/
def slot (t : TranslationTables) (l : Level) (i : Nat) : Word :=
  entryAddress (t.vaBase l) (BitVec.ofNat 64 i)

namespace LaidOut

variable {m : Memory} {t : TranslationTables} {pages : Level → Nat}

theorem of_pa {m' : Memory} (laid : LaidOut m t pages) (same : m'.pa = m.pa) :
    LaidOut m' t pages where
  aligned := laid.aligned
  bounded := laid.bounded
  apart := laid.apart
  visible := by rw [same]; exact laid.visible

theorem entryAddress_toNat (laid : LaidOut m t pages) {l : Level} {i : Nat}
    (hi : i < pages l * 512) :
    (entryAddress (t.base l) (BitVec.ofNat 64 i)).toNat = (t.base l).toNat + 8 * i := by
  have bounded := laid.bounded l
  unfold entryAddress
  bv_omega

theorem entryAddress_inj (laid : LaidOut m t pages) {l l' : Level} {i j : Nat}
    (hi : i < pages l * 512) (hj : j < pages l' * 512)
    (same : entryAddress (t.base l) (BitVec.ofNat 64 i) =
      entryAddress (t.base l') (BitVec.ofNat 64 j)) : l = l' ∧ i = j := by
  have left := laid.entryAddress_toNat hi
  have right := laid.entryAddress_toNat hj
  rw [same] at left
  cases decEq l l' with
  | isFalse different =>
    have apart := laid.apart l l' different
    omega
  | isTrue equal =>
    subst equal
    exact ⟨rfl, by omega⟩

theorem load (laid : LaidOut m t pages) {l : Level} {i : Nat} (hi : i < pages l * 512) :
    m.load (slot t l i) = entry m t l i := by
  rw [Memory.load, slot, laid.visible l i hi, entry]

theorem entry_store (laid : LaidOut m t pages) {l l' : Level} {i j : Nat}
    (hi : i < pages l * 512) (hj : j < pages l' * 512) (v : Word) :
    entry (m.store (slot t l i) v) t l' j = if l' = l ∧ j = i then v else entry m t l' j := by
  simp only [entry, Memory.store, slot, laid.visible l i hi]
  split
  · rename_i same
    rw [same.1, same.2, Function.update_self]
  · rename_i different
    exact Function.update_of_ne (fun h => different (laid.entryAddress_inj hj hi h)) _ _

theorem entry_linkLevel (laid : LaidOut m t pages) {l : Level} {i k j : Nat}
    (hi : i < pages l * 512) (hk : k < pages l * 512) (hj : j < pages l * 512) (table : Word) :
    entry (linkLevel m (slot t l i) (slot t l k) table) t l j =
      if j = k ∧ isValid (entry m t l i) = false then linkEntry (entry m t l i) table
      else entry m t l j := by
  simp only [linkLevel, laid.load hi]
  cases isValid (entry m t l i) with
  | true => simp
  | false => simp [laid.entry_store hk hj]

theorem entry_linkLevel_other (laid : LaidOut m t pages) {l l' : Level} {i k j : Nat}
    (hk : k < pages l * 512) (hj : j < pages l' * 512) (other : l' ≠ l) (table : Word) :
    entry (linkLevel m (slot t l i) (slot t l k) table) t l' j = entry m t l' j := by
  unfold linkLevel
  simp only
  split
  · rfl
  · rw [laid.entry_store hk hj, if_neg (fun h => other h.1)]

end LaidOut

@[simp] theorem linkLevel_pa (m : Memory) (r w table : Word) :
    (linkLevel m r w table).pa = m.pa := by
  simp only [linkLevel]
  split <;> rfl

/- Indices of an address at distance `i` from a start that is a multiple of 1 GB. -/
section Indices

variable {t : TranslationTables} {va : Word}

theorem which_toNat (t : TranslationTables) (va : Word) :
    ((va - t.startVa) / bytes1gb).toNat = (va - t.startVa).toNat / 2 ^ 30 ∧
      ((va - t.startVa) / bytes2mb).toNat = (va - t.startVa).toNat / 2 ^ 21 :=
  ⟨BitVec.toNat_udiv, BitVec.toNat_udiv⟩

theorem which512gb_eq (x : Word) : x / bytes512gb = 0 := by
  have zero : bytes512gb = 0 := by decide
  rw [zero]
  exact BitVec.udiv_zero

theorem offset_lt (va : Word) : (vaOffset48L0 va).toNat < 512 ∧ (vaOffset48L1 va).toNat < 512 := by
  constructor
  · rw [vaOffset48L0, toNat_field_eq _ _ _ (by decide)]
    exact Nat.mod_lt _ (by decide)
  · rw [vaOffset48L1, toNat_field_eq _ _ _ (by decide)]
    exact Nat.mod_lt _ (by decide)

/-- Neither test of `page_table_map` ever fails. -/
theorem tests_pass (t : TranslationTables) (va : Word) :
    ¬ 0 < (va - t.startVa) / bytes512gb ∧ ¬ 512 < vaOffset48L0 va := by
  have index := (offset_lt va).1
  constructor
  · rw [which512gb_eq]
    decide
  · bv_omega

theorem vaOffset48L2_toNat (va : Word) (start : t.startVa.toNat % 2 ^ 30 = 0) :
    (vaOffset48L2 va).toNat = (va - t.startVa).toNat / 2 ^ 21 % 512 := by
  rw [vaOffset48L2, toNat_field_eq _ _ _ (by decide)]
  bv_omega

theorem vaOffset48L3_toNat (va : Word) (start : t.startVa.toNat % 2 ^ 30 = 0) :
    (vaOffset48L3 va).toNat = (va - t.startVa).toNat / 2 ^ 12 % 512 := by
  rw [vaOffset48L3, toNat_field_eq _ _ _ (by decide)]
  bv_omega

theorem vaOffset48L0_first (start : t.startVa.toNat % 2 ^ 30 = 0)
    (near : (va - t.startVa).toNat < 2 ^ 30) : vaOffset48L0 va = vaOffset48L0 t.startVa := by
  apply BitVec.eq_of_toNat_eq
  rw [vaOffset48L0, vaOffset48L0, toNat_field_eq _ _ _ (by decide : 9 ≤ 64),
    toNat_field_eq _ _ _ (by decide : 9 ≤ 64)]
  bv_omega

theorem vaOffset48L1_toNat (start : t.startVa.toNat % 2 ^ 30 = 0) :
    (vaOffset48L1 va).toNat =
      (t.startVa.toNat / 2 ^ 30 + (va - t.startVa).toNat / 2 ^ 30) % 512 := by
  rw [vaOffset48L1, toNat_field_eq _ _ _ (by decide)]
  bv_omega

end Indices

end RealmVm
