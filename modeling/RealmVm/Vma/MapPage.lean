import RealmVm.Vma.Tables

/-! What one `page_table_map` does to the entries of the four tables, for any capacity of
the tables and any address the level-3 tables have a slot for. -/
namespace RealmVm

open Lib.Bits

/-- Table sizes for which every 2 MB block of the window has its own level-3 table and
every 1 GB its own level-2 table. -/
structure Capacity (pages : Level → Nat) : Prop where
  pgd : pages .pgd = 1
  pud : pages .pud = 1
  pt3 : pages .pt3 ≤ 512 * pages .pmd
  pmd : pages .pmd ≤ 512
  window : pages .pt3 ≤ 2048

theorem capacity_kernelPages : Capacity kernelPages := by
  constructor <;> decide

/-- The entry `page_table_map` leaves where it finds `e`. -/
def linked (e table : Word) : Word := if isValid e then e else linkEntry e table

theorem linked_if {e : Nat → Word} {i k : Nat} {table : Word} :
    (if i = k ∧ isValid (e k) = false then linkEntry (e k) table else e i) =
      if i = k then linked (e i) table else e i := by
  cases decEq i k with
  | isTrue same =>
    subst same
    cases valid : isValid (e i) <;> simp [linked, valid]
  | isFalse other => simp [other]

def distance (t : TranslationTables) (va : Word) : Nat := (va - t.startVa).toNat

def tableOf (base : Word) (n : Nat) : Word := base + BitVec.ofNat 64 n * pageSize4KB

def l0Index (va : Word) : Nat := (vaOffset48L0 va).toNat
def l1Index (va : Word) : Nat := (vaOffset48L1 va).toNat

/- Where the level-2 link is written: in the first gigabyte this is the place it was read. -/
def pmdWriteIndex (d : Nat) : Nat := d / 2 ^ 21 % 512 + d / 2 ^ 30 * 512 / 4096

/-- The entries that one call reads and writes lie in the tables. -/
theorem Capacity.indices {t : TranslationTables} {pages : Level → Nat} (capacity : Capacity pages) {va : Word}
    (near : distance t va < pages .pt3 * 2 ^ 21) : l0Index va < pages .pgd * 512 ∧ l1Index va < pages .pud * 512 ∧
      distance t va / 2 ^ 21 < pages .pmd * 512 ∧ pmdWriteIndex (distance t va) < pages .pmd * 512 ∧
      distance t va / 2 ^ 12 < pages .pt3 * 512 := by
  obtain ⟨onePgd, onePud, enough, few, _⟩ := capacity
  have offsets := offset_lt va
  unfold l0Index l1Index pmdWriteIndex
  omega

theorem pmdWriteIndex_first {d : Nat} (first : d < 2 ^ 30) : pmdWriteIndex d = d / 2 ^ 21 := by
  unfold pmdWriteIndex
  omega

structure PageMapped (m : Memory) (t : TranslationTables) (pages : Level → Nat)
    (va pa : Word) (flags isDev : CInt) (m' : Memory) : Prop where
  pa_eq : m'.pa = m.pa
  pgd : ∀ i < 512, entry m' t .pgd i =
    if i = l0Index va then linked (entry m t .pgd i) t.pud else entry m t .pgd i
  pud : ∀ i < 512, entry m' t .pud i =
    if i = l1Index va then linked (entry m t .pud i) (tableOf t.pmd (distance t va / 2 ^ 30))
    else entry m t .pud i
  pmd : ∀ i < pages .pmd * 512, entry m' t .pmd i =
    if i = pmdWriteIndex (distance t va) ∧ isValid (entry m t .pmd (distance t va / 2 ^ 21)) = false
    then linkEntry (entry m t .pmd (distance t va / 2 ^ 21)) (tableOf t.pt3 (distance t va / 2 ^ 21))
    else entry m t .pmd i
  pt3 : ∀ i < pages .pt3 * 512, entry m' t .pt3 i =
    if i = distance t va / 2 ^ 12 then leafEntry pa flags isDev else entry m t .pt3 i

theorem ofNat_toNat_eq {x : Word} {n : Nat} (h : x.toNat = n) : x = BitVec.ofNat 64 n := by
  rw [← h, BitVec.ofNat_toNat, BitVec.setWidth_eq]

/-- The source's four index expressions as indices of the tables. -/
theorem source_indices {t : TranslationTables} {va : Word} (start : t.startVa.toNat % 2 ^ 30 = 0)
    (near : distance t va < 2 ^ 39) :
    (va - t.startVa) / bytes1gb = BitVec.ofNat 64 (distance t va / 2 ^ 30) ∧
    (va - t.startVa) / bytes2mb = BitVec.ofNat 64 (distance t va / 2 ^ 21) ∧
    vaOffset48L2 va + (va - t.startVa) / bytes1gb * 512 =
      BitVec.ofNat 64 (distance t va / 2 ^ 21) ∧
    vaOffset48L2 va + (va - t.startVa) / bytes1gb * 512 / pageSize4KB =
      BitVec.ofNat 64 (pmdWriteIndex (distance t va)) ∧
    vaOffset48L3 va + (va - t.startVa) / bytes2mb * 512 =
      BitVec.ofNat 64 (distance t va / 2 ^ 12) := by
  have gigabyte := (which_toNat t va).1
  have block := (which_toNat t va).2
  have second := vaOffset48L2_toNat va start
  have third := vaOffset48L3_toNat va start
  have times : (512 : Word).toNat = 512 := rfl
  unfold distance at near ⊢
  have shifted : ((va - t.startVa) / bytes1gb * 512).toNat = (va - t.startVa).toNat / 2 ^ 30 * 512 := by
    rw [BitVec.toNat_mul, gigabyte, times]
    exact Nat.mod_eq_of_lt (by omega)
  have quotient : ((va - t.startVa) / bytes1gb * 512 / pageSize4KB).toNat =
      (va - t.startVa).toNat / 2 ^ 30 * 512 / 4096 := by
    rw [BitVec.toNat_udiv, shifted]
    rfl
  have spread : ((va - t.startVa) / bytes2mb * 512).toNat = (va - t.startVa).toNat / 2 ^ 21 * 512 := by
    rw [BitVec.toNat_mul, block, times]
    exact Nat.mod_eq_of_lt (by omega)
  refine ⟨ofNat_toNat_eq gigabyte, ofNat_toNat_eq block, ofNat_toNat_eq ?_, ofNat_toNat_eq ?_,
    ofNat_toNat_eq ?_⟩
  · rw [BitVec.toNat_add, second, shifted, Nat.mod_eq_of_lt (by omega)]
    omega
  · rw [BitVec.toNat_add, second, quotient, Nat.mod_eq_of_lt (by omega)]
    rfl
  · rw [BitVec.toNat_add, third, spread, Nat.mod_eq_of_lt (by omega)]
    omega

variable {m : Memory} {t : TranslationTables} {pages : Level → Nat}

/- `page_table_map` past its two checks, with the source's indices as numbers. -/
def mapEntries (m : Memory) (t : TranslationTables) (va pa : Word) (flags isDev : CInt) : Memory :=
  let d := distance t va
  let m := linkLevel m (slot t .pgd (l0Index va)) (slot t .pgd (l0Index va)) t.pud
  let m := linkLevel m (slot t .pud (l1Index va)) (slot t .pud (l1Index va)) (tableOf t.pmd (d / 2 ^ 30))
  let m := linkLevel m (slot t .pmd (d / 2 ^ 21)) (slot t .pmd (pmdWriteIndex d)) (tableOf t.pt3 (d / 2 ^ 21))
  m.store (slot t .pt3 (d / 2 ^ 12)) (leafEntry pa flags isDev)

theorem pageTableMap_eq (m : Memory) (start : t.startVa.toNat % 2 ^ 30 = 0) (va pa : Word)
    (flags isDev : CInt) (near : distance t va < 2 ^ 39) :
    pageTableMap m t va pa flags isDev = some (0, mapEntries m t va pa flags isDev) := by
  obtain ⟨gigabyte, block, readAt, writeAt, leafAt⟩ := source_indices start near
  obtain ⟨_, inside⟩ := tests_pass t va
  have zeroth : vaOffset48L0 va = BitVec.ofNat 64 (l0Index va) := ofNat_toNat_eq rfl
  have first : vaOffset48L1 va = BitVec.ofNat 64 (l1Index va) := ofNat_toNat_eq rfl
  have same : t.pud + 0 * pageSize4KB = t.pud := by bv_omega
  simp only [pageTableMap, which512gb_eq, if_neg inside, readAt, writeAt, leafAt, same]
  rw [gigabyte, block, zeroth, first]
  rfl

/-- One call on a window address changes at most one entry of each table. -/
theorem mapEntries_spec (laid : LaidOut m t pages) (capacity : Capacity pages) (va pa : Word)
    (flags isDev : CInt) (near : distance t va < pages .pt3 * 2 ^ 21) :
    PageMapped m t pages va pa flags isDev (mapEntries m t va pa flags isDev) := by
  obtain ⟨i0, i1, i2, w2, i3⟩ := capacity.indices near
  obtain ⟨onePgd, onePud, _⟩ := capacity
  unfold mapEntries
  extract_lets d m₁ m₂ m₃
  have laid₁ : LaidOut m₁ t pages := laid.of_pa (linkLevel_pa _ _ _ _)
  have laid₂ : LaidOut m₂ t pages := laid₁.of_pa (linkLevel_pa _ _ _ _)
  have laid₃ : LaidOut m₃ t pages := laid₂.of_pa (linkLevel_pa _ _ _ _)
  -- what the later steps leave alone
  have keep₁ : ∀ {l j}, j < pages l * 512 → l ≠ .pgd → entry m₁ t l j = entry m t l j :=
    fun hj other => laid.entry_linkLevel_other i0 hj other _
  have keep₂ : ∀ {l j}, j < pages l * 512 → l ≠ .pud → entry m₂ t l j = entry m₁ t l j :=
    fun hj other => laid₁.entry_linkLevel_other i1 hj other _
  have keep₃ : ∀ {l j}, j < pages l * 512 → l ≠ .pmd → entry m₃ t l j = entry m₂ t l j :=
    fun hj other => laid₂.entry_linkLevel_other w2 hj other _
  have keep₄ : ∀ {l j}, j < pages l * 512 → l ≠ .pt3 →
      entry (m₃.store (slot t .pt3 (d / 2 ^ 12)) (leafEntry pa flags isDev)) t l j = entry m₃ t l j :=
    fun hj other => (laid₃.entry_store i3 hj _).trans (if_neg fun h => other h.1)
  constructor
  · exact (linkLevel_pa _ _ _ _).trans ((linkLevel_pa _ _ _ _).trans (linkLevel_pa _ _ _ _))
  · intro i hi
    have h : i < pages .pgd * 512 := by omega
    rw [keep₄ h (by decide), keep₃ h (by decide), keep₂ h (by decide), laid.entry_linkLevel i0 i0 h]
    exact linked_if
  · intro i hi
    have h : i < pages .pud * 512 := by omega
    rw [keep₄ h (by decide), keep₃ h (by decide), laid₁.entry_linkLevel i1 i1 h,
      keep₁ h (by decide), keep₁ i1 (by decide)]
    exact linked_if
  · intro i hi
    rw [keep₄ hi (by decide), laid₂.entry_linkLevel i2 w2 hi, keep₂ hi (by decide),
      keep₁ hi (by decide), keep₂ i2 (by decide), keep₁ i2 (by decide)]
  · intro i hi
    rw [laid₃.entry_store i3 hi, keep₃ hi (by decide), keep₂ hi (by decide), keep₁ hi (by decide)]
    simp only [true_and]

end RealmVm
