import RealmVm.Vma.MapPage
import RealmVm.Lib.Run

/-! The translation the tables give, as a partial map from pages to descriptors, and how
mapping a page changes it. -/
namespace RealmVm

open Lib.Bits

variable {m m' : Memory} {t : TranslationTables} {pages : Level → Nat}

/- What holds whatever was mapped in the window: the upper two levels link as laid out,
and the level-2 entries past the first gigabyte were never written. -/
structure Linked (m : Memory) (t : TranslationTables) (pages : Level → Nat) : Prop where
  l0 : ∀ i < 512, LinksTo (entry m t .pgd i) t.pud
  l1 : ∀ g < pages .pmd,
    LinksTo (entry m t .pud ((t.startVa.toNat / 2 ^ 30 + g) % 512)) (tableOf t.pmd g)
  beyond : ∀ b, 512 ≤ b → b < pages .pmd * 512 → isValid (entry m t .pmd b) = false

/-- In the first gigabyte the tables hold exactly the descriptors of `f`. -/
structure Translates (m : Memory) (t : TranslationTables) (pages : Level → Nat)
    (f : Nat → Option Word) : Prop where
  l2 : ∀ b < pages .pt3, b < 512 → LinksTo (entry m t .pmd b) (tableOf t.pt3 b)
  mapped : ∀ p < pages .pt3 * 512, p < 512 * 512 → ∀ d, f p = some d →
    entry m t .pt3 p = d ∧ isValid d = true ∧ isLink d = true ∧
    isValid (entry m t .pmd (p / 512)) = true ∧
    isValid (entry m t .pud (l1Index t.startVa)) = true ∧
    isValid (entry m t .pgd (l0Index t.startVa)) = true
  unmapped : ∀ p < pages .pt3 * 512, p < 512 * 512 → f p = none →
    isValid (entry m t .pt3 p) = false

theorem l1Index_eq (start : t.startVa.toNat % 2 ^ 30 = 0) (va : Word) :
    l1Index va = (t.startVa.toNat / 2 ^ 30 + distance t va / 2 ^ 30) % 512 :=
  vaOffset48L1_toNat start

theorem l1Index_first (start : t.startVa.toNat % 2 ^ 30 = 0) {va : Word}
    (first : distance t va < 2 ^ 30) : l1Index va = l1Index t.startVa := by
  have origin : distance t t.startVa = 0 := by unfold distance; bv_omega
  rw [l1Index_eq start, l1Index_eq start t.startVa, origin, Nat.div_eq_of_lt first, Nat.zero_div]

theorem l0Index_first (start : t.startVa.toNat % 2 ^ 30 = 0) {va : Word}
    (first : distance t va < 2 ^ 30) : l0Index va = l0Index t.startVa := by
  rw [l0Index, vaOffset48L0_first start first, l0Index]

theorem entryAddress_tableOf (base offset : Word) (n : Nat) :
    entryAddress (tableOf base n) offset =
      entryAddress base (BitVec.ofNat 64 (n * 512 + offset.toNat)) := by
  unfold entryAddress tableOf pageSize4KB
  bv_omega

/- The three lower lookups of the walk, as entries of the tables. -/
theorem lookup_l0 (m : Memory) (t : TranslationTables) (va : Word) :
    m.word (entryAddress t.pgd (vaOffset48L0 va)) = entry m t .pgd (l0Index va) := by
  rw [entry, l0Index, BitVec.ofNat_toNat, BitVec.setWidth_eq]
  rfl

theorem lookup_l1 (m : Memory) (t : TranslationTables) (va : Word) :
    m.word (entryAddress t.pud (vaOffset48L1 va)) = entry m t .pud (l1Index va) := by
  rw [entry, l1Index, BitVec.ofNat_toNat, BitVec.setWidth_eq]
  rfl

theorem lookup_l2 (m : Memory) (start : t.startVa.toNat % 2 ^ 30 = 0) (va : Word) :
    m.word (entryAddress (tableOf t.pmd (distance t va / 2 ^ 30)) (vaOffset48L2 va)) =
      entry m t .pmd (distance t va / 2 ^ 21) := by
  have index : distance t va / 2 ^ 30 * 512 + (vaOffset48L2 va).toNat = distance t va / 2 ^ 21 := by
    rw [vaOffset48L2_toNat va start]
    unfold distance
    omega
  rw [entryAddress_tableOf, index]
  rfl

theorem lookup_l3 (m : Memory) (start : t.startVa.toNat % 2 ^ 30 = 0) (va : Word) :
    m.word (entryAddress (tableOf t.pt3 (distance t va / 2 ^ 21)) (vaOffset48L3 va)) =
      entry m t .pt3 (distance t va / 2 ^ 12) := by
  have index : distance t va / 2 ^ 21 * 512 + (vaOffset48L3 va).toNat = distance t va / 2 ^ 12 := by
    rw [vaOffset48L3_toNat va start]
    unfold distance
    omega
  rw [entryAddress_tableOf, index]
  rfl

theorem tableOf_zero (base : Word) : tableOf base 0 = base := by
  unfold tableOf
  bv_omega

theorem linksTo_linked {e table : Word} (links : LinksTo e table) (aligned : table.toNat % 4096 = 0)
    (bounded : table.toNat < 2 ^ 48) : LinksTo (linked e table) table := by
  unfold linked
  split
  · exact links
  · exact linksTo_linkEntry e aligned bounded

theorem isValid_linked (e table : Word) : isValid (linked e table) = true := by
  unfold linked
  split
  · assumption
  · exact isValid_linkEntry e table

theorem LaidOut.tableOf_spec (laid : LaidOut m t pages) {l : Level} {n : Nat} (hn : n < pages l) :
    (tableOf (t.base l) n).toNat % 4096 = 0 ∧ (tableOf (t.base l) n).toNat < 2 ^ 48 := by
  have aligned := laid.aligned l
  have bounded := laid.bounded l
  unfold tableOf pageSize4KB
  bv_omega

namespace Linked

theorem second (linked : Linked m t pages) (start : t.startVa.toNat % 2 ^ 30 = 0) {va : Word}
    (inside : distance t va / 2 ^ 30 < pages .pmd) :
    LinksTo (m.word (entryAddress t.pud (vaOffset48L1 va))) (tableOf t.pmd (distance t va / 2 ^ 30)) := by
  rw [lookup_l1, l1Index_eq start]
  exact linked.l1 _ inside

theorem first (linked : Linked m t pages) (va : Word) :
    LinksTo (m.word (entryAddress t.pgd (vaOffset48L0 va))) t.pud := by
  rw [lookup_l0]
  exact linked.l0 _ (offset_lt va).1

/-- Past the first gigabyte no address translates. -/
theorem walkLeaf_beyond (linked : Linked m t pages) (capacity : Capacity pages)
    (start : t.startVa.toNat % 2 ^ 30 = 0) {va : Word} (far : 2 ^ 30 ≤ distance t va)
    (near : distance t va < pages .pt3 * 2 ^ 21) : walkLeaf m.word t.pgd va = none := by
  have enough := capacity.pt3
  have invalid := linked.beyond (distance t va / 2 ^ 21) (by omega) (by omega)
  rw [← lookup_l2 m start va] at invalid
  have third : LinksTo (m.word (entryAddress (tableOf t.pmd (distance t va / 2 ^ 30))
      (vaOffset48L2 va))) 0 := by
    intro valid
    rw [valid] at invalid
    cases invalid
  rw [walkLeaf_of_links (linked.first va) (linked.second start (by omega)) third, invalid]
  simp only [Bool.and_false, Bool.false_and, Bool.false_eq_true, if_false]

/-- One call in the window keeps the upper levels linked. -/
theorem step (linked : Linked m t pages) (laid : LaidOut m t pages) (capacity : Capacity pages)
    (start : t.startVa.toNat % 2 ^ 30 = 0) {va pa : Word} {flags isDev : CInt}
    (near : distance t va < pages .pt3 * 2 ^ 21)
    (mapped : PageMapped m t pages va pa flags isDev m') : Linked m' t pages := by
  obtain ⟨onePgd, onePud, enough, few, window⟩ := capacity
  constructor
  · intro i hi
    rw [mapped.pgd i hi]
    split
    · have inside := laid.tableOf_spec (l := .pud) (n := 0) (by omega)
      rw [TranslationTables.base, tableOf_zero] at inside
      exact linksTo_linked (linked.l0 i hi) inside.1 inside.2
    · exact linked.l0 i hi
  · intro g hg
    rw [mapped.pud _ (Nat.mod_lt _ (by decide)), l1Index_eq start]
    split
    · rename_i same
      -- indices of different gigabytes differ, so this is the call's own
      have own : g = distance t va / 2 ^ 30 := by omega
      have inside := laid.tableOf_spec (l := .pmd) hg
      rw [← own]
      exact linksTo_linked (linked.l1 g hg) inside.1 inside.2
    · exact linked.l1 g hg
  · intro b far hb
    have elsewhere : b ≠ pmdWriteIndex (distance t va) := by unfold pmdWriteIndex; omega
    rw [mapped.pmd b hb, if_neg (fun h => elsewhere h.1)]
    exact linked.beyond b far hb

end Linked

namespace Translates

variable {f : Nat → Option Word}

theorem walkLeaf_eq (translates : Translates m t pages f) (linked : Linked m t pages)
    (capacity : Capacity pages) (start : t.startVa.toNat % 2 ^ 30 = 0) {va : Word}
    (first : distance t va < 2 ^ 30) (near : distance t va < pages .pt3 * 2 ^ 21) :
    walkLeaf m.word t.pgd va = (f (distance t va / 2 ^ 12)).map fun d => ⟨d, 12⟩ := by
  have enough := capacity.pt3
  have third := translates.l2 (distance t va / 2 ^ 21) (by omega) (by omega)
  rw [← lookup_l2 m start va] at third
  rw [walkLeaf_of_links (linked.first va) (linked.second start (by omega)) third, lookup_l2 m start,
    lookup_l3 m start, lookup_l0, lookup_l1, l0Index_first start first, l1Index_first start first]
  cases page : f (distance t va / 2 ^ 12) with
  | none =>
    have invalid := translates.unmapped (distance t va / 2 ^ 12) (by omega) (by omega) page
    simp only [invalid, Bool.and_false, Bool.false_and, Bool.false_eq_true, if_false, Option.map_none]
  | some d =>
    obtain ⟨leaf, valid, link, block, upper, top⟩ :=
      translates.mapped (distance t va / 2 ^ 12) (by omega) (by omega) d page
    have same : distance t va / 2 ^ 12 / 512 = distance t va / 2 ^ 21 := by omega
    rw [same] at block
    simp only [leaf, valid, link, block, upper, top, Bool.and_self, if_true, Option.map_some]

/-- One call in the first gigabyte adds its page to the map and changes no other page. -/
theorem step (translates : Translates m t pages f) (laid : LaidOut m t pages)
    (capacity : Capacity pages) (start : t.startVa.toNat % 2 ^ 30 = 0) {va pa : Word}
    {flags isDev : CInt} (plain : PlainFlags flags) (first : distance t va < 2 ^ 30)
    (mapped : PageMapped m t pages va pa flags isDev m') :
    Translates m' t pages
      (Function.update f (distance t va / 2 ^ 12) (some (leafEntry pa flags isDev))) := by
  obtain ⟨onePgd, onePud, enough, few, window⟩ := capacity
  have own := pmdWriteIndex_first first
  have l1 := mapped.pud (l1Index t.startVa) (offset_lt _).2
  have l0 := mapped.pgd (l0Index t.startVa) (offset_lt _).1
  rw [l1Index_first start first, if_pos rfl] at l1
  rw [l0Index_first start first, if_pos rfl] at l0
  constructor
  · intro b hb low
    rw [mapped.pmd b (by omega), own]
    split
    · rename_i same
      have inside := laid.tableOf_spec (l := .pt3) hb
      rw [← same.1]
      exact linksTo_linkEntry _ inside.1 inside.2
    · exact translates.l2 b hb low
  · intro p hp low d page
    rw [mapped.pt3 p hp, l1, l0, mapped.pmd _ (by omega), own]
    cases decEq p (distance t va / 2 ^ 12) with
    | isTrue same =>
      subst same
      rw [Function.update_self, Option.some.injEq] at page
      subst page
      have block : distance t va / 2 ^ 12 / 512 = distance t va / 2 ^ 21 := by omega
      rw [if_pos rfl, block]
      refine ⟨rfl, isValid_leafEntry pa plain isDev, isLink_leafEntry pa plain isDev, ?_,
        isValid_linked _ _, isValid_linked _ _⟩
      cases valid : isValid (entry m t .pmd (distance t va / 2 ^ 21)) with
      | false =>
        rw [if_pos ⟨rfl, rfl⟩]
        exact isValid_linkEntry _ _
      | true =>
        rw [if_neg (fun h => nomatch h.2)]
        exact valid
    | isFalse other =>
      rw [Function.update_of_ne other] at page
      obtain ⟨leaf, valid, link, block, _, _⟩ := translates.mapped p hp low d page
      rw [if_neg other]
      refine ⟨leaf, valid, link, ?_, isValid_linked _ _, isValid_linked _ _⟩
      split
      · exact isValid_linkEntry _ _
      · exact block
  · intro p hp low page
    cases decEq p (distance t va / 2 ^ 12) with
    | isTrue same =>
      rw [same, Function.update_self] at page
      cases page
    | isFalse other =>
      rw [Function.update_of_ne other] at page
      rw [mapped.pt3 p hp, if_neg other]
      exact translates.unmapped p hp low page

end Translates

/-- Zeroed tables link nowhere and translate nothing. -/
theorem zeroed {m : Memory} (capacity : Capacity pages)
    (zero : ∀ l, ∀ i < pages l * 512, entry m t l i = 0) :
    Linked m t pages ∧ Translates m t pages fun _ => none := by
  have invalid : isValid (0 : Word) = false := rfl
  have nowhere : ∀ {e table : Word}, e = 0 → LinksTo e table := by
    rintro e table rfl valid
    rw [invalid] at valid
    cases valid
  obtain ⟨onePgd, onePud, enough, few, window⟩ := capacity
  refine ⟨⟨fun i hi => nowhere (zero _ i (by omega)),
      fun g _ => nowhere (zero _ _ (by omega)),
      fun b _ hb => ?_⟩,
    ⟨fun b hb low => nowhere (zero _ b (by omega)), fun p _ _ d page => ?_, fun p hp _ _ => ?_⟩⟩
  · rw [zero _ b hb]
    exact invalid
  · cases page
  · rw [zero _ p hp]
    exact invalid

end RealmVm
