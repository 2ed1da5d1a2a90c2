import RealmVm.Vma.MapThenWalk

/-! The tables of a process: seven pages for the first 8 MB of its address space, and what
the walk finds in them, for every address of the lower half. -/
namespace RealmVm

open Lib Lib.Bits

/- The frames that `create_user_translation_table` asks for. -/
def userPages : Level → Nat
  | .pt3 => 4
  | _ => 1

theorem capacity_userPages : Capacity userPages := by
  constructor <;> decide

/-- Addresses in the 8 MB of the four level-3 pages, mapped to physical addresses. -/
structure MapCall.InSpace (c : MapCall) : Prop where
  near : c.va.toNat < 2 ^ 23
  output : c.pa.toNat < 2 ^ 48

/-- What a translation should be: the address in the page of the last call for its page. -/
def lastPage (calls : List MapCall) (va : Word) : Option Word :=
  (calls.reverse.find? fun c => pageDown c.va = pageDown va).map fun c => pageDown c.pa + (va - pageDown va)

/-- None of the seven pages holds a valid entry. -/
def NoValidEntry (m : Memory) (t : TranslationTables) : Prop :=
  ∀ l, ∀ i < userPages l * 512, isValid (entry m t l i) = false

/- The tables after mappings of the first 8 MB: what they translate, and that no other
entry of the upper levels is valid. -/
structure OwnSpace (m : Memory) (t : TranslationTables) (f : Nat → Option Word) : Prop where
  laid : LaidOut m t userPages
  linked : Linked m t userPages
  translates : Translates m t userPages f
  pgd : ∀ i < 512, i ≠ 0 → isValid (entry m t .pgd i) = false
  pud : ∀ i < 512, i ≠ 0 → isValid (entry m t .pud i) = false
  pmd : ∀ i < 512, 4 ≤ i → isValid (entry m t .pmd i) = false

variable {m m' : Memory} {t : TranslationTables} {f : Nat → Option Word}

theorem linksTo_of_invalid {e table : Word} (invalid : isValid e = false) : LinksTo e table := by
  intro valid
  rw [valid] at invalid
  exact nomatch invalid

theorem OwnSpace.fresh (laid : LaidOut m t userPages) (none : NoValidEntry m t) :
    OwnSpace m t fun _ => Option.none where
  laid := laid
  linked := ⟨fun i hi => linksTo_of_invalid (none .pgd i hi),
    fun _ _ => linksTo_of_invalid (none .pud _ (Nat.mod_lt _ (by decide))), fun b _ hb => none .pmd b hb⟩
  translates := ⟨fun b _ low => linksTo_of_invalid (none .pmd b low), fun _ _ _ d page => (nomatch page),
    fun p hp _ _ => none .pt3 p hp⟩
  pgd i hi _ := none .pgd i hi
  pud i hi _ := none .pud i hi
  pmd i hi _ := none .pmd i hi

/- The address space starts at 0, so distances are addresses. -/
theorem distance_zero (start : t.startVa = 0) (va : Word) : distance t va = va.toNat := by
  rw [distance, start]
  exact congrArg BitVec.toNat (BitVec.sub_zero va)

theorem start_aligned (start : t.startVa = 0) : t.startVa.toNat % 2 ^ 30 = 0 := by
  rw [start]
  rfl

theorem low_indices {va : Word} (near : va.toNat < 2 ^ 30) : l0Index va = 0 ∧ l1Index va = 0 := by
  unfold l0Index l1Index vaOffset48L0 vaOffset48L1
  rw [toNat_field_eq _ _ _ (by decide), toNat_field_eq _ _ _ (by decide)]
  omega

theorem OwnSpace.step (own : OwnSpace m t f) (start : t.startVa = 0) {c : MapCall} (inside : c.InSpace)
    (mapped : mapStep t m c m') :
    OwnSpace m' t (Function.update f (c.va.toNat / 2 ^ 12) (some c.leaf)) := by
  have near := inside.near
  have aligned := start_aligned start
  have address := distance_zero start c.va
  have called := pageTableMap_eq m aligned c.va c.pa (c.wrapper.flags c.prot) c.wrapper.isDev (by omega)
  unfold mapStep at mapped
  rw [c.perform_eq, called] at mapped
  obtain ⟨-, rfl⟩ := Prod.mk.inj (Option.some.inj mapped)
  have window : distance t c.va < userPages .pt3 * 2 ^ 21 := by
    have pages : userPages .pt3 = 4 := rfl
    omega
  have changed := mapEntries_spec own.laid capacity_userPages c.va c.pa (c.wrapper.flags c.prot) c.wrapper.isDev window
  have gigabyte : c.va.toNat < 2 ^ 30 := Nat.lt_trans near (by decide)
  have first : distance t c.va < 2 ^ 30 := address ▸ gigabyte
  have low := low_indices gigabyte
  have written : pmdWriteIndex (distance t c.va) < 4 := by
    unfold pmdWriteIndex
    omega
  have translates := own.translates.step own.laid capacity_userPages aligned (Wrapper.plain _ _) first changed
  rw [address] at translates
  constructor
  · exact own.laid.of_pa changed.pa_eq
  · exact own.linked.step own.laid capacity_userPages aligned window changed
  · exact translates
  · intro i hi other
    rw [changed.pgd i hi, low.1, if_neg other]
    exact own.pgd i hi other
  · intro i hi other
    rw [changed.pud i hi, low.2, if_neg other]
    exact own.pud i hi other
  · intro i hi far
    rw [changed.pmd i hi, if_neg (fun here => by omega)]
    exact own.pmd i hi far

theorem OwnSpace.run (own : OwnSpace m t f) (start : t.startVa = 0) {calls : List MapCall}
    (inside : ∀ c ∈ calls, c.InSpace) (run : Run (mapStep t) m calls m') :
    OwnSpace m' t (leavesAfter t f calls) := by
  induction run generalizing f with
  | nil => exact own
  | cons head _ ih =>
    obtain ⟨here, later⟩ := List.forall_mem_cons.mp inside
    have next := own.step start here head
    rw [← distance_zero start] at next
    exact ih next later

/- Every call in the first 8 MB succeeds. -/
theorem calls_succeed (start : t.startVa = 0) {calls : List MapCall} (inside : ∀ c ∈ calls, c.InSpace) :
    ∀ m, ∃ m', Run (mapStep t) m calls m' := by
  induction calls with
  | nil => exact fun m => ⟨m, .nil m⟩
  | cons c rest ih =>
    intro m
    obtain ⟨here, later⟩ := List.forall_mem_cons.mp inside
    have near := here.near
    have address := distance_zero start c.va
    have called := pageTableMap_eq m (start_aligned start) c.va c.pa (c.wrapper.flags c.prot) c.wrapper.isDev (by omega)
    obtain ⟨m', run⟩ := ih later (mapEntries m t c.va c.pa (c.wrapper.flags c.prot) c.wrapper.isDev)
    exact ⟨m', .cons ((c.perform_eq m t).trans called) run⟩

/- A walk ends at the first invalid entry. -/
section Ends

variable {word : Word → Word} {pgd pud pmd va : Word}

theorem walkLeaf_invalid_l0 (invalid : isValid (word (entryAddress pgd (vaOffset48L0 va))) = false) :
    walkLeaf word pgd va = none := by
  simp [walkLeaf, invalid]

theorem walkLeaf_invalid_l1 (first : LinksTo (word (entryAddress pgd (vaOffset48L0 va))) pud)
    (invalid : isValid (word (entryAddress pud (vaOffset48L1 va))) = false) : walkLeaf word pgd va = none := by
  cases valid : isValid (word (entryAddress pgd (vaOffset48L0 va))) with
  | false => exact walkLeaf_invalid_l0 valid
  | true =>
    obtain ⟨link, next⟩ := first valid
    simp [walkLeaf, valid, link, next, invalid]

theorem walkLeaf_invalid_l2 (first : LinksTo (word (entryAddress pgd (vaOffset48L0 va))) pud)
    (second : LinksTo (word (entryAddress pud (vaOffset48L1 va))) pmd)
    (invalid : isValid (word (entryAddress pmd (vaOffset48L2 va))) = false) : walkLeaf word pgd va = none := by
  cases valid : isValid (word (entryAddress pgd (vaOffset48L0 va))) with
  | false => exact walkLeaf_invalid_l0 valid
  | true =>
    cases valid₁ : isValid (word (entryAddress pud (vaOffset48L1 va))) with
    | false => exact walkLeaf_invalid_l1 first valid₁
    | true =>
      obtain ⟨link, next⟩ := first valid
      obtain ⟨link₁, next₁⟩ := second valid₁
      simp [walkLeaf, valid, link, next, valid₁, link₁, next₁, invalid]

end Ends

/-- Outside the first 8 MB nothing translates. -/
theorem OwnSpace.walkLeaf_outside (own : OwnSpace m t f) (start : t.startVa = 0) {va : Word}
    (lower : va.toNat < 2 ^ 48) (far : 2 ^ 23 ≤ va.toNat) : walkLeaf m.word t.pgd va = none := by
  have first := own.linked.first va
  cases decEq (l0Index va) 0 with
  | isFalse other =>
    apply walkLeaf_invalid_l0
    rw [lookup_l0]
    exact own.pgd _ (offset_lt va).1 other
  | isTrue zeroth =>
    cases decEq (l1Index va) 0 with
    | isFalse other =>
      apply walkLeaf_invalid_l1 first
      rw [lookup_l1]
      exact own.pud _ (offset_lt va).2 other
    | isTrue upper =>
      have low : va.toNat < 2 ^ 30 := by
        unfold l0Index vaOffset48L0 at zeroth
        unfold l1Index vaOffset48L1 at upper
        rw [toNat_field_eq _ _ _ (by decide)] at zeroth upper
        omega
      have address := distance_zero start va
      have gigabyte : distance t va / 2 ^ 30 = 0 := by omega
      have one : userPages .pmd = 1 := rfl
      apply walkLeaf_invalid_l2 first (own.linked.second (start_aligned start) (by omega))
      rw [lookup_l2 m (start_aligned start)]
      exact own.pmd _ (by omega) (by omega)

theorem page_address {c : MapCall} (output : c.pa.toNat < 2 ^ 48) (va : Word) :
    Leaf.address ⟨c.leaf, 12⟩ va = pageDown c.pa + (va - pageDown va) := by
  have down := pageDown_toNat c.pa
  let whole : MapCall := { c with pa := pageDown c.pa }
  have same : field (pageDown c.pa) 12 36 = field c.pa 12 36 := by
    apply BitVec.eq_of_toNat_eq
    rw [toNat_field_eq _ _ _ (by decide), toNat_field_eq _ _ _ (by decide), down]
    omega
  have equal : Leaf.address ⟨c.leaf, 12⟩ va = Leaf.address ⟨whole.leaf, 12⟩ va := by
    have left : field c.leaf 12 36 = field c.pa 12 36 := field_leafEntry _ (Wrapper.plain _ _) _
    have right : field whole.leaf 12 36 = field (pageDown c.pa) 12 36 := field_leafEntry _ (Wrapper.plain _ _) _
    show field c.leaf 12 36 <<< 12 ||| field va 0 12 = field whole.leaf 12 36 <<< 12 ||| field va 0 12
    rw [left, right, same]
  rw [equal]
  exact leaf_address (c := whole) (by show (pageDown c.pa).toNat % 4096 = 0; omega)
    (by show (pageDown c.pa).toNat < 2 ^ 48; omega) va

/-- The walk is the last mapping of the page, for every address of the lower half. -/
theorem OwnSpace.walk_eq {calls : List MapCall} (own : OwnSpace m t (leavesAfter t (fun _ => none) calls))
    (start : t.startVa = 0) (inside : ∀ c ∈ calls, c.InSpace) {va : Word} (lower : va.toNat < 2 ^ 48) :
    walk m.word t.pgd va = lastPage calls va := by
  have samePage : ∀ a b : Word, pageDown a = pageDown b ↔ a.toNat / 4096 = b.toNat / 4096 := by
    intro a b
    rw [← BitVec.toNat_inj, pageDown_toNat, pageDown_toNat]
    omega
  have pages : ∀ c ∈ calls.reverse,
      decide (distance t c.va / 2 ^ 12 = distance t va / 2 ^ 12) = decide (pageDown c.va = pageDown va) := by
    intro c _
    apply decide_eq_decide.mpr
    rw [samePage, distance_zero start, distance_zero start]
    exact Iff.rfl
  unfold walk lastPage
  cases Nat.lt_or_ge va.toNat (2 ^ 23) with
  | inl near =>
    have address := distance_zero start va
    have four : userPages .pt3 = 4 := rfl
    rw [own.translates.walkLeaf_eq own.linked capacity_userPages (start_aligned start) (by omega) (by omega),
      leavesAfter_eq, List.find?_congr pages]
    cases found : calls.reverse.find? fun c => pageDown c.va = pageDown va with
    | none => rfl
    | some c =>
      have member := inside c (List.mem_reverse.mp (List.mem_of_find?_eq_some found))
      exact congrArg some (page_address member.output va)
  | inr far =>
    have unmapped : calls.reverse.find? (fun c => pageDown c.va = pageDown va) = none := by
      rw [List.find?_eq_none]
      intro c hc same
      have near := (inside c (List.mem_reverse.mp hc)).near
      have equal := (samePage _ _).mp (of_decide_eq_true same)
      omega
    rw [own.walkLeaf_outside start lower far, unmapped]
    rfl

end RealmVm
