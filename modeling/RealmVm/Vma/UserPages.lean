import RealmVm.User.Access
import RealmVm.Vma.Mmap
import RealmVm.Vma.UserTables

/-! The pages of a process as a map from page numbers to frames, and the tables that hold it. -/
namespace RealmVm

open Lib Lib.Bits

/- The frame of a page and the protection it was mapped with. -/
abbrev PageMap := Nat → Option (Word × CInt)

def userLeaf (x : Word × CInt) : Word := leafEntry x.1 (Wrapper.user.flags x.2) 0

def pageNumber (va : Word) : Nat := va.toNat / 4096

/-- The tables translate the pages of `pages` and nothing else, and no table descriptor on
the way takes write access away. -/
structure Backed (m : Memory) (t : TranslationTables) (pages : PageMap) : Prop where
  own : OwnSpace m t fun q => (pages q).map userLeaf
  frames : ∀ q x, pages q = some x → q < 2048 ∧ x.1.toNat % 4096 = 0 ∧ x.1.toNat < 2 ^ 48
  writable : ∀ l, l ≠ .pt3 → ∀ i < userPages l * 512, (entry m t l i).getLsbD 62 = false

variable {m m' : Memory} {t : TranslationTables} {pages : PageMap}

theorem Backed.empty (laid : LaidOut m t userPages) (none : NoValidEntry m t)
    (writable : ∀ l, l ≠ .pt3 → ∀ i < userPages l * 512, (entry m t l i).getLsbD 62 = false) :
    Backed m t fun _ => Option.none :=
  ⟨OwnSpace.fresh laid none, fun _ _ found => (nomatch found), writable⟩

theorem getLsbD_linkEntry (reg table : Word) : (linkEntry reg table).getLsbD 62 = reg.getLsbD 62 := by
  simp only [linkEntry, getLsbD_setField _ _ _ _ 62 (by decide : 62 < 64)]
  rfl

theorem getLsbD_linked {e : Word} (clear : e.getLsbD 62 = false) (table : Word) :
    (linked e table).getLsbD 62 = false := by
  unfold linked
  split
  · exact clear
  · exact (getLsbD_linkEntry e table).trans clear

/-- One page more. -/
theorem Backed.map (backed : Backed m t pages) (start : t.startVa = 0) {va frame : Word} (prot : CInt)
    (near : va.toNat < 2 ^ 23) (aligned : frame.toNat % 4096 = 0) (output : frame.toNat < 2 ^ 48) :
    pageTableMap m t va frame (Wrapper.user.flags prot) 0 =
        some (0, mapEntries m t va frame (Wrapper.user.flags prot) 0) ∧
      Backed (mapEntries m t va frame (Wrapper.user.flags prot) 0) t
        (Function.update pages (pageNumber va) (some (frame, prot))) ∧
      (mapEntries m t va frame (Wrapper.user.flags prot) 0).pa = m.pa ∧
      ∀ a, Elsewhere t userPages a → (mapEntries m t va frame (Wrapper.user.flags prot) 0).word a = m.word a := by
  have address := distance_zero start va
  have window : distance t va < userPages .pt3 * 2 ^ 21 := by
    have four : userPages .pt3 = 4 := rfl
    omega
  have called := pageTableMap_eq m (start_aligned start) va frame (Wrapper.user.flags prot) 0
    (address ▸ Nat.lt_trans near (by decide))
  have mapped : mapStep t m ⟨.user, va, frame, prot⟩ (mapEntries m t va frame (Wrapper.user.flags prot) 0) :=
    ((MapCall.perform_eq ⟨.user, va, frame, prot⟩ m t).trans called)
  have changed := mapEntries_spec backed.own.laid capacity_userPages va frame (Wrapper.user.flags prot) 0 window
  have next := backed.own.step start ⟨near, output⟩ mapped
  refine ⟨called, ⟨?_, ?_, ?_⟩, changed.pa_eq, fun a elsewhere =>
    mapEntries_elsewhere backed.own.laid capacity_userPages window elsewhere⟩
  · have same : (fun q => (Function.update pages (pageNumber va) (some (frame, prot)) q).map userLeaf) =
        Function.update (fun q => (pages q).map userLeaf) (va.toNat / 2 ^ 12)
          (some (MapCall.leaf ⟨.user, va, frame, prot⟩)) := by
      funext q
      have page : pageNumber va = va.toNat / 2 ^ 12 := rfl
      cases decEq q (va.toNat / 2 ^ 12) with
      | isTrue here =>
        rw [here, page, Function.update_self, Function.update_self]
        rfl
      | isFalse other => rw [page, Function.update_of_ne other, Function.update_of_ne other]
    rw [same]
    exact next
  · intro q x found
    cases decEq q (pageNumber va) with
    | isTrue here =>
      rw [here, Function.update_self] at found
      obtain rfl := Option.some.inj found
      refine ⟨?_, aligned, output⟩
      unfold pageNumber at here
      omega
    | isFalse other =>
      rw [Function.update_of_ne other] at found
      exact backed.frames q x found
  · intro l upper i inside
    have before := backed.writable l upper i inside
    cases l with
    | pgd =>
      rw [changed.pgd i inside]
      split
      · exact getLsbD_linked before _
      · exact before
    | pud =>
      rw [changed.pud i inside]
      split
      · exact getLsbD_linked before _
      · exact before
    | pmd =>
      have block : distance t va / 2 ^ 21 < userPages .pmd * 512 := by
        have one : userPages .pmd = 1 := rfl
        omega
      rw [changed.pmd i inside]
      split
      · exact (getLsbD_linkEntry _ _).trans (backed.writable .pmd upper _ block)
      · exact before
    | pt3 => exact absurd rfl upper

/-- Only the entries of the tables matter. -/
theorem Backed.of_entries (backed : Backed m t pages) (pa : m'.pa = m.pa)
    (same : ∀ l, ∀ i < userPages l * 512, entry m' t l i = entry m t l i) : Backed m' t pages := by
  obtain ⟨⟨laid, ⟨l0, l1, beyond⟩, ⟨l2, mapped, unmapped⟩, pgd, pud, pmd⟩, frames, writable⟩ := backed
  have upper : ∀ i, l0Index t.startVa < 512 ∧ l1Index t.startVa < 512 ∧ i % 512 < 512 :=
    fun i => ⟨(offset_lt _).1, (offset_lt _).2, Nat.mod_lt i (by decide)⟩
  have own : OwnSpace m' t fun q => (pages q).map userLeaf := by
    constructor
    · exact laid.of_pa pa
    · constructor
      · intro i hi
        rw [same .pgd i hi]
        exact l0 i hi
      · intro g hg
        rw [same .pud _ (upper _).2.2]
        exact l1 g hg
      · intro b low high
        rw [same .pmd b high]
        exact beyond b low high
    · constructor
      · intro b hb low
        rw [same .pmd b low]
        exact l2 b hb low
      · intro p hp low d found
        have block : p / 512 < userPages .pmd * 512 := by
          have one : userPages .pmd = 1 := rfl
          omega
        rw [same .pt3 p hp, same .pmd _ block, same .pud _ (upper 0).2.1, same .pgd _ (upper 0).1]
        exact mapped p hp low d found
      · intro p hp low found
        rw [same .pt3 p hp]
        exact unmapped p hp low found
    · intro i hi other
      rw [same .pgd i hi]
      exact pgd i hi other
    · intro i hi other
      rw [same .pud i hi]
      exact pud i hi other
    · intro i hi far
      rw [same .pmd i hi]
      exact pmd i hi far
  refine ⟨own, frames, fun l lower i hi => ?_⟩
  rw [same l i hi]
  exact writable l lower i hi

theorem user_page {frame : Word} {prot : CInt} (aligned : frame.toNat % 4096 = 0) (output : frame.toNat < 2 ^ 48)
    (va : Word) : Leaf.address ⟨userLeaf (frame, prot), 12⟩ va = frame + BitVec.ofNat 64 (va.toNat % 4096) :=
  leafEntry_address (Wrapper.plain .user prot) 0 aligned output va

/-- The leaf of an address in the lower half. -/
theorem Backed.walkLeaf_eq (backed : Backed m t pages) (start : t.startVa = 0) {va : Word} (lower : va.toNat < 2 ^ 48) :
    walkLeaf m.word t.pgd va = (pages (pageNumber va)).map fun x => ⟨userLeaf x, 12⟩ := by
  have address := distance_zero start va
  have four : userPages .pt3 = 4 := rfl
  cases Nat.lt_or_ge va.toNat (2 ^ 23) with
  | inl near =>
    have number : distance t va / 2 ^ 12 = pageNumber va := by
      rw [address]
      rfl
    rw [backed.own.translates.walkLeaf_eq backed.own.linked capacity_userPages (start_aligned start) (by omega)
      (by omega), number, Option.map_map]
    rfl
  | inr far =>
    rw [backed.own.walkLeaf_outside start lower far]
    cases found : pages (pageNumber va) with
    | none => rfl
    | some x =>
      have inside := (backed.frames _ x found).1
      unfold pageNumber at inside
      omega

/-- What the walk finds in the lower half. -/
theorem Backed.walk_eq (backed : Backed m t pages) (start : t.startVa = 0) {va : Word} (lower : va.toNat < 2 ^ 48) :
    walk m.word t.pgd va = (pages (pageNumber va)).map fun x => x.1 + BitVec.ofNat 64 (va.toNat % 4096) := by
  rw [walk, backed.walkLeaf_eq start lower]
  cases found : pages (pageNumber va) with
  | none => rfl
  | some x =>
    obtain ⟨_, aligned, output⟩ := backed.frames _ x found
    exact congrArg some (user_page aligned output va)

/- Permissions of a page. -/
theorem permToPt_write {prot : CInt} (write : protW &&& prot ≠ 0) : permToPt prot = 0 := by
  have zero : orAssign 0 (if protX &&& prot ≠ 0 then 0 else ptNx) = 0 := by
    split <;> decide
  simp only [permToPt, zero, write, ne_eq, not_false_eq_true, or_true, if_true]
  rfl

theorem accessed (prot : CInt) : (leafAttributes (Wrapper.user.flags prot) 0).getLsbD 10 = true := by
  unfold Wrapper.flags
  rcases permToPt_cases prot with same | same <;> simp only [same] <;> decide

theorem not_readOnly {prot : CInt} (write : protW &&& prot ≠ 0) :
    (leafAttributes (Wrapper.user.flags prot) 0).getLsbD 7 = false := by
  simp only [Wrapper.flags, permToPt_write write]
  decide

theorem base_lower {word : Word → Word} {pgd ttbr1 va : Word} (aligned : pgd.toNat % 4096 = 0)
    (bounded : pgd.toNat < 2 ^ 48) (lower : va.toNat < 2 ^ 48) : Mmu.base ⟨word, pgd, ttbr1⟩ va = some pgd := by
  have half : va >>> 48 = 0 := by
    apply BitVec.eq_of_toNat_eq
    rw [BitVec.toNat_ushiftRight, Nat.shiftRight_eq_div_pow, Nat.div_eq_of_lt lower]
    rfl
  have next : nextLevelTableAddress pgd = pgd := field_shiftLeft pgd 12 36 (by decide) aligned bounded
  rw [Mmu.base, if_pos half, next]

/-- No descriptor above the last level makes a mapped page read-only. -/
theorem Backed.tableAttribute_clear (backed : Backed m t pages) (start : t.startVa = 0) {va : Word}
    (near : va.toNat < 2 ^ 23) (some : walkLeaf m.word t.pgd va ≠ none) :
    tableAttribute m.word t.pgd va 62 = false := by
  have address := distance_zero start va
  have gigabyte : distance t va / 2 ^ 30 = 0 := by omega
  have one : userPages .pmd = 1 := rfl
  have first := backed.own.linked.first va
  have inside : distance t va / 2 ^ 30 < userPages .pmd := by omega
  have second := backed.own.linked.second (start_aligned start) inside
  have l0 := backed.writable .pgd (by decide) (l0Index va) (offset_lt va).1
  have l1 := backed.writable .pud (by decide) (l1Index va) (offset_lt va).2
  have l2 := backed.writable .pmd (by decide) (distance t va / 2 ^ 21) (by omega)
  rw [← lookup_l0] at l0
  rw [← lookup_l1] at l1
  rw [← lookup_l2 m (start_aligned start)] at l2
  cases valid : isValid (m.word (entryAddress t.pgd (vaOffset48L0 va))) with
  | false => exact absurd (walkLeaf_invalid_l0 valid) some
  | true =>
    obtain ⟨_, table⟩ := first valid
    cases valid₁ : isValid (m.word (entryAddress t.pud (vaOffset48L1 va))) with
    | false => exact absurd (walkLeaf_invalid_l1 first valid₁) some
    | true =>
      obtain ⟨_, table₁⟩ := second valid₁
      simp only [tableAttribute, table, table₁, l0, l1, l2, Bool.or_self, Bool.and_false]

theorem Backed.root (backed : Backed m t pages) (ttbr1 : Word) {va : Word} (lower : va.toNat < 2 ^ 48) :
    Mmu.base ⟨m.word, t.pgd, ttbr1⟩ va = some t.pgd := by
  have bounded : t.pgd.toNat + userPages .pgd * 4096 ≤ 2 ^ 48 := backed.own.laid.bounded .pgd
  have positive : userPages .pgd = 1 := rfl
  exact base_lower (backed.own.laid.aligned .pgd) (by omega) lower

/-- The kernel may read what is mapped, and write what its leaf does not make read-only. -/
theorem Backed.permits_eq (backed : Backed m t pages) (start : t.startVa = 0) (ttbr1 : Word) {va : Word}
    (lower : va.toNat < 2 ^ 48) {x : Word × CInt} (mapped : pages (pageNumber va) = some x) (write : Bool) :
    Mmu.permits ⟨m.word, t.pgd, ttbr1⟩ .el1 write va = !(write && (userLeaf x).getLsbD 7) := by
  have leaf := backed.walkLeaf_eq start lower
  rw [mapped] at leaf
  have inside := (backed.frames _ x mapped).1
  have near : va.toNat < 2 ^ 23 := by
    unfold pageNumber at inside
    omega
  have clear := backed.tableAttribute_clear start near (by rw [leaf]; exact Option.some_ne_none _)
  have aged : (userLeaf x).getLsbD 10 = true := (getLsbD_leafEntry x.1 _ 0 (by decide) (by decide)).trans (accessed x.2)
  simp only [Mmu.permits, backed.root ttbr1 lower, leaf, Option.map_some, clear, aged, Bool.or_false, beq_self_eq_true,
    Bool.true_or, Bool.true_and]

theorem Backed.permits (backed : Backed m t pages) (start : t.startVa = 0) (ttbr1 : Word) {va : Word}
    (lower : va.toNat < 2 ^ 48) {x : Word × CInt} (mapped : pages (pageNumber va) = some x) {write : Bool}
    (allowed : write = true → protW &&& x.2 ≠ 0) : Mmu.permits ⟨m.word, t.pgd, ttbr1⟩ .el1 write va = true := by
  rw [backed.permits_eq start ttbr1 lower mapped]
  cases write with
  | false => rfl
  | true =>
    have open_ : (userLeaf x).getLsbD 7 = false :=
      (getLsbD_leafEntry x.1 _ 0 (by decide) (by decide)).trans (not_readOnly (allowed rfl))
    rw [open_]
    rfl

/-- Nobody may write to a page whose leaf is read-only. -/
theorem Backed.readOnly (backed : Backed m t pages) (start : t.startVa = 0) (ttbr1 : Word) {va : Word}
    (lower : va.toNat < 2 ^ 48) {x : Word × CInt} (mapped : pages (pageNumber va) = some x)
    (closed : (userLeaf x).getLsbD 7 = true) (el : El) :
    Mmu.permits ⟨m.word, t.pgd, ttbr1⟩ el true va = false := by
  have leaf := backed.walkLeaf_eq start lower
  rw [mapped] at leaf
  simp only [Mmu.permits, backed.root ttbr1 lower, leaf, Option.map_some, closed, Bool.true_or, Bool.and_true,
    Bool.not_true, Bool.and_false]

/-- A free frame is a page of the arena. -/
theorem frame_spec {fa : KframeAlloc} {p : Pool Word} (tracks : Tracks fa p)
    (physical : fa.frameStart.toNat + fa.frameCount.toNat * 4096 ≤ 2 ^ 48) {frame : Word} (free : frame ∈ p.free) :
    frame.toNat % 4096 = 0 ∧ frame.toNat + 4096 ≤ 2 ^ 48 := by
  obtain ⟨k, inside, rfl⟩ := place_of_free tracks free
  have start := tracks.fits.aligned
  rw [tracks.fits.frameAddress_toNat (Nat.le_of_lt inside)]
  omega

/-- What the loop of `generic_mmap` does for the `n` pages from number `first` on. -/
structure PagesAdded (t : TranslationTables) (prot : CInt) (first n : Nat) (s s' : Memory × KframeAlloc)
    (p p' : Pool Word) (pages pages' : PageMap) : Prop where
  backed : Backed s'.1 t pages'
  tracks : Tracks s'.2 p'
  arena : s'.2.frameStart = s.2.frameStart ∧ s'.2.frameCount = s.2.frameCount
  pa : s'.1.pa = s.1.pa
  word : ∀ a, Elsewhere t userPages a → s'.1.word a = s.1.word a
  free : p'.free ⊆ p.free
  card : p'.free.card + n = p.free.card
  others : ∀ q, ¬ (first ≤ q ∧ q < first + n) → pages' q = pages q
  new : ∀ q, first ≤ q → q < first + n → ∃ f, pages' q = some (f, prot) ∧ f ∈ p.free ∧ f ∉ p'.free
  distinct : ∀ q r f, first ≤ q ∧ q < first + n → first ≤ r ∧ r < first + n → pages' q = some (f, prot) →
    pages' r = some (f, prot) → q = r

theorem mapPages_backed (start : t.startVa = 0) {base : Word} (aligned : base.toNat % 4096 = 0) (prot : CInt)
    (n c : Nat)
    {s : AddressSpace} {p : Pool Word} (backed : Backed s.memory t pages) (tracks : Tracks s.frames p)
    (physical : s.frames.frameStart.toNat + s.frames.frameCount.toNat * 4096 ≤ 2 ^ 48) (enough : n ≤ p.free.card)
    (inside : base.toNat + 4096 * (c + n) ≤ 2 ^ 23) :
    ∃ s' p' pages', mapPages t base (Wrapper.user.flags prot) n (BitVec.ofNat 64 (4096 * c)) s = some s' ∧
      s'.regions = s.regions ∧
      PagesAdded t prot (pageNumber base + c) n (s.memory, s.frames) (s'.memory, s'.frames) p p' pages pages' := by
  induction n generalizing c s p pages with
  | zero =>
    refine ⟨s, p, pages, rfl, rfl, backed, tracks, ⟨rfl, rfl⟩, rfl, fun _ _ => rfl, Finset.Subset.refl _, rfl,
      fun _ _ => rfl, ?_, ?_⟩
    · intro q low high
      omega
    · rintro q r f ⟨low, high⟩
      omega
  | succ n ih =>
    obtain ⟨given, _⟩ := frame_available tracks (by omega)
    obtain ⟨available, tracks₁⟩ := allocate_one tracks rfl given
    have taken := available (Finset.mem_singleton_self _)
    obtain ⟨whole, output⟩ := frame_spec tracks physical taken
    have card := p.card_free_take _ available
    rw [Finset.card_singleton] at card
    have arena := kframeAllocateRange_arena s.frames 1
    have place : (base + BitVec.ofNat 64 (4096 * c)).toNat = base.toNat + 4096 * c := by bv_omega
    have number : pageNumber (base + BitVec.ofNat 64 (4096 * c)) = pageNumber base + c := by
      unfold pageNumber
      omega
    have address := distance_zero start (base + BitVec.ofNat 64 (4096 * c))
    have near : (base + BitVec.ofNat 64 (4096 * c)).toNat < 2 ^ 23 := by omega
    obtain ⟨_, backed₁, pa, word⟩ := backed.map start prot near whole (by omega)
    rw [number] at backed₁
    obtain ⟨s', p', pages', ran, same, added⟩ := ih (c + 1) (s := { s with memory := _, frames := _ }) backed₁ tracks₁
      (by rw [arena.1, arena.2]; exact physical) (by omega) (by omega)
    have window : distance t (base + BitVec.ofNat 64 (4096 * c)) < 2 ^ 39 := address ▸ Nat.lt_trans near (by decide)
    have here := added.others (pageNumber base + c) (by omega)
    rw [Function.update_self] at here
    have held : (kframeAllocateRange s.frames 1).1 ∉ p'.free := fun back => (free_of_take (added.free back)).2 rfl
    refine ⟨s', p', pages', (mapPages_succ (start_aligned start) n c given window).trans ran, same, added.backed,
      added.tracks,
      ?_, added.pa.trans pa, ?_, ?_, ?_, ?_, ?_, ?_⟩
    · exact ⟨added.arena.1.trans arena.1, added.arena.2.trans arena.2⟩
    · intro a elsewhere
      exact (added.word a elsewhere).trans (word a elsewhere)
    · intro f free
      exact (free_of_take (added.free free)).1
    · have later := added.card
      omega
    · intro q outside
      rw [added.others q (by omega), Function.update_of_ne (by omega)]
    · intro q low high
      cases Nat.eq_or_lt_of_le low with
      | inl first => exact ⟨_, first ▸ here, taken, held⟩
      | inr later =>
        obtain ⟨f, found, free, gone⟩ := added.new q (by omega) (by omega)
        exact ⟨f, found, (free_of_take free).1, gone⟩
    · -- the frame of the first page was not free any more when the others were taken
      have apart : ∀ q f, pageNumber base + c + 1 ≤ q → q < pageNumber base + c + 1 + n → pages' q = some (f, prot) →
          pages' (pageNumber base + c) ≠ some (f, prot) := by
        intro q f low high found same
        obtain ⟨g, own, free, _⟩ := added.new q (by omega) (by omega)
        rw [here] at same
        obtain ⟨rfl, _⟩ := Prod.mk.inj (Option.some.inj same)
        obtain ⟨rfl, _⟩ := Prod.mk.inj (Option.some.inj (found.symm.trans own))
        exact (free_of_take free).2 rfl
      rintro q r f ⟨lowQ, highQ⟩ ⟨lowR, highR⟩ foundQ foundR
      cases Nat.eq_or_lt_of_le lowQ with
      | inl firstQ =>
        subst firstQ
        cases Nat.eq_or_lt_of_le lowR with
        | inl firstR => exact firstR
        | inr laterR => exact absurd foundQ (apart r f (by omega) (by omega) foundR)
      | inr laterQ =>
        cases Nat.eq_or_lt_of_le lowR with
        | inl firstR =>
          subst firstR
          exact absurd foundR (apart q f (by omega) (by omega) foundQ)
        | inr laterR => exact added.distinct q r f ⟨by omega, by omega⟩ ⟨by omega, by omega⟩ foundQ foundR

end RealmVm
