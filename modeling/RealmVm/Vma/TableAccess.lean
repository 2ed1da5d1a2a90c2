import RealmVm.Vma.CreatedSpace

/-! Which table entries `page_table_map` reads and writes in the tables of a process. -/
namespace RealmVm

open Lib.Bits

/- The kernel's pointers to the entries, in the order of the source. -/

def linkLevelAccesses (m : Memory) (readAt writeAt : Word) : List Word :=
  readAt :: if isValid (m.load readAt) then [] else [writeAt]

def pageTableMapAccesses (m : Memory) (t : TranslationTables) (va : Word) : List Word :=
  let index := va - t.startVa
  let which512gb := index / bytes512gb
  let which1gb := index / bytes1gb
  let which2mb := index / bytes2mb
  if 0 < which512gb then []
  else if 512 < vaOffset48L0 va then []
  else
    let l0 := entryAddress t.vaPgd (vaOffset48L0 va)
    let first := linkLevelAccesses m l0 l0
    let m := linkLevel m l0 l0 (t.pud + which512gb * pageSize4KB)
    let l1 := entryAddress t.vaPud (vaOffset48L1 va)
    let second := linkLevelAccesses m l1 l1
    let m := linkLevel m l1 l1 (t.pmd + which1gb * pageSize4KB)
    let l2 := entryAddress t.vaPmd (vaOffset48L2 va + which1gb * 512)
    let third := linkLevelAccesses m l2 (entryAddress t.vaPmd (vaOffset48L2 va + which1gb * 512 / pageSize4KB))
    first ++ second ++ third ++ [entryAddress t.vaPt3 (vaOffset48L3 va + which2mb * 512)]

/- An entry of the seven pages, which lie in a row from the first one on. -/
def InTables (t : TranslationTables) (x : Word) : Prop := (x - t.vaPgd).toNat + 8 ≤ 7 * 4096

/- The four level-3 pages describe the first 8 MB. -/
def Describable (va : Word) : Prop := va.toNat < 2 ^ 23

/-- A call that returned `out` touched the seven pages only, and nothing at all for an address
that they cannot describe. -/
structure KeepsToTables (m : Memory) (t : TranslationTables) (va : Word) (out : CInt × Memory) : Prop where
  inside : ∀ x ∈ pageTableMapAccesses m t va, InTables t x
  rejected : ¬ Describable va → out.1 ≠ 0 ∧ out.2 = m

variable {m m₂ : Memory} {t t' : TranslationTables} {va pa readAt writeAt table x : Word} {flags isDev : CInt}
    {l : List Word}

/- The accesses are all. -/
section Footprint

/- Two memories with the same words behind the pointers of `l`. -/
def AgreeAt (l : List Word) (m m₂ : Memory) : Prop := m₂.pa = m.pa ∧ ∀ x ∈ l, m₂.load x = m.load x

theorem AgreeAt.store (agree : AgreeAt l m m₂) (v : Word) (x : Word) : AgreeAt l (m.store x v) (m₂.store x v) := by
  obtain ⟨pa, same⟩ := agree
  refine ⟨pa, fun y member => ?_⟩
  have before := same y member
  simp only [Memory.load, Memory.store, pa] at before ⊢
  cases decEq (m.pa y) (m.pa x) with
  | isTrue equal => rw [equal, Function.update_self, Function.update_self]
  | isFalse other => rw [Function.update_of_ne other, Function.update_of_ne other, before]

theorem AgreeAt.linkLevel (agree : AgreeAt l m m₂) (read : readAt ∈ l) (writeAt table : Word) :
    AgreeAt l (linkLevel m readAt writeAt table) (linkLevel m₂ readAt writeAt table) := by
  have same := agree.2 readAt read
  simp only [RealmVm.linkLevel, same]
  split
  · exact agree
  · exact agree.store _ _

theorem store_outside {a : Word} (v : Word) (outside : a ≠ m.pa x) : (m.store x v).word a = m.word a :=
  Function.update_of_ne outside _ _

theorem linkLevel_outside {a : Word} (table : Word)
    (outside : ∀ x ∈ linkLevelAccesses m readAt writeAt, a ≠ m.pa x) :
    (linkLevel m readAt writeAt table).word a = m.word a := by
  simp only [linkLevel]
  split
  · rfl
  · rename_i invalid
    apply store_outside
    apply outside
    rw [linkLevelAccesses, if_neg invalid]
    exact List.mem_cons_of_mem _ (List.mem_singleton_self _)

/- The three links and the leaf, at any addresses. -/
def mapLevels (m : Memory) (l0 table0 l1 table1 read2 write2 table2 l3 desc : Word) : Memory :=
  (linkLevel (linkLevel (linkLevel m l0 l0 table0) l1 l1 table1) read2 write2 table2).store l3 desc

def mapLevelsAccesses (m : Memory) (l0 table0 l1 table1 read2 write2 l3 : Word) : List Word :=
  linkLevelAccesses m l0 l0 ++ linkLevelAccesses (linkLevel m l0 l0 table0) l1 l1 ++
    linkLevelAccesses (linkLevel (linkLevel m l0 l0 table0) l1 l1 table1) read2 write2 ++ [l3]

theorem mapLevels_footprint {l0 table0 l1 table1 read2 write2 table2 l3 desc : Word}
    (agree : AgreeAt (mapLevelsAccesses m l0 table0 l1 table1 read2 write2 l3) m m₂) :
    (∀ a, (∀ x ∈ mapLevelsAccesses m l0 table0 l1 table1 read2 write2 l3, a ≠ m.pa x) →
      (mapLevels m l0 table0 l1 table1 read2 write2 table2 l3 desc).word a = m.word a) ∧
    AgreeAt (mapLevelsAccesses m l0 table0 l1 table1 read2 write2 l3)
      (mapLevels m l0 table0 l1 table1 read2 write2 table2 l3 desc)
      (mapLevels m₂ l0 table0 l1 table1 read2 write2 table2 l3 desc) := by
  constructor
  · intro a outside
    obtain ⟨upper, leaf⟩ := List.forall_mem_append.mp outside
    obtain ⟨links, third⟩ := List.forall_mem_append.mp upper
    obtain ⟨first, second⟩ := List.forall_mem_append.mp links
    have pa₁ := linkLevel_pa m l0 l0 table0
    have pa₂ := linkLevel_pa (linkLevel m l0 l0 table0) l1 l1 table1
    have pa₃ := linkLevel_pa (linkLevel (linkLevel m l0 l0 table0) l1 l1 table1) read2 write2 table2
    rw [← pa₁] at second
    rw [← pa₁, ← pa₂] at third
    rw [← pa₁, ← pa₂, ← pa₃] at leaf
    calc (mapLevels m l0 table0 l1 table1 read2 write2 table2 l3 desc).word a
        = (linkLevel (linkLevel (linkLevel m l0 l0 table0) l1 l1 table1) read2 write2 table2).word a :=
          store_outside desc (leaf l3 (List.mem_singleton_self _))
      _ = (linkLevel (linkLevel m l0 l0 table0) l1 l1 table1).word a := linkLevel_outside table2 third
      _ = (linkLevel m l0 l0 table0).word a := linkLevel_outside table1 second
      _ = m.word a := linkLevel_outside table0 first
  · have read0 : l0 ∈ mapLevelsAccesses m l0 table0 l1 table1 read2 write2 l3 :=
      List.mem_append_left _ (List.mem_append_left _ (List.mem_append_left _ List.mem_cons_self))
    have read1 : l1 ∈ mapLevelsAccesses m l0 table0 l1 table1 read2 write2 l3 :=
      List.mem_append_left _ (List.mem_append_left _ (List.mem_append_right _ List.mem_cons_self))
    have third : read2 ∈ mapLevelsAccesses m l0 table0 l1 table1 read2 write2 l3 :=
      List.mem_append_left _ (List.mem_append_right _ List.mem_cons_self)
    exact (((agree.linkLevel read0 _ _).linkLevel read1 _ _).linkLevel third _ _).store _ _

/-- What `page_table_map` does follows from the entries it accesses, and nothing else changes. -/
theorem pageTableMap_footprint (agree : AgreeAt (pageTableMapAccesses m t va) m m₂) :
    (pageTableMap m₂ t va pa flags isDev = none ↔ pageTableMap m t va pa flags isDev = none) ∧
      ∀ ret m', pageTableMap m t va pa flags isDev = some (ret, m') →
        (∀ a, (∀ x ∈ pageTableMapAccesses m t va, a ≠ m.pa x) → m'.word a = m.word a) ∧
        ∃ m₂', pageTableMap m₂ t va pa flags isDev = some (ret, m₂') ∧
          AgreeAt (pageTableMapAccesses m t va) m' m₂' := by
  by_cases far : 0 < (va - t.startVa) / bytes512gb
  · have crash : ∀ m, pageTableMap m t va pa flags isDev = none := fun m => if_pos far
    rw [crash, crash]
    exact ⟨Iff.rfl, fun ret m' returned => nomatch returned⟩
  · by_cases high : 512 < vaOffset48L0 va
    · have rejected : ∀ m, pageTableMap m t va pa flags isDev = some (-1, m) :=
        fun m => (if_neg far).trans (if_pos high)
      rw [rejected, rejected]
      refine ⟨iff_of_false (Option.some_ne_none _) (Option.some_ne_none _), fun ret m' returned => ?_⟩
      obtain ⟨rfl, rfl⟩ := Prod.mk.inj (Option.some.inj returned)
      exact ⟨fun _ _ => rfl, m₂, rfl, agree⟩
    · have mapped : ∀ m, pageTableMap m t va pa flags isDev = some (0, mapLevels m _ _ _ _ _ _ _ _ _) :=
        fun m => (if_neg far).trans (if_neg high)
      have accesses : pageTableMapAccesses m t va = mapLevelsAccesses m _ _ _ _ _ _ _ :=
        (if_neg far).trans (if_neg high)
      rw [accesses] at agree ⊢
      rw [mapped, mapped]
      refine ⟨iff_of_false (Option.some_ne_none _) (Option.some_ne_none _), fun ret m' returned => ?_⟩
      obtain ⟨rfl, rfl⟩ := Prod.mk.inj (Option.some.inj returned)
      obtain ⟨outside, after⟩ := mapLevels_footprint agree
      exact ⟨outside, _, rfl, after⟩

end Footprint

/- The layout that the kernel gives the tables of a process. -/
structure TablesInRow (t : TranslationTables) : Prop where
  start : t.startVa = 0
  pud : t.vaPud = t.vaPgd + 0x1000
  pmd : t.vaPmd = t.vaPgd + 0x2000
  pt3 : t.vaPt3 = t.vaPgd + 0x3000

theorem created_in_row {fuel : Nat} {s s' : TableKernel} {copy block garbage : Word} (start : t.startVa = 0)
    (created : createUserTranslationTable fuel s t copy block garbage = some (t', s')) : TablesInRow t' := by
  simp only [createUserTranslationTable] at created
  split at created
  · cases created
  · split at created
    · cases created
    · split at created
      · cases created
      · split at created
        · cases created
        · obtain ⟨rfl, _⟩ := Prod.mk.inj (Option.some.inj created)
          exact ⟨start, rfl, rfl, rfl⟩

theorem TablesInRow.index (row : TablesInRow t) (va : Word) : va - t.startVa = va := by
  rw [row.start]
  exact BitVec.sub_zero va

/- The level-3 entry, whose index is the page number. -/
theorem TablesInRow.leaf (row : TablesInRow t) (va : Word) :
    vaOffset48L3 va + (va - t.startVa) / bytes2mb * 512 = BitVec.ofNat 64 (va.toNat / 2 ^ 12) := by
  have block := (which_toNat t va).2
  have third := vaOffset48L3_toNat (t := t) va (start_aligned row.start)
  have wide := va.isLt
  have times : (512 : Word).toNat = 512 := rfl
  rw [row.index] at block third ⊢
  apply BitVec.eq_of_toNat_eq
  rw [BitVec.toNat_add, BitVec.toNat_mul, third, block, times, BitVec.toNat_ofNat]
  omega

theorem TablesInRow.distance_leaf (row : TablesInRow t) (va : Word) :
    (entryAddress t.vaPt3 (vaOffset48L3 va + (va - t.startVa) / bytes2mb * 512) - t.vaPgd).toNat =
      0x3000 + 8 * (va.toNat / 2 ^ 12) := by
  have wide := va.isLt
  rw [row.leaf, row.pt3]
  unfold entryAddress
  bv_omega

theorem mem_leaf (m : Memory) (t : TranslationTables) (va : Word) :
    entryAddress t.vaPt3 (vaOffset48L3 va + (va - t.startVa) / bytes2mb * 512) ∈ pageTableMapAccesses m t va := by
  obtain ⟨zero, low⟩ := tests_pass t va
  rw [pageTableMapAccesses, if_neg zero, if_neg low]
  exact List.mem_append_right _ (List.mem_singleton_self _)

/-- Beyond the first 8 MB the level-3 entry lies behind the tables. -/
theorem leaf_outside (row : TablesInRow t) (far : ¬ Describable va) :
    ¬ InTables t (entryAddress t.vaPt3 (vaOffset48L3 va + (va - t.startVa) / bytes2mb * 512)) := by
  unfold InTables
  unfold Describable at far
  rw [row.distance_leaf]
  omega

theorem mem_linkLevelAccesses (member : x ∈ linkLevelAccesses m readAt writeAt) : x = readAt ∨ x = writeAt := by
  rw [linkLevelAccesses] at member
  cases List.mem_cons.mp member with
  | inl read => exact .inl read
  | inr written =>
    split at written
    · exact nomatch written
    · exact .inr (List.mem_singleton.mp written)

/-- In the first 8 MB every entry lies in its table. -/
theorem tableAccesses_inside (row : TablesInRow t) (near : Describable va) :
    ∀ x ∈ pageTableMapAccesses m t va, InTables t x := by
  unfold Describable at near
  have address := distance_zero row.start va
  have first : va.toNat < 2 ^ 30 := Nat.lt_trans near (by decide)
  obtain ⟨zeroth, one⟩ := low_indices first
  have inside : distance t va < 2 ^ 39 := by
    rw [address]
    exact Nat.lt_trans near (by decide)
  obtain ⟨_, _, readAt, writeAt, _⟩ := source_indices (start_aligned row.start) inside
  rw [address] at readAt writeAt
  rw [pmdWriteIndex_first first] at writeAt
  have l0 : (entryAddress t.vaPgd (vaOffset48L0 va) - t.vaPgd).toNat = 0 := by
    rw [ofNat_toNat_eq zeroth]
    unfold entryAddress
    bv_omega
  have l1 : (entryAddress t.vaPud (vaOffset48L1 va) - t.vaPgd).toNat = 0x1000 := by
    rw [ofNat_toNat_eq one, row.pud]
    unfold entryAddress
    bv_omega
  have l2 : (entryAddress t.vaPmd (BitVec.ofNat 64 (va.toNat / 2 ^ 21)) - t.vaPgd).toNat =
      0x2000 + 8 * (va.toNat / 2 ^ 21) := by
    rw [row.pmd]
    unfold entryAddress
    bv_omega
  have l3 := row.distance_leaf va
  intro x member
  unfold InTables
  obtain ⟨zero, low⟩ := tests_pass t va
  rw [pageTableMapAccesses, if_neg zero, if_neg low, readAt, writeAt] at member
  cases List.mem_append.mp member with
  | inr leaf =>
    rw [List.mem_singleton.mp leaf]
    omega
  | inl links =>
    cases List.mem_append.mp links with
    | inr third =>
      rcases mem_linkLevelAccesses third with rfl | rfl
      · omega
      · omega
    | inl upper =>
      cases List.mem_append.mp upper with
      | inl top =>
        rcases mem_linkLevelAccesses top with rfl | rfl
        · omega
        · omega
      | inr second =>
        rcases mem_linkLevelAccesses second with rfl | rfl
        · omega
        · omega

theorem keeps_to_tables (row : TablesInRow t) (near : Describable va) (out : CInt × Memory) :
    KeepsToTables m t va out :=
  ⟨tableAccesses_inside row near, fun far => absurd near far⟩

theorem leaves_tables (row : TablesInRow t) (far : ¬ Describable va) (out : CInt × Memory) :
    ¬ KeepsToTables m t va out :=
  fun keeps => leaf_outside row far (keeps.inside _ (mem_leaf m t va))

/-- In the tables that the kernel makes for a process, a call keeps to them exactly when its
address lies in the first 8 MB. -/
theorem keeps_to_tables_iff {fuel : Nat} {s s' : TableKernel} {copy block garbage : Word} (start : t.startVa = 0)
    (created : createUserTranslationTable fuel s t copy block garbage = some (t', s')) {out : CInt × Memory}
    (_ : pageTableMap m t' va pa flags isDev = some out) : KeepsToTables m t' va out ↔ Describable va := by
  have row := created_in_row start created
  constructor
  · intro keeps
    by_contra far
    exact leaves_tables row far out keeps
  · intro near
    exact keeps_to_tables row near out

/-- The page at 0x1000 of a new process. -/
theorem keeps_to_tables_iff_low_page : ∃ t' s' out,
    createUserTranslationTable 0 (bareKernel fun _ => 0) noTables 0xFFFFF00000601000 0 0 = some (t', s') ∧
      pageTableMap s'.memory t' 0x1000 0x40000000 0 0 = some out ∧
      (KeepsToTables s'.memory t' 0x1000 out ↔ Describable 0x1000) := by
  obtain ⟨p, ready⟩ := bareKernel_ready (fun _ => 0) fun _ _ _ => rfl
  obtain ⟨s', created⟩ := bareKernel_creates ready
  have start : (userTables (bareKernel fun _ => 0) noTables).startVa = 0 := rfl
  have mapped := pageTableMap_eq s'.memory (start_aligned start) 0x1000 0x40000000 0 0
    (by rw [distance_zero start]; decide)
  exact ⟨_, s', _, created, mapped, keeps_to_tables_iff rfl created mapped⟩

/-- A segment of an executable at 8 MB: its descriptor is written behind the level-3 pages. -/
theorem segment_leaves_tables : ∃ t' s',
    createUserTranslationTable 0 (bareKernel fun _ => 0) noTables 0xFFFFF00000601000 0 0 = some (t', s') ∧
      ¬ ∀ va pa out, pageTableMap s'.memory t' va pa 0 0 = some out → KeepsToTables s'.memory t' va out := by
  obtain ⟨p, ready⟩ := bareKernel_ready (fun _ => 0) fun _ _ _ => rfl
  obtain ⟨s', created⟩ := bareKernel_creates ready
  have row : TablesInRow (userTables (bareKernel fun _ => 0) noTables) := created_in_row rfl created
  have mapped := pageTableMap_eq s'.memory (start_aligned row.start) 0x800000 0x40000000 0 0
    (by rw [distance_zero row.start]; decide)
  have far : ¬ Describable 0x800000 := by
    unfold Describable
    decide
  exact ⟨_, s', created, fun always => leaves_tables row far _ (always _ _ _ mapped)⟩

end RealmVm
