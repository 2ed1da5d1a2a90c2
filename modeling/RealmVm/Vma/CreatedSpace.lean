import RealmVm.Vma.FrameRuns
import RealmVm.Vma.UserTables

/-! The address space of a new process: what its tables translate after
`create_user_translation_table` and any mappings of its first 8 MB. -/
namespace RealmVm

open Lib Lib.Bits

/-- When the frames of the new tables hold no valid entry, the walk finds the last mapping
of every page and nothing else. -/
theorem fresh_space_own_mappings {fuel : Nat} {s s' : TableKernel} {p : Pool Word} {t t' : TranslationTables}
    {copy block garbage : Word} (ready : KernelReady s p) (room : RoomForPt3 s.secureFrames) (start : t.startVa = 0)
    (noStale : NoValidEntry s.memory (userTables s t))
    (created : createUserTranslationTable fuel s t copy block garbage = some (t', s')) {calls : List MapCall}
    (inside : ∀ c ∈ calls, c.InSpace) {m' : Memory} (run : Run (mapStep t') s'.memory calls m') {va : Word}
    (lower : va.toNat < 2 ^ 48) : walk m'.word t'.pgd va = lastPage calls va := by
  obtain ⟨rfl, laid, kept⟩ := created_spec ready room created
  have empty : NoValidEntry s'.memory (userTables s t) := by
    intro l i inTable
    rw [kept l i inTable]
    exact noStale l i inTable
  have lowerHalf : (userTables s t).startVa = 0 := start
  have own := (OwnSpace.fresh laid empty).run lowerHalf inside run
  exact own.walk_eq lowerHalf inside lower

/-- Where the kernel mapped nothing, before or now, it sees what it saw. -/
theorem created_elsewhere {fuel : Nat} {s s' : TableKernel} {p : Pool Word} {t t' : TranslationTables}
    {copy block garbage : Word} (ready : KernelReady s p) (room : RoomForPt3 s.secureFrames)
    (nothing : Translates s.memory s.secureT kernelPages fun _ => none)
    (created : createUserTranslationTable fuel s t copy block garbage = some (t', s')) {va : Word}
    (near : distance s.secureT va < 2 ^ 32)
    (other : lastMapping ((List.range 7).map (tableCall t')) va = none) :
    s'.memory.pa va = s.memory.pa va ∧
      ∀ a, Elsewhere s.secureT kernelPages a → s'.memory.word a = s.memory.word a := by
  obtain ⟨same, ⟨pgd, pud, pmd⟩, memory, mapped, after⟩ := created_cases ready created
  have base : t'.vaPgd = (s.regions s.regionHead).vaBase := by rw [same]; rfl
  have frames : TableFrames s.secureFrames t'.pgd t'.pud t'.pmd t'.pt3 := by
    rw [same] at pgd pud pmd ⊢
    exact table_frames ready.tracks room pgd pud pmd
  have inWindow := tableCalls_inWindow ready base frames
  have first : ∀ c ∈ (List.range 7).map (tableCall t'), distance s.secureT c.va < 2 ^ 30 := by
    intro c member
    obtain ⟨n, small, rfl⟩ := List.mem_map.mp member
    have few := List.mem_range.mp small
    have place := (tableCall_va ready base few).2
    have window := ready.window
    rw [← base] at window
    omega
  obtain ⟨m, run, wired, translates⟩ := ready.wired.run ready.start inWindow
  have called := mapKernelPages_of_run (tableMappings_eq t' ▸ run)
  obtain rfl := Option.some.inj (called.symm.trans mapped)
  obtain ⟨pa, word⟩ := ready.wired.run_elsewhere ready.start inWindow run
  have walked := walk_eq_lastMapping wired ready.start inWindow first (translates _ first nothing) near
  rw [other] at walked
  rw [after]
  refine ⟨?_, word⟩
  show (walk m.word s.secureT.pgd va).getD (m.pa va) = s.memory.pa va
  rw [walked, pa]
  rfl

/-- The region list may have more records than before. -/
theorem KernelReady.record {s : TableKernel} {p : Pool Word} (ready : KernelReady s p) {region : Word}
    (other : region ≠ s.regionHead) (r : MemRegion) :
    KernelReady { s with regions := Function.update s.regions region r } p := by
  obtain ⟨wired, start, translates, tracks, physical, apart, proper, unmapped, aligned, window⟩ := ready
  rw [← Function.update_of_ne other.symm r s.regions] at unmapped aligned window
  exact ⟨wired, start, translates, tracks, physical, apart, proper, unmapped, aligned, window⟩

/- A kernel with zeroed tables, 16 secure frames behind them, and no process yet. -/
def bareSecureFrames : KframeAlloc := (kframeAllocatorInit bareFrames (fun _ => 0xFF) 16 0x1000000 0x10000).2

def bareKernel (word : Word → Word) : TableKernel where
  secureFrames := bareSecureFrames
  regions := kernelVmaRegionsAlloc (fun _ => zeroedRegion) 0x80C00 0xFFFFF00001600000 0xA00000
  regionHead := 0x80C00
  secureT := bareTables
  memory := ⟨word, id⟩

def noTables : TranslationTables := ⟨0, 0, 0, 0, 0, 0, 0, 0, 0, 0⟩

theorem bareTables_low (l : Level) : (bareTables.base l).toNat + kernelPages l * 4096 ≤ 0x1000000 := by
  cases l <;> decide

theorem bareKernel_ready (word : Word → Word)
    (zero : ∀ l, ∀ i < kernelPages l * 512, word (entryAddress (bareTables.base l) (BitVec.ofNat 64 i)) = 0) :
    ∃ p, KernelReady (bareKernel word) p := by
  obtain ⟨linked, translates⟩ := zeroed (m := ⟨word, id⟩) (t := bareTables) capacity_kernelPages zero
  have laid : LaidOut ⟨word, id⟩ bareTables kernelPages := bareTables_laidOut.of_pa rfl
  have tracks : Tracks bareSecureFrames _ := kframeAllocatorInit_tracks bareFrames (fun _ => 0xFF) 16 0x1000000 0x10000
    (by decide) (by decide) (by decide) (by decide)
  have physical : bareSecureFrames.frameStart.toNat + bareSecureFrames.frameCount.toNat * 4096 ≤ 2 ^ 48 := by decide
  have start : bareTables.startVa.toNat % 2 ^ 30 = 0 := by decide
  have aligned : (kernelVmaRegionsAlloc (fun _ => zeroedRegion) 0x80C00 0xFFFFF00001600000 0xA00000
      0x80C00).vaBase.toNat % 4096 = 0 := by
    decide
  have window : distance bareTables 0xFFFFF00001600000 + 0x7000 ≤ 2 ^ 30 := by decide
  exact ⟨_, ⟨laid, linked⟩, start, ⟨_, translates⟩, tracks, physical, fun l => .inl (bareTables_low l),
    (by decide : (0x80C00 : Word) ≠ 0), rfl, aligned, window⟩

theorem bareSecureFrames_room : RoomForPt3 bareSecureFrames := by
  refine ⟨3, by decide +kernel, ?_⟩
  intro k low high
  obtain rfl | rfl | rfl | rfl : k = 3 ∨ k = 4 ∨ k = 5 ∨ k = 6 := by omega
  · decide +kernel
  · decide +kernel
  · decide +kernel
  · decide +kernel

/- The first three frames. -/
theorem bareKernel_tables (word : Word → Word) :
    (userTables (bareKernel word) noTables).pgd = 0x1000000 ∧ (userTables (bareKernel word) noTables).pud = 0x1001000 ∧
      (userTables (bareKernel word) noTables).pmd = 0x1002000 := by
  have frames : (kframeAllocateRange bareSecureFrames 1).1 = 0x1000000 ∧
      (kframeAllocateRange (kframeAllocateRange bareSecureFrames 1).2 1).1 = 0x1001000 ∧
      (kframeAllocateRange (kframeAllocateRange (kframeAllocateRange bareSecureFrames 1).2 1).2 1).1 = 0x1002000 := by
    decide +kernel
  simp only [userTables, bareKernel]
  exact frames

theorem bareKernel_creates {word : Word → Word} {p : Pool Word} (ready : KernelReady (bareKernel word) p) :
    ∃ s', createUserTranslationTable 0 (bareKernel word) noTables 0xFFFFF00000601000 0 0 =
      some (userTables (bareKernel word) noTables, s') := by
  obtain ⟨pgd, pud, pmd⟩ := bareKernel_tables word
  apply creates ready bareSecureFrames_room (by decide)
  · rw [pgd]
    decide
  · rw [pud]
    decide
  · rw [pmd]
    decide

/- One page at 0x1000 of the new process. -/
def ownPage : MapCall := ⟨.user, 0x1000, 0x40000000, 3⟩

theorem fresh_space_own_mappings_one_page :
    ∃ t' s' m', createUserTranslationTable 0 (bareKernel fun _ => 0) noTables 0xFFFFF00000601000 0 0 = some (t', s') ∧
      Run (mapStep t') s'.memory [ownPage] m' ∧
      walk m'.word t'.pgd 0x1234 = lastPage [ownPage] 0x1234 := by
  obtain ⟨p, ready⟩ := bareKernel_ready (fun _ => 0) fun _ _ _ => rfl
  obtain ⟨s', created⟩ := bareKernel_creates ready
  have inside : ∀ c ∈ [ownPage], c.InSpace := List.forall_mem_singleton.mpr ⟨by decide, by decide⟩
  have start : (userTables (bareKernel fun _ => 0) noTables).startVa = 0 := rfl
  have noStale : NoValidEntry (bareKernel fun _ => 0).memory (userTables (bareKernel fun _ => 0) noTables) := by
    intro l i _
    have zero : entry (bareKernel fun _ => 0).memory (userTables (bareKernel fun _ => 0) noTables) l i = 0 := by
      simp only [entry, bareKernel]
    rw [zero]
    rfl
  obtain ⟨m', run⟩ := calls_succeed start inside s'.memory
  exact ⟨_, s', m', created, run,
    fresh_space_own_mappings ready bareSecureFrames_room rfl noStale created inside run (by decide)⟩

/- The first two secure frames as a former owner left them: the first links to the second, and
that one holds a 1 GB block. -/
def staleWord (a : Word) : Word :=
  if a = 0x1000000 then 0x1001003 else if a = 0x1001000 then 0x40000001 else 0

theorem staleWord_elsewhere {a : Word} (low : a.toNat < 0x1000000) : staleWord a = 0 := by
  have first : a ≠ 0x1000000 := by bv_omega
  have second : a ≠ 0x1001000 := by bv_omega
  rw [staleWord, if_neg first, if_neg second]

/-- Nothing is mapped, and address 0 is translated. -/
theorem stale_entry_translates :
    ∃ t' s', createUserTranslationTable 0 (bareKernel staleWord) noTables 0xFFFFF00000601000 0 0 = some (t', s') ∧
      ¬ ∀ m', Run (mapStep t') s'.memory [] m' →
        ∀ va, va.toNat < 2 ^ 48 → walk m'.word t'.pgd va = lastPage [] va := by
  have zero : ∀ l, ∀ i < kernelPages l * 512,
      staleWord (entryAddress (bareTables.base l) (BitVec.ofNat 64 i)) = 0 := by
    intro l i inside
    have low := bareTables_low l
    apply staleWord_elsewhere
    rw [bareTables_laidOut.entryAddress_toNat inside]
    omega
  obtain ⟨p, ready⟩ := bareKernel_ready staleWord zero
  obtain ⟨s', created⟩ := bareKernel_creates ready
  obtain ⟨-, -, kept⟩ := created_spec ready bareSecureFrames_room created
  refine ⟨_, s', created, fun agrees => ?_⟩
  obtain ⟨pgd, pud, -⟩ := bareKernel_tables staleWord
  have first : s'.memory.word 0x1000000 = 0x1001003 := by
    have same := kept .pgd 0 (by decide)
    simp only [entry, TranslationTables.base, pgd] at same
    exact same
  have second : s'.memory.word 0x1001000 = 0x40000001 := by
    have same := kept .pud 0 (by decide)
    simp only [entry, TranslationTables.base, pud] at same
    exact same
  have untranslated : walk s'.memory.word 0x1000000 0 = none := pgd ▸ agrees s'.memory (.nil _) 0 (by decide)
  have l0 : s'.memory.word (entryAddress 0x1000000 (vaOffset48L0 0)) = 0x1001003 := first
  have l1 : s'.memory.word (entryAddress (nextLevelTableAddress 0x1001003) (vaOffset48L1 0)) = 0x40000001 := second
  have block : walk s'.memory.word 0x1000000 0 = some (Leaf.address ⟨0x40000001, 30⟩ 0) := by
    have valid : (!isValid 0x1001003 || !isLink 0x1001003) = false := by decide
    have present : (!isValid 0x40000001) = false := by decide
    have leaf : (!isLink 0x40000001) = true := by decide
    simp only [walk, walkLeaf, l0, valid, l1, present, leaf, if_true, Option.map_some, Bool.false_eq_true, if_false]
  cases untranslated.symm.trans block

end RealmVm
