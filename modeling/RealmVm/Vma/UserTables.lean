import RealmVm.Vma.FrameRequests
import RealmVm.Vma.KernelVma
import RealmVm.Vma.OwnSpace

/-! `create_user_translation_table`: seven secure frames, made visible to the kernel. -/
namespace RealmVm

open Lib Lib.Bits

/- The members of `kernel_struct` that the function uses, and memory. -/
structure TableKernel where
  secureFrames : KframeAlloc
  regions : Regions
  regionHead : Word
  secureT : TranslationTables
  memory : Memory

/- The return codes are not looked at. `none` when one of the calls crashes. -/
def mapKernelPages (t : TranslationTables) : Memory → List (Word × Word) → Option Memory
  | m, [] => some m
  | m, (va, pa) :: rest =>
    match pageTableMapKernel m t va pa protRw with
    | none => none
    | some (_, m) => mapKernelPages t m rest

def tableMappings (vaBase pgd pud pmd pt3 : Word) : List (Word × Word) :=
  [(vaBase, pgd), (vaBase + 0x1000, pud), (vaBase + 0x2000, pmd)] ++
    (List.range 4).map fun count =>
      (vaBase + 0x3000 + BitVec.ofNat 64 count * pageSize4KB, pt3 + BitVec.ofNat 64 count * pageSize4KB)

/- The kernel's pointers, translated by the tables at `pgd`. The pages mapped above are
not those through which the kernel edits its own tables, so it is enough to look again
when all are mapped. -/
def Memory.through (m : Memory) (pgd : Word) : Memory :=
  { m with pa := fun va => (walk m.word pgd va).getD (m.pa va) }

/- `none` when `crash()` is called. `copy`, `block` and `garbage` are those of `kernel_vma_alloc`. -/
def createUserTranslationTable (fuel : Nat) (s : TableKernel) (t : TranslationTables) (copy block garbage : Word) :
    Option (TranslationTables × TableKernel) :=
  let (pgd, frames) := kframeAllocateRange s.secureFrames 1
  let (pud, frames) := kframeAllocateRange frames 1
  let (pmd, frames) := kframeAllocateRange frames 1
  let (pt3, frames) := kframeAllocateRange frames 4
  if pgd = mapFailed ∨ pud = mapFailed ∨ pmd = mapFailed ∨ pt3 = mapFailed then none
  else
    match kernelVmaAlloc fuel s.regions s.regionHead garbage copy block 0 8 0 with
    | none => none
    | some (region, regions) =>
      if region = 0 then none
      else
        let vaBase := (regions region).vaBase
        match mapKernelPages s.secureT s.memory (tableMappings vaBase pgd pud pmd pt3) with
        | none => none
        | some memory =>
          some ({ t with pgd := pgd, pud := pud, pmd := pmd, pt3 := pt3, vaPgd := vaBase, vaPud := vaBase + 0x1000,
                         vaPmd := vaBase + 0x2000, vaPt3 := vaBase + 0x3000 },
            { s with secureFrames := frames, regions := regions, memory := memory.through s.secureT.pgd })

/-- The kernel after its start: its tables work for the first gigabyte of its window, the
secure frames are in order and apart from these tables, and the region list is as
`kernel_vma_regions_alloc` left it. -/
structure KernelReady (s : TableKernel) (p : Pool Word) : Prop where
  wired : Wired s.memory s.secureT
  start : s.secureT.startVa.toNat % 2 ^ 30 = 0
  translates : ∃ f, Translates s.memory s.secureT kernelPages f
  tracks : Tracks s.secureFrames p
  physical : s.secureFrames.frameStart.toNat + s.secureFrames.frameCount.toNat * 4096 ≤ 2 ^ 48
  apart : ∀ l, (s.secureT.base l).toNat + kernelPages l * 4096 ≤ s.secureFrames.frameStart.toNat ∨
    s.secureFrames.frameStart.toNat + s.secureFrames.frameCount.toNat * 4096 ≤ (s.secureT.base l).toNat
  proper : s.regionHead ≠ 0
  unmapped : (s.regions s.regionHead).isMapped = 0
  aligned : (s.regions s.regionHead).vaBase.toNat % 4096 = 0
  window : distance s.secureT (s.regions s.regionHead).vaBase + 0x7000 ≤ 2 ^ 30

/- What the kernel tables translate afterwards, and what the mappings leave alone. -/
section Kernel

variable {m m' : Memory} {t : TranslationTables} {pages : Level → Nat} {f : Nat → Option Word}

/-- An address that is no entry of the tables. -/
def Elsewhere (t : TranslationTables) (pages : Level → Nat) (a : Word) : Prop :=
  ∀ l, ∀ i < pages l * 512, a ≠ entryAddress (t.base l) (BitVec.ofNat 64 i)

theorem LaidOut.store_elsewhere (laid : LaidOut m t pages) {l : Level} {i : Nat} (hi : i < pages l * 512) (v : Word)
    {a : Word} (elsewhere : Elsewhere t pages a) : (m.store (slot t l i) v).word a = m.word a := by
  simp only [Memory.store, slot, laid.visible l i hi]
  exact Function.update_of_ne (elsewhere l i hi) _ _

theorem LaidOut.linkLevel_elsewhere (laid : LaidOut m t pages) {l : Level} {i : Nat} (hi : i < pages l * 512)
    (r table : Word) {a : Word} (elsewhere : Elsewhere t pages a) :
    (linkLevel m r (slot t l i) table).word a = m.word a := by
  unfold linkLevel
  simp only
  split
  · rfl
  · exact laid.store_elsewhere hi _ elsewhere

theorem mapEntries_elsewhere (laid : LaidOut m t pages) (capacity : Capacity pages) {va pa : Word}
    {flags isDev : CInt} (near : distance t va < pages .pt3 * 2 ^ 21) {a : Word} (elsewhere : Elsewhere t pages a) :
    (mapEntries m t va pa flags isDev).word a = m.word a := by
  obtain ⟨i0, i1, _, w2, i3⟩ := capacity.indices near
  unfold mapEntries
  extract_lets d m₁ m₂ m₃
  have laid₁ : LaidOut m₁ t pages := laid.of_pa (linkLevel_pa _ _ _ _)
  have laid₂ : LaidOut m₂ t pages := laid₁.of_pa (linkLevel_pa _ _ _ _)
  have laid₃ : LaidOut m₃ t pages := laid₂.of_pa (linkLevel_pa _ _ _ _)
  calc (m₃.store (slot t .pt3 (d / 2 ^ 12)) (leafEntry pa flags isDev)).word a
      = m₃.word a := laid₃.store_elsewhere i3 _ elsewhere
    _ = m₂.word a := laid₂.linkLevel_elsewhere w2 _ _ elsewhere
    _ = m₁.word a := laid₁.linkLevel_elsewhere i1 _ _ elsewhere
    _ = m.word a := laid.linkLevel_elsewhere i0 _ _ elsewhere

theorem Wired.run_elsewhere (wired : Wired m t) (start : t.startVa.toNat % 2 ^ 30 = 0) {calls : List MapCall}
    (inWindow : ∀ c ∈ calls, c.InWindow t) (run : Run (mapStep t) m calls m') :
    m'.pa = m.pa ∧ ∀ a, Elsewhere t kernelPages a → m'.word a = m.word a := by
  induction run with
  | nil => exact ⟨rfl, fun a _ => rfl⟩
  | @cons m₀ m₁ m₂ c rest head _ ih =>
    obtain ⟨here, later⟩ := List.forall_mem_cons.mp inWindow
    obtain ⟨_, step, next, -⟩ := wired.step start here
    obtain rfl := mapStep_unique _ _ _ _ step head
    obtain ⟨pa, word⟩ := ih next later
    obtain rfl := mapStep_unique _ _ _ _ head (mapStep_eq start here _)
    have changed := mapEntries_spec wired.laid capacity_kernelPages c.va c.pa (c.wrapper.flags c.prot) c.wrapper.isDev
      here.near
    refine ⟨pa.trans changed.pa_eq, fun a elsewhere => (word a elsewhere).trans ?_⟩
    exact mapEntries_elsewhere wired.laid capacity_kernelPages here.near elsewhere

/- The mappings as calls. -/
def kernelCall (pair : Word × Word) : MapCall := ⟨.kernel, pair.1, pair.2, protRw⟩

theorem mapKernelPages_of_run {pairs : List (Word × Word)} (run : Run (mapStep t) m (pairs.map kernelCall) m') :
    mapKernelPages t m pairs = some m' := by
  induction pairs generalizing m with
  | nil =>
    cases run
    rfl
  | cons pair rest ih =>
    cases run with
    | cons head tail =>
      have called : pageTableMapKernel m t pair.1 pair.2 protRw = _ := head
      simp only [mapKernelPages, called]
      exact ih tail

/-- A page that one call maps is translated as that call says. -/
theorem leavesAfter_own {calls : List MapCall} {c : MapCall} (member : c ∈ calls)
    (alone : ∀ d ∈ calls, distance t d.va / 2 ^ 12 = distance t c.va / 2 ^ 12 → d = c) :
    leavesAfter t f calls (distance t c.va / 2 ^ 12) = some c.leaf := by
  rw [leavesAfter_eq]
  cases found : calls.reverse.find? fun d => distance t d.va / 2 ^ 12 = distance t c.va / 2 ^ 12 with
  | none =>
    have missing := List.find?_eq_none.mp found c (List.mem_reverse.mpr member)
    exact absurd (decide_eq_true rfl) missing
  | some d =>
    have same : distance t d.va / 2 ^ 12 = distance t c.va / 2 ^ 12 := by simpa using List.find?_some found
    have inside := List.mem_reverse.mp (List.mem_of_find?_eq_some found)
    rw [alone d inside same]
    rfl

/-- The page of a call that the tables still translate as it says. -/
theorem walk_of_leaf (wired : Wired m t) (start : t.startVa.toNat % 2 ^ 30 = 0)
    (translates : Translates m t kernelPages f) {c : MapCall} (inWindow : c.InWindow t)
    (first : distance t c.va < 2 ^ 30) (leaf : f (distance t c.va / 2 ^ 12) = some c.leaf) {x : Nat}
    (inPage : x < 4096) :
    walk m.word t.pgd (c.va + BitVec.ofNat 64 x) = some (c.pa + BitVec.ofNat 64 x) := by
  have aligned := inWindow.va
  have further : distance t (c.va + BitVec.ofNat 64 x) = distance t c.va + x := by
    unfold distance at *
    bv_omega
  have pages : distance t c.va % 4096 = 0 := by
    unfold distance at *
    bv_omega
  have page : distance t (c.va + BitVec.ofNat 64 x) / 2 ^ 12 = distance t c.va / 2 ^ 12 := by omega
  have window : kernelPages .pt3 = 2048 := rfl
  have own := (same_page start (c.va + BitVec.ofNat 64 x) aligned).mp page.symm
  have offset : c.va + BitVec.ofNat 64 x - pageDown (c.va + BitVec.ofNat 64 x) = BitVec.ofNat 64 x := by
    rw [← own, BitVec.add_comm]
    exact BitVec.add_sub_cancel ..
  rw [walk, translates.walkLeaf_eq wired.linked capacity_kernelPages start (by omega) (by omega), page, leaf]
  have address := leaf_address inWindow.pa inWindow.output (c.va + BitVec.ofNat 64 x)
  rw [offset] at address
  exact congrArg some address

end Kernel

/- The frames. -/
section TableFrames

variable {fa : KframeAlloc} {p : Pool Word}

/-- One frame that was free, and the pool without it. -/
theorem allocate_one (tracks : Tracks fa p) {out : Word × KframeAlloc} (ran : kframeAllocateRange fa 1 = out)
    (success : out.1 ≠ mapFailed) :
    ∃ available : {out.1} ⊆ p.free, Tracks out.2 (p.take {out.1} available) := by
  rcases tracks.kframeAllocateRange_one out ran with ⟨_, available, after⟩ | ⟨failed, _⟩
  · exact ⟨available, after⟩
  · exact absurd (congrArg Prod.fst failed) success

theorem free_of_take {a b : Word} {available : {a} ⊆ p.free} (free : b ∈ (p.take {a} available).free) :
    b ∈ p.free ∧ b ≠ a := by
  obtain ⟨inside, notHeld⟩ := Pool.mem_free.mp free
  rw [Pool.held_take, Finset.mem_union, not_or] at notHeld
  exact ⟨Pool.mem_free.mpr ⟨inside, notHeld.1⟩, fun same => notHeld.2 (Finset.mem_singleton.mpr same)⟩

/- What `kframe_allocate_range` hands out for the four tables. -/
def threeTaken (fa : KframeAlloc) : KframeAlloc :=
  (kframeAllocateRange (kframeAllocateRange (kframeAllocateRange fa 1).2 1).2 1).2

/-- The allocator still has four frames in a row for the level-3 tables. -/
def RoomForPt3 (fa : KframeAlloc) : Prop :=
  ∃ j, j + 4 ≤ (threeTaken fa).frameCount.toNat ∧ FreeRun (threeTaken fa) 4 j

/-- Seven different frames of the arena. -/
def TableFrames (fa : KframeAlloc) (pgd pud pmd pt3 : Word) : Prop :=
  ∃ k₀ k₁ k₂ j, frameAddress fa k₀ = pgd ∧ frameAddress fa k₁ = pud ∧ frameAddress fa k₂ = pmd ∧
    frameAddress fa j = pt3 ∧ (k₀ < fa.frameCount.toNat ∧ k₁ < fa.frameCount.toNat ∧ k₂ < fa.frameCount.toNat ∧
    j + 4 ≤ fa.frameCount.toNat) ∧ k₀ ≠ k₁ ∧ k₀ ≠ k₂ ∧ k₁ ≠ k₂ ∧
    (k₀ < j ∨ j + 4 ≤ k₀) ∧ (k₁ < j ∨ j + 4 ≤ k₁) ∧ (k₂ < j ∨ j + 4 ≤ k₂)

theorem place_of_free (tracks : Tracks fa p) {a : Word} (free : a ∈ p.free) :
    ∃ k < fa.frameCount.toNat, frameAddress fa k = a := by
  have inside := (Pool.mem_free.mp free).1
  rw [tracks.all_eq] at inside
  exact mem_arena.mp inside

theorem table_frames (tracks : Tracks fa p) (room : RoomForPt3 fa)
    (pgd : (kframeAllocateRange fa 1).1 ≠ mapFailed)
    (pud : (kframeAllocateRange (kframeAllocateRange fa 1).2 1).1 ≠ mapFailed)
    (pmd : (kframeAllocateRange (kframeAllocateRange (kframeAllocateRange fa 1).2 1).2 1).1 ≠ mapFailed) :
    TableFrames fa (kframeAllocateRange fa 1).1 (kframeAllocateRange (kframeAllocateRange fa 1).2 1).1
      (kframeAllocateRange (kframeAllocateRange (kframeAllocateRange fa 1).2 1).2 1).1
      (kframeAllocateRange (threeTaken fa) 4).1 := by
  have arena₁ := kframeAllocateRange_arena fa 1
  have arena₂ := kframeAllocateRange_arena (kframeAllocateRange fa 1).2 1
  have arena₃ := kframeAllocateRange_arena (kframeAllocateRange (kframeAllocateRange fa 1).2 1).2 1
  obtain ⟨free₀, tracks₁⟩ := allocate_one tracks rfl pgd
  obtain ⟨free₁, tracks₂⟩ := allocate_one tracks₁ rfl pud
  obtain ⟨free₂, tracks₃⟩ := allocate_one tracks₂ rfl pmd
  change Tracks (threeTaken fa) _ at tracks₃
  have start : (threeTaken fa).frameStart = fa.frameStart := arena₃.1.trans (arena₂.1.trans arena₁.1)
  have count : (threeTaken fa).frameCount = fa.frameCount := arena₃.2.trans (arena₂.2.trans arena₁.2)
  have address : ∀ k, frameAddress (threeTaken fa) k = frameAddress fa k := fun k => by
    simp only [frameAddress, start]
  obtain ⟨j', inside, run⟩ := room
  rcases tracks₃.kframeAllocateRange_spec 4 (by decide) _ rfl with
    ⟨j, hj, place, _, available, _⟩ | ⟨_, none, _⟩
  · have four : (4 : Word).toNat = 4 := rfl
    rw [four] at hj available
    have own₀ := free₀ (Finset.mem_singleton_self _)
    obtain ⟨own₁, differs₁⟩ := free_of_take (free₁ (Finset.mem_singleton_self _))
    obtain ⟨before₂, differs₂⟩ := free_of_take (free₂ (Finset.mem_singleton_self _))
    obtain ⟨own₂, differs₃⟩ := free_of_take before₂
    obtain ⟨k₀, h₀, at₀⟩ := place_of_free tracks own₀
    obtain ⟨k₁, h₁, at₁⟩ := place_of_free tracks own₁
    obtain ⟨k₂, h₂, at₂⟩ := place_of_free tracks own₂
    rw [address] at place
    have outside : ∀ k a, frameAddress fa k = a →
        a ∈ (((p.take _ free₀).take _ free₁).take _ free₂).held → k < j ∨ j + 4 ≤ k := by
      intro k a same held
      by_contra between
      have member : a ∈ frameSpan (kframeAllocateRange (threeTaken fa) 4).1 4 := by
        rw [place, mem_frameSpan_frameAddress]
        exact ⟨k - j, by omega, by rw [← same]; congr 1; omega⟩
      exact (Pool.mem_free.mp (available member)).2 held
    have held₂ := Finset.mem_union_right ((p.take _ free₀).take _ free₁).held
      (Finset.mem_singleton_self (kframeAllocateRange (kframeAllocateRange (kframeAllocateRange fa 1).2 1).2 1).1)
    have held₁ := Finset.mem_union_right (p.take _ free₀).held
      (Finset.mem_singleton_self (kframeAllocateRange (kframeAllocateRange fa 1).2 1).1)
    have held₀ := Finset.mem_union_right p.held (Finset.mem_singleton_self (kframeAllocateRange fa 1).1)
    refine ⟨k₀, k₁, k₂, j, at₀, at₁, at₂, place.symm, ⟨h₀, h₁, h₂, count ▸ hj⟩, ?_, ?_, ?_, ?_, ?_, ?_⟩
    · rintro rfl
      exact differs₁ (at₁.symm.trans at₀)
    · rintro rfl
      exact differs₃ (at₂.symm.trans at₀)
    · rintro rfl
      exact differs₂ (at₂.symm.trans at₁)
    · exact outside k₀ _ at₀ (Finset.mem_union_left _ (Finset.mem_union_left _ held₀))
    · exact outside k₁ _ at₁ (Finset.mem_union_left _ held₁)
    · exact outside k₂ _ at₂ held₂
  · exact absurd run (none j' inside)

end TableFrames

/- The tables of the new process. -/
section Created

variable {fuel : Nat} {s s' : TableKernel} {p : Pool Word} {t t' : TranslationTables} {copy block garbage : Word}

def userTables (s : TableKernel) (t : TranslationTables) : TranslationTables :=
  let fa := s.secureFrames
  let vaBase := (s.regions s.regionHead).vaBase
  { t with pgd := (kframeAllocateRange fa 1).1
           pud := (kframeAllocateRange (kframeAllocateRange fa 1).2 1).1
           pmd := (kframeAllocateRange (kframeAllocateRange (kframeAllocateRange fa 1).2 1).2 1).1
           pt3 := (kframeAllocateRange (threeTaken fa) 4).1
           vaPgd := vaBase, vaPud := vaBase + 0x1000, vaPmd := vaBase + 0x2000, vaPt3 := vaBase + 0x3000 }

/- What a call that returns has done. -/
theorem created_cases (ready : KernelReady s p)
    (created : createUserTranslationTable fuel s t copy block garbage = some (t', s')) :
    t' = userTables s t ∧ (t'.pgd ≠ mapFailed ∧ t'.pud ≠ mapFailed ∧ t'.pmd ≠ mapFailed) ∧
      ∃ memory, mapKernelPages s.secureT s.memory (tableMappings t'.vaPgd t'.pgd t'.pud t'.pmd t'.pt3) = some memory ∧
        s'.memory = memory.through s.secureT.pgd := by
  simp only [createUserTranslationTable] at created
  split at created
  · exact nomatch created
  · rename_i answered
    push Not at answered
    cases decEq copy 0 with
    | isTrue failed =>
      have none := kernelVmaAlloc_failed fuel ready.unmapped ⟨8, copy, block, garbage⟩ failed
      simp only [none, if_true] at created
      exact nomatch created
    | isFalse allocated =>
      obtain ⟨regions', returned, -, same⟩ :=
        kernelVmaAlloc_head fuel ready.unmapped ⟨8, copy, block, garbage⟩ allocated
      simp only [returned, if_neg ready.proper, same] at created
      split at created
      · exact nomatch created
      · rename_i memory mapped
        obtain ⟨rfl, rfl⟩ := Prod.mk.inj (Option.some.inj created)
        exact ⟨rfl, ⟨answered.1, answered.2.1, answered.2.2.1⟩, memory, mapped, rfl⟩

def tableFrame (t : TranslationTables) : Nat → Word
  | 0 => t.pgd
  | 1 => t.pud
  | 2 => t.pmd
  | n + 3 => t.pt3 + BitVec.ofNat 64 n * pageSize4KB

def tableCall (t : TranslationTables) (k : Nat) : MapCall :=
  kernelCall (t.vaPgd + BitVec.ofNat 64 k * pageSize4KB, tableFrame t k)

theorem tableMappings_eq (t : TranslationTables) :
    (tableMappings t.vaPgd t.pgd t.pud t.pmd t.pt3).map kernelCall = (List.range 7).map (tableCall t) := by
  have seven : List.range 7 = [0, 1, 2, 3, 4, 5, 6] := rfl
  have four : List.range 4 = [0, 1, 2, 3] := rfl
  have third : ∀ n, t.vaPgd + 0x3000 + BitVec.ofNat 64 n * pageSize4KB =
      t.vaPgd + BitVec.ofNat 64 (n + 3) * pageSize4KB := by
    intro n
    unfold pageSize4KB
    bv_omega
  have zeroth : t.vaPgd = t.vaPgd + BitVec.ofNat 64 0 * pageSize4KB := (BitVec.add_zero t.vaPgd).symm
  rw [tableMappings, List.map_append, List.map_map, seven, four]
  simp only [List.map_cons, List.map_nil, Function.comp_apply, third, List.cons_append, List.nil_append, tableCall,
    tableFrame]
  rw [← zeroth]
  rfl

/- The frames are pages of the secure arena. -/
theorem tableFrame_spec (ready : KernelReady s p) (frames : TableFrames s.secureFrames t.pgd t.pud t.pmd t.pt3)
    {k : Nat} (few : k < 7) :
    (tableFrame t k).toNat % 4096 = 0 ∧ s.secureFrames.frameStart.toNat ≤ (tableFrame t k).toNat ∧
      (tableFrame t k).toNat + 4096 ≤
        s.secureFrames.frameStart.toNat + s.secureFrames.frameCount.toNat * 4096 := by
  obtain ⟨k₀, k₁, k₂, j, at₀, at₁, at₂, at₃, ⟨h₀, h₁, h₂, h₃⟩, -⟩ := frames
  have fits := ready.tracks.fits
  have aligned := fits.aligned
  have place : ∃ n < s.secureFrames.frameCount.toNat, tableFrame t k = frameAddress s.secureFrames n := by
    match k with
    | 0 => exact ⟨k₀, h₀, at₀.symm⟩
    | 1 => exact ⟨k₁, h₁, at₁.symm⟩
    | 2 => exact ⟨k₂, h₂, at₂.symm⟩
    | n + 3 =>
      refine ⟨j + n, by omega, ?_⟩
      rw [tableFrame, ← at₃]
      exact frameAddress_add ..
  obtain ⟨n, hn, same⟩ := place
  rw [same, fits.frameAddress_toNat (Nat.le_of_lt hn)]
  omega

theorem tableCall_va (ready : KernelReady s p) (base : t.vaPgd = (s.regions s.regionHead).vaBase) {k : Nat}
    (few : k < 7) :
    (tableCall t k).va.toNat % 4096 = 0 ∧
      distance s.secureT (tableCall t k).va = distance s.secureT t.vaPgd + k * 4096 := by
  have aligned := ready.aligned
  have window := ready.window
  rw [← base] at aligned window
  have va : (tableCall t k).va = t.vaPgd + BitVec.ofNat 64 k * pageSize4KB := rfl
  have start := ready.start
  rw [va]
  unfold distance pageSize4KB at *
  constructor
  · bv_omega
  · bv_omega

theorem tableCall_inWindow (ready : KernelReady s p) (base : t.vaPgd = (s.regions s.regionHead).vaBase)
    (frames : TableFrames s.secureFrames t.pgd t.pud t.pmd t.pt3) {k : Nat} (few : k < 7) :
    (tableCall t k).InWindow s.secureT := by
  obtain ⟨aligned, distance⟩ := tableCall_va ready base few
  obtain ⟨page, _, high⟩ := tableFrame_spec ready frames few
  have window := ready.window
  rw [← base] at window
  have physical := ready.physical
  have pa : (tableCall t k).pa = tableFrame t k := rfl
  exact ⟨aligned, pa ▸ page, by rw [pa]; omega, by omega⟩

theorem tableCalls_inWindow (ready : KernelReady s p) (base : t.vaPgd = (s.regions s.regionHead).vaBase)
    (frames : TableFrames s.secureFrames t.pgd t.pud t.pmd t.pt3) :
    ∀ c ∈ (List.range 7).map (tableCall t), c.InWindow s.secureT := by
  intro c member
  obtain ⟨n, inRange, rfl⟩ := List.mem_map.mp member
  exact tableCall_inWindow ready base frames (List.mem_range.mp inRange)

/- What the kernel reads through the seven pages. -/
theorem table_visible (ready : KernelReady s p) (base : t.vaPgd = (s.regions s.regionHead).vaBase)
    (frames : TableFrames s.secureFrames t.pgd t.pud t.pmd t.pt3) {m : Memory}
    (run : Run (mapStep s.secureT) s.memory ((List.range 7).map (tableCall t)) m) {k x : Nat} (few : k < 7)
    (inPage : x < 4096) :
    walk m.word s.secureT.pgd (t.vaPgd + BitVec.ofNat 64 (k * 4096 + x)) =
      some (tableFrame t k + BitVec.ofNat 64 x) := by
  have window := ready.window
  rw [← base] at window
  have calls : ∀ c ∈ (List.range 7).map (tableCall t), ∃ n < 7, tableCall t n = c := by
    intro c member
    obtain ⟨n, inRange, same⟩ := List.mem_map.mp member
    exact ⟨n, List.mem_range.mp inRange, same⟩
  have inWindow := tableCalls_inWindow ready base frames
  have first : ∀ c ∈ (List.range 7).map (tableCall t), distance s.secureT c.va < 2 ^ 30 := by
    intro c member
    obtain ⟨n, small, rfl⟩ := calls c member
    have address := (tableCall_va ready base small).2
    omega
  obtain ⟨f, before⟩ := ready.translates
  obtain ⟨_, run', wired, after⟩ := ready.wired.run ready.start inWindow
  obtain rfl := run'.functional mapStep_unique run
  have translates := after f first before
  obtain ⟨aligned, address⟩ := tableCall_va ready base few
  -- the address lies in the page of the `k`-th call
  have va : (tableCall t k).va = t.vaPgd + BitVec.ofNat 64 k * pageSize4KB := rfl
  have inside : t.vaPgd + BitVec.ofNat 64 (k * 4096 + x) = (tableCall t k).va + BitVec.ofNat 64 x := by
    rw [va]
    unfold pageSize4KB
    bv_omega
  have alone : ∀ d ∈ (List.range 7).map (tableCall t),
      distance s.secureT d.va / 2 ^ 12 = distance s.secureT (tableCall t k).va / 2 ^ 12 → d = tableCall t k := by
    intro d member same
    obtain ⟨n, small, rfl⟩ := calls d member
    have other := (tableCall_va ready base small).2
    have equal : n = k := by omega
    rw [equal]
  have member : tableCall t k ∈ (List.range 7).map (tableCall t) := List.mem_map_of_mem (List.mem_range.mpr few)
  rw [inside]
  exact walk_of_leaf wired ready.start translates (inWindow _ member) (first _ member)
    (leavesAfter_own member alone) inPage

/- Where the seven pages of the tables begin. -/
def tablePage : Level → Nat
  | .pgd => 0
  | .pud => 1
  | .pmd => 2
  | .pt3 => 3

/- The kernel's pointers to the tables follow each other. -/
structure InRow (t : TranslationTables) : Prop where
  pud : t.vaPud = t.vaPgd + 0x1000
  pmd : t.vaPmd = t.vaPgd + 0x2000
  pt3 : t.vaPt3 = t.vaPgd + 0x3000

theorem entry_place (row : InRow t) {l : Level} {i : Nat} (inside : i < userPages l * 512) :
    entryAddress (t.vaBase l) (BitVec.ofNat 64 i) =
        t.vaPgd + BitVec.ofNat 64 ((tablePage l + i / 512) * 4096 + 8 * (i % 512)) ∧
      entryAddress (t.base l) (BitVec.ofNat 64 i) =
        tableFrame t (tablePage l + i / 512) + BitVec.ofNat 64 (8 * (i % 512)) := by
  obtain ⟨pud, pmd, pt3⟩ := row
  cases l with
  | pgd =>
    have page : i / 512 = 0 := Nat.div_eq_of_lt inside
    simp only [tablePage, page, TranslationTables.vaBase, TranslationTables.base, tableFrame, entryAddress]
    constructor <;> bv_omega
  | pud =>
    have page : i / 512 = 0 := Nat.div_eq_of_lt inside
    simp only [tablePage, page, TranslationTables.vaBase, TranslationTables.base, tableFrame, entryAddress, pud]
    constructor <;> bv_omega
  | pmd =>
    have page : i / 512 = 0 := Nat.div_eq_of_lt inside
    simp only [tablePage, page, TranslationTables.vaBase, TranslationTables.base, tableFrame, entryAddress, pmd]
    constructor <;> bv_omega
  | pt3 =>
    have split : 3 + i / 512 = i / 512 + 3 := Nat.add_comm ..
    have few : i < 2048 := inside
    simp only [tablePage, split, TranslationTables.vaBase, TranslationTables.base, tableFrame, entryAddress, pt3,
      pageSize4KB]
    constructor <;> bv_omega

theorem page_lt {l : Level} {i : Nat} (inside : i < userPages l * 512) : tablePage l + i / 512 < 7 := by
  cases l <;> simp only [userPages, tablePage] at * <;> omega

theorem userTables_laidOut (ready : KernelReady s p) (base : t.vaPgd = (s.regions s.regionHead).vaBase) (row : InRow t)
    (frames : TableFrames s.secureFrames t.pgd t.pud t.pmd t.pt3) {m : Memory}
    (run : Run (mapStep s.secureT) s.memory ((List.range 7).map (tableCall t)) m) :
    LaidOut (m.through s.secureT.pgd) t userPages := by
  have physical := ready.physical
  have fits := ready.tracks.fits
  have start := fits.aligned
  have visible : ∀ l i, i < userPages l * 512 →
      (m.through s.secureT.pgd).pa (entryAddress (t.vaBase l) (BitVec.ofNat 64 i)) =
        entryAddress (t.base l) (BitVec.ofNat 64 i) := by
    intro l i inside
    obtain ⟨pointer, address⟩ := entry_place row inside
    have seen := table_visible ready base frames run (page_lt inside) (x := 8 * (i % 512)) (by omega)
    rw [pointer, address]
    show (walk m.word s.secureT.pgd _).getD _ = _
    rw [seen]
    rfl
  obtain ⟨k₀, k₁, k₂, j, at₀, at₁, at₂, at₃, ⟨h₀, h₁, h₂, h₃⟩, apart⟩ := frames
  have value₀ := at₀ ▸ fits.frameAddress_toNat (Nat.le_of_lt h₀)
  have value₁ := at₁ ▸ fits.frameAddress_toNat (Nat.le_of_lt h₁)
  have value₂ := at₂ ▸ fits.frameAddress_toNat (Nat.le_of_lt h₂)
  have value₃ := at₃ ▸ fits.frameAddress_toNat (k := j) (by omega)
  constructor
  · intro l
    cases l <;> simp only [TranslationTables.base] <;> omega
  · intro l
    cases l <;> simp only [TranslationTables.base, userPages] <;> omega
  · intro l l' other
    cases l <;> cases l' <;> simp only [TranslationTables.base, userPages] <;> first | omega | exact absurd rfl other
  · exact visible

/- The kernel's mappings leave the frames alone. -/
theorem userTables_entry (ready : KernelReady s p) (base : t.vaPgd = (s.regions s.regionHead).vaBase) (row : InRow t)
    (frames : TableFrames s.secureFrames t.pgd t.pud t.pmd t.pt3) {m : Memory}
    (run : Run (mapStep s.secureT) s.memory ((List.range 7).map (tableCall t)) m) {l : Level} {i : Nat}
    (inside : i < userPages l * 512) : entry (m.through s.secureT.pgd) t l i = entry s.memory t l i := by
  obtain ⟨_, word⟩ := ready.wired.run_elsewhere ready.start (tableCalls_inWindow ready base frames) run
  have elsewhere : Elsewhere s.secureT kernelPages (entryAddress (t.base l) (BitVec.ofNat 64 i)) := by
    intro l' i' hi' same
    have page := tableFrame_spec ready frames (page_lt inside)
    have place := (entry_place row inside).2
    have value := ready.wired.laid.entryAddress_toNat (l := l') hi'
    have apart := ready.apart l'
    have physical := ready.physical
    rw [same] at place
    rw [place] at value
    bv_omega
  exact word _ elsewhere

/-- What the function leaves: tables that the kernel can reach, with the entries that the
frames held before. -/
theorem created_spec (ready : KernelReady s p) (room : RoomForPt3 s.secureFrames)
    (created : createUserTranslationTable fuel s t copy block garbage = some (t', s')) :
    t' = userTables s t ∧ LaidOut s'.memory t' userPages ∧
      ∀ l i, i < userPages l * 512 → entry s'.memory t' l i = entry s.memory t' l i := by
  obtain ⟨same, ⟨pgd, pud, pmd⟩, memory, mapped, after⟩ := created_cases ready created
  have base : t'.vaPgd = (s.regions s.regionHead).vaBase := by rw [same]; rfl
  have row : InRow t' := by rw [same]; exact ⟨rfl, rfl, rfl⟩
  have frames : TableFrames s.secureFrames t'.pgd t'.pud t'.pmd t'.pt3 := by
    rw [same] at pgd pud pmd ⊢
    exact table_frames ready.tracks room pgd pud pmd
  obtain ⟨m, run, -⟩ := ready.wired.run ready.start (tableCalls_inWindow ready base frames)
  have called := mapKernelPages_of_run (tableMappings_eq t' ▸ run)
  obtain rfl := Option.some.inj (called.symm.trans mapped)
  rw [after]
  exact ⟨same, userTables_laidOut ready base row frames run,
    fun _ _ inside => userTables_entry ready base row frames run inside⟩

/-- With frames for the tables and a block for the region, the function returns. -/
theorem creates (ready : KernelReady s p) (room : RoomForPt3 s.secureFrames) (allocated : copy ≠ 0)
    (pgd : (userTables s t).pgd ≠ mapFailed) (pud : (userTables s t).pud ≠ mapFailed)
    (pmd : (userTables s t).pmd ≠ mapFailed) :
    ∃ s', createUserTranslationTable fuel s t copy block garbage = some (userTables s t, s') := by
  have frames := table_frames ready.tracks room pgd pud pmd
  have pt3 : (userTables s t).pt3 ≠ mapFailed := by
    have high := (tableFrame_spec (t := userTables s t) ready frames (k := 3) (by decide)).2.2
    have physical := ready.physical
    have failed : mapFailed.toNat = 2 ^ 64 - 1 := rfl
    have value : (tableFrame (userTables s t) 3) = (userTables s t).pt3 := BitVec.add_zero _
    intro same
    rw [value, same] at high
    omega
  have answered : ¬ ((userTables s t).pgd = mapFailed ∨ (userTables s t).pud = mapFailed ∨
      (userTables s t).pmd = mapFailed ∨ (userTables s t).pt3 = mapFailed) := by
    rintro (failed | failed | failed | failed)
    · exact pgd failed
    · exact pud failed
    · exact pmd failed
    · exact pt3 failed
  obtain ⟨regions', returned, -, same⟩ :=
    kernelVmaAlloc_head fuel ready.unmapped ⟨8, copy, block, garbage⟩ allocated
  obtain ⟨m, run, -⟩ := ready.wired.run ready.start (tableCalls_inWindow (t := userTables s t) ready rfl frames)
  have called := mapKernelPages_of_run (tableMappings_eq (userTables s t) ▸ run)
  simp only [userTables, threeTaken] at answered called
  simp only [createUserTranslationTable, if_neg answered, returned, if_neg ready.proper, same, called]
  exact ⟨_, rfl⟩

end Created

end RealmVm
