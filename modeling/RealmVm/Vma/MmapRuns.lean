import RealmVm.Vma.MmapCalls
import RealmVm.Vma.MapThenWalk
import RealmVm.Vma.FrameRuns

/-! Runs of `generic_mmap` on one address space. -/
namespace RealmVm

open Lib

def mmapStep (t : TranslationTables) (head mmapStart : Word) (s : MmapHistory) (call : MmapCall)
    (s' : MmapHistory) : Prop :=
  call.Allowed head s ∧ ∃ r, Returns (fun fuel => call.perform fuel s.space t head mmapStart) (r, s'.space) ∧
    s'.ranges = s.ranges ++ [(r, call.length)]

def safeMmapStep (t : TranslationTables) (pages : Level → Nat) (head mmapStart : Word) (s : MmapHistory)
    (call : MmapCall) (s' : MmapHistory) : Prop :=
  call.Safe t pages mmapStart s ∧ mmapStep t head mmapStart s call s'

variable {t : TranslationTables} {pages : Level → Nat} {head mmapStart : Word}

/-- A list of one unmapped region, over tables and frames in whatever state earlier
mappings left them. -/
structure FreshSpace (t : TranslationTables) (pages : Level → Nat) (head : Word) (s : AddressSpace) : Prop where
  tables : ∃ f, Holding s.memory t pages f
  frames : ∃ p, Tracks s.frames p
  proper : head ≠ 0
  unmapped : (s.regions head).isMapped = 0
  alone : (s.regions head).next = 0

theorem FreshSpace.consistent {s : AddressSpace} (fresh : FreshSpace t pages head s) :
    Consistent t pages head ⟨s, []⟩ := by
  refine ⟨fresh.tables, fresh.frames, [], ⟨⟨rfl, fresh.alone⟩, ?_⟩, Or.inl ⟨rfl, fresh.unmapped, rfl⟩⟩
  exact fun null => fresh.proper (List.mem_singleton.mp null).symm

theorem mmap_run (capacity : Capacity pages) (start : t.startVa.toNat % 2 ^ 30 = 0)
    (kernelStart : mmapStart.toNat % 4096 = 0) {s s' : MmapHistory} {calls : List MmapCall}
    (run : Run (safeMmapStep t pages head mmapStart) s calls s')
    (initial : Consistent t pages head s ∧ s.ranges.Pairwise Apart) :
    Consistent t pages head s' ∧ s'.ranges.Pairwise Apart := by
  refine run.invariant (I := fun s => Consistent t pages head s ∧ s.ranges.Pairwise Apart) ?_ initial
  rintro s call s' ⟨consistent, apart⟩ ⟨safe, allowed, r, returned, recorded⟩
  obtain ⟨r', after, returns, mmapped, next, _⟩ := mmap_call capacity start kernelStart consistent allowed safe
  obtain ⟨sameBase, sameSpace⟩ := Prod.mk.inj (returned.unique returns)
  have same : s' = ⟨after, s.ranges ++ [(r', call.length)]⟩ := by
    cases s'
    rw [MmapHistory.mk.injEq]
    exact ⟨sameSpace, sameBase ▸ recorded⟩
  rw [same]
  exact ⟨next, List.pairwise_append.mpr ⟨apart, List.pairwise_singleton _ _, fun q hq r hr =>
    List.mem_singleton.mp hr ▸ mmapped.fresh q hq⟩⟩

/-- While every call meets its condition, the ranges are apart, the list describes them, each once,
and each further such call returns a fresh range, maps its pages and adds its region. -/
theorem mmap_hands_out_fresh_ranges (capacity : Capacity pages) (start : t.startVa.toNat % 2 ^ 30 = 0)
    (kernelStart : mmapStart.toNat % 4096 = 0) {space : AddressSpace} (fresh : FreshSpace t pages head space)
    {calls : List MmapCall} {s : MmapHistory} (run : Run (safeMmapStep t pages head mmapStart) ⟨space, []⟩ calls s) :
    s.ranges.Pairwise Apart ∧ (∃ listed, Lists s.space.regions head listed ∧ listed.Perm s.ranges) ∧
      ∀ call : MmapCall, call.Allowed head s → call.Safe t pages mmapStart s →
        ∃ r after, Returns (fun fuel => call.perform fuel s.space t head mmapStart) (r, after) ∧
          Mmapped t pages head s call r after ∧
          safeMmapStep t pages head mmapStart s call ⟨after, s.ranges ++ [(r, call.length)]⟩ := by
  obtain ⟨consistent, apart⟩ := mmap_run capacity start kernelStart run ⟨fresh.consistent, List.Pairwise.nil⟩
  refine ⟨apart, consistent.lists, fun call allowed safe => ?_⟩
  obtain ⟨r, after, returns, mmapped, _⟩ := mmap_call capacity start kernelStart consistent allowed safe
  exact ⟨r, after, returns, mmapped, safe, allowed, r, returns, rfl⟩

/-- After one call the list is the head alone. -/
theorem Consistent.one {s : MmapHistory} (consistent : Consistent t pages head s) (one : s.ranges.length = 1) :
    (s.space.regions head).isMapped ≠ 0 ∧ RegionChain s.space.regions head [head] := by
  obtain ⟨ptrs, chain, mapped, _, rest, ranges, perm⟩ := consistent.later (fun none => by simp [none] at one)
  have alone : ptrs = [] := by
    have lengths := perm.length_eq
    rw [ranges, List.length_cons] at one
    rw [List.length_map] at lengths
    exact List.length_eq_zero_iff.mp (by omega)
  exact ⟨mapped head List.mem_cons_self, alone ▸ chain⟩

/-- A request that is not fixed, in a list of one region, returns the address of that
region's record. -/
theorem second_mmap_returns_record (start : t.startVa.toNat % 2 ^ 30 = 0) {s : MmapHistory}
    (consistent : Consistent t pages head s) (one : s.ranges.length = 1) {call : MmapCall}
    (allowed : call.Allowed head s) (loose : ¬ call.Fixed) (rounds : call.size.toNat ≤ 2 ^ 64 - 4096)
    (near : distance t head + call.length ≤ 2 ^ 39) :
    ∃ after, Returns (fun fuel => call.perform fuel s.space t head mmapStart) (head, after) := by
  obtain ⟨mapped, chain⟩ := consistent.one one
  obtain ⟨_, ⟨p, tracks⟩, _⟩ := consistent
  obtain ⟨isKernel, isSecure, perform⟩ := call.perform_eq
  have proper : head ≠ 0 := fun null => chain.proper (null ▸ List.mem_cons_self)
  have last : (s.space.regions head).next = 0 := chain.next_single
  have other : call.block ≠ head := fun same => allowed.heap.2 _ chain (List.mem_singleton.mpr same)
  have positive := allowed.size
  have nonempty : call.size ≠ 0 := by bv_omega
  have count := call.count rounds
  have whole : call.length / 4096 * 4096 = call.length := by
    unfold MmapCall.length
    omega
  have enough := allowed.enough tracks
  obtain ⟨regions, recorded⟩ : ∃ regions, regions = Regions.record (Function.update s.space.regions call.block noRegion)
    call.block head isKernel isSecure (pageUp call.size) (call.caller.prot call.prot) := ⟨_, rfl⟩
  obtain ⟨after, ran, same⟩ : ∃ s', mapPages t head (call.caller.prot call.prot) (call.length / 4096) 0
      { s.space with regions := regions } = some s' ∧ s'.regions = regions :=
    mapPages_returns start _ 0 (s := { s.space with regions := regions }) tracks enough (by omega)
  have final : regions.next head = 0 := by
    rw [Regions.next, recorded, Regions.record, Function.update_of_ne other.symm,
      Function.update_of_ne other.symm, last]
  have base : (regions call.block).vaBase = head := by
    rw [recorded, Regions.record, Function.update_self]
  refine ⟨{ after with regions := regions.setNext head call.block }, 0, fun fuel _ => (perform ..).trans ?_⟩
  have free : ¬ call.flags &&& mapFixed ≠ 0 := loose
  have search : searchMmapRegion fuel s.space.regions head (pageUp call.size) = some head := by
    rw [searchMmapRegion, if_neg proper, if_pos last]
  have onlyOne : mmapRegionInsert fuel regions 0 call.block = some (1, call.block, regions) := if_pos rfl
  simp only [genericMmap, nonempty, proper, or_self, if_false, if_neg mapped, free, false_and,
    search, allowed.heap.1, startMapping, count, ← recorded, ran, other, same, final, onlyOne, base]

/- Two frames, zeroed tables, and the head of the list at an odd place of the kernel's data. -/
def bareFramesInit : KframeAlloc := (kframeAllocatorInit bareFrames (fun _ => 0xFF) 2 0x40000000 0x2000).2

def bareSpace : AddressSpace := ⟨bareMemory, bareFramesInit, fun _ => noRegion⟩

def bareHead : Word := 0xFFFFF00000080C18

def bareMmapStart : Word := 0xFFFFF00000A00000

theorem bareSpace_fresh : FreshSpace bareTables kernelPages bareHead bareSpace := by
  obtain ⟨linked, translates⟩ :=
    zeroed (m := bareMemory) (t := bareTables) capacity_kernelPages fun _ _ _ => rfl
  exact ⟨⟨_, bareTables_laidOut, linked, translates⟩,
    ⟨_, kframeAllocatorInit_tracks bareFrames _ 2 0x40000000 0x2000 (by decide) (by decide) (by decide) (by decide)⟩,
    by decide, rfl, rfl⟩

/- `kernel_mmap(0, 1, PROT_RW, 0)`, for a region at 0x5000 and then for one at 0x6000. -/
def firstPage : MmapCall := ⟨.kernel, 0, 1, 3, 0, 0x5000⟩

def secondPage : MmapCall := ⟨.kernel, 0, 1, 3, 0, 0x6000⟩

theorem not_mem_alone {regions : Regions} {block : Word} (chain : RegionChain regions head [head])
    (other : block ≠ head) : ∀ ptrs, RegionChain regions head ptrs → block ∉ ptrs := by
  intro ptrs chain' member
  obtain rfl := chain'.unique chain
  exact other (List.mem_singleton.mp member)

theorem firstPage_step : ∃ s, Consistent bareTables kernelPages bareHead s ∧
    safeMmapStep bareTables kernelPages bareHead bareMmapStart ⟨bareSpace, []⟩ firstPage s ∧
    s.ranges.length = 1 ∧ 1 ≤ s.space.frames.availableFrameCount.toNat := by
  have consistent := bareSpace_fresh.consistent
  have chain := (consistent.first rfl).2
  have allowed : firstPage.Allowed bareHead ⟨bareSpace, []⟩ :=
    ⟨by decide, fun fixed => absurd fixed (by decide), by decide, by decide, not_mem_alone chain (by decide)⟩
  have safe : firstPage.Safe bareTables kernelPages bareMmapStart ⟨bareSpace, []⟩ :=
    ⟨by decide, Or.inl rfl, by decide⟩
  obtain ⟨r, after, returns, mmapped, next, _⟩ :=
    mmap_call capacity_kernelPages (by decide) (by decide) consistent allowed safe
  have two : bareFramesInit.availableFrameCount.toNat = 2 := by decide
  have left : after.frames.availableFrameCount.toNat + 1 = bareFramesInit.availableFrameCount.toNat := mmapped.frames
  have one : 1 ≤ after.frames.availableFrameCount.toNat := by omega
  exact ⟨_, next, ⟨safe, allowed, r, returns, rfl⟩, rfl, one⟩

/- Five frames in the place of the two. -/
def roomyFramesInit : KframeAlloc := (kframeAllocatorInit bareFrames (fun _ => 0xFF) 5 0x40000000 0x5000).2

def roomySpace : AddressSpace := ⟨bareMemory, roomyFramesInit, fun _ => noRegion⟩

theorem roomySpace_fresh : FreshSpace bareTables kernelPages bareHead roomySpace :=
  ⟨bareSpace_fresh.tables,
    ⟨_, kframeAllocatorInit_tracks bareFrames _ 5 0x40000000 0x5000 (by decide) (by decide) (by decide) (by decide)⟩,
    by decide, rfl, rfl⟩

/- `kernel_mmap(address, 1, PROT_RW, MAP_FIXED)`. -/
def fixedPage (address block : Word) : MmapCall := ⟨.kernel, address, 1, 3, mapFixed, block⟩

/-- A page above all others, with what the next call needs. -/
theorem fixedPage_step {s : MmapHistory} {known : List Word} (consistent : Consistent bareTables kernelPages bareHead s)
    (within : RegionsWithin s.space.regions bareHead known) (address block : Word)
    (aligned : address.toNat % 4096 = 0) (fits : address.toNat + 4096 < 2 ^ 64)
    (inside : distance bareTables address + 4096 ≤ mappable kernelPages)
    (above : ∀ q ∈ s.ranges, EndsBefore q (address, 4096)) (heap : block ≠ 0 ∧ block ∉ known) {n : Nat}
    (frames : s.space.frames.availableFrameCount.toNat = n + 1) :
    ∃ s', safeMmapStep bareTables kernelPages bareHead bareMmapStart s (fixedPage address block) s' ∧
      Consistent bareTables kernelPages bareHead s' ∧ RegionsWithin s'.space.regions bareHead (block :: known) ∧
      s'.ranges = s.ranges ++ [(address, 4096)] ∧ s'.space.frames.availableFrameCount.toNat = n := by
  obtain ⟨call, page⟩ : ∃ call, call = fixedPage address block := ⟨_, rfl⟩
  have size : call.size.toNat = 1 := by
    rw [page]
    rfl
  have length : call.length = 4096 := by rw [MmapCall.length, size]
  have asked : call.address = address ∧ call.block = block := by
    rw [page]
    exact ⟨rfl, rfl⟩
  have fixed : call.Fixed := by
    rw [page]
    exact (by decide : mapFixed &&& mapFixed ≠ 0)
  have allowed : call.Allowed bareHead s := by
    refine ⟨by omega, fun _ => ?_, by omega, ?_⟩
    · rw [asked.1, length]
      exact ⟨aligned, Nat.le_of_lt fits, fun q hq => Or.inl (above q hq)⟩
    · rw [asked.2]
      exact ⟨heap.1, fun ptrs chain member => heap.2 (within ptrs chain block member)⟩
  have safe : call.Safe bareTables kernelPages bareMmapStart s := by
    refine ⟨by omega, Or.inr ?_, ?_⟩
    · rw [asked.1, length]
      exact ⟨aligned, fits, Or.inl ⟨fixed, above⟩⟩
    · rw [MmapCall.base, if_neg fun free => free.2 fixed, asked.1, length]
      exact inside
  obtain ⟨r, after, returns, mmapped, next, regions⟩ :=
    mmap_call capacity_kernelPages (by decide) (by decide) consistent allowed safe
  have given := (mmapped.fixed fixed).trans asked.1
  have taken := mmapped.frames
  rw [length] at next taken
  rw [given] at next
  refine ⟨⟨after, s.ranges ++ [(address, 4096)]⟩, page ▸ ⟨safe, allowed, r, returns, ?_⟩, next,
    asked.2 ▸ regions known within, rfl, ?_⟩
  · rw [given, length]
  · show after.frames.availableFrameCount.toNat = n
    omega

/- `kernel_mmap(0xFFFFF00000A08000, 0x1800, PROT_RW, 0)`: two pages. -/
def twoPagesBetween : MmapCall := ⟨.kernel, 0xFFFFF00000A08000, 0x1800, 3, 0, 0x8000⟩

/-- Three fixed pages with gaps between them, and two pages in the first gap. -/
theorem mmap_hands_out_fresh_ranges_between : ∃ s,
    Run (safeMmapStep bareTables kernelPages bareHead bareMmapStart) ⟨roomySpace, []⟩
      [fixedPage 0xFFFFF00000A00000 0x5000, fixedPage 0xFFFFF00000A10000 0x6000,
        fixedPage 0xFFFFF00000A20000 0x7000, twoPagesBetween] s ∧
      s.ranges.Pairwise Apart ∧ ∃ listed, Lists s.space.regions bareHead listed ∧ listed.Perm s.ranges := by
  have consistent := roomySpace_fresh.consistent
  have alone : RegionsWithin roomySpace.regions bareHead [bareHead] :=
    fun ptrs chain p hp => chain.unique (consistent.first rfl).2 ▸ hp
  have five : roomySpace.frames.availableFrameCount.toNat = 5 := by decide
  obtain ⟨one, first, consistent, within, ranges, left⟩ := fixedPage_step consistent alone 0xFFFFF00000A00000 0x5000
    (by decide) (by decide) (by decide) (List.forall_mem_nil _) (by decide) five
  obtain ⟨two, second, consistent, within, ranges', left'⟩ := fixedPage_step consistent within 0xFFFFF00000A10000 0x6000
    (by decide) (by decide) (by decide) (by rw [ranges]; decide) (by decide) left
  obtain ⟨three, third, consistent, within, ranges'', left''⟩ :=
    fixedPage_step consistent within 0xFFFFF00000A20000 0x7000 (by decide) (by decide) (by decide)
      (by rw [ranges', ranges]; decide) (by decide) left'
  rw [ranges', ranges] at ranges''
  have length : twoPagesBetween.length = 8192 := by decide
  have allowed : twoPagesBetween.Allowed bareHead three := by
    refine ⟨by decide, fun fixed => absurd fixed (by decide), by omega, by decide, fun ptrs chain member => ?_⟩
    exact absurd (within ptrs chain _ member) (by decide)
  have safe : twoPagesBetween.Safe bareTables kernelPages bareMmapStart three := by
    refine ⟨by decide, Or.inr ⟨by decide, by decide, Or.inr ⟨by decide, (0xFFFFF00000A00000, 4096),
      [(0xFFFFF00000A10000, 4096), (0xFFFFF00000A20000, 4096)], (0xFFFFF00000A20000, 4096), ranges'', ?_⟩⟩, ?_⟩
    · exact ⟨by decide, by decide, by decide, by decide⟩
    · rw [MmapCall.base, if_neg fun free => absurd free.1 (by rw [ranges'']; decide)]
      decide
  obtain ⟨r, after, returns, _⟩ :=
    mmap_call capacity_kernelPages (by decide) (by decide) consistent allowed safe
  have run : Run (safeMmapStep bareTables kernelPages bareHead bareMmapStart) ⟨roomySpace, []⟩ _ _ :=
    .cons first (.cons second (.cons third (.cons ⟨safe, allowed, r, returns, rfl⟩
      (.nil ⟨after, three.ranges ++ [(r, twoPagesBetween.length)]⟩))))
  obtain ⟨apart, lists, _⟩ :=
    mmap_hands_out_fresh_ranges capacity_kernelPages (by decide) (by decide) roomySpace_fresh run
  exact ⟨_, run, apart, lists⟩

/-- Two requests for a page anywhere: the second returns the address of the list's first
record, which is not even page-aligned. -/
theorem second_request_returns_record : ∃ s after,
    mmapStep bareTables bareHead bareMmapStart ⟨bareSpace, []⟩ firstPage s ∧ secondPage.Allowed bareHead s ∧
      Returns (fun fuel => secondPage.perform fuel s.space bareTables bareHead bareMmapStart) (bareHead, after) ∧
      ¬ Mmapped bareTables kernelPages bareHead s secondPage bareHead after := by
  obtain ⟨s, consistent, ⟨_, step⟩, one, frames⟩ := firstPage_step
  have chain := (consistent.one one).2
  have allowed : secondPage.Allowed bareHead s := by
    have length : secondPage.length = 4096 := by decide
    exact ⟨by decide, fun fixed => absurd fixed (by decide), by omega, by decide, not_mem_alone chain (by decide)⟩
  obtain ⟨after, returns⟩ : ∃ after,
      Returns (fun fuel => secondPage.perform fuel s.space bareTables bareHead bareMmapStart) (bareHead, after) :=
    second_mmap_returns_record (by decide) consistent one allowed (by decide) (by decide) (by decide)
  refine ⟨s, after, step, allowed, returns, fun mmapped => ?_⟩
  exact absurd mmapped.aligned (by decide)

end RealmVm
