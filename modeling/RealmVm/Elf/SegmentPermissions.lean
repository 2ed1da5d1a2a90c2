import RealmVm.Elf.LoadRuns
import RealmVm.Elf.StaleFrames
import RealmVm.Vma.LeafPermissions

/-! The permissions of the loaded segments: the loader maps all pages writable, and takes that back from the first. -/
namespace RealmVm

open Lib Lib.Bits

/-- The page of `va` is one of those that the segment lies in. -/
def InSegment (phdr : Phdr) (va : Word) : Prop :=
  pageNumber phdr.pVaddr ≤ pageNumber va ∧ 4096 * pageNumber va < phdr.pVaddr.toNat + phdr.pMemsz.toNat

/- The `sys_mmap_user` of the turn for `phdr`, after `n` others. -/
def mmapSegment (fuel : Nat) (call : LoadCall) (p : Process) (n : Nat) (phdr : Phdr) (s : AddressSpace) :
    Option (Word × AddressSpace) :=
  sysMmapUser fuel s p.t p.headRegion call.mmapStart (call.blocks n) (pageDown phdr.pVaddr) (pageUp phdr.pMemsz)
    (elfPfToProt phdr.pFlags ||| protW) mapFixed

/-- Segments without PF_W are mapped and nobody may write to them; and every page still has the frame that the
`mmap` of its turn gave it. -/
structure PermissionsRight (call : LoadCall) (p : Process) (s : AddressSpace) (p' : Process) (s' : AddressSpace) :
    Prop where
  readOnly : ∀ phdr ∈ call.segments s.memory, phdr.pFlags &&& pfW = 0 → ∀ va, InSegment phdr va →
    (walk s'.memory.word p'.t.pgd va).isSome ∧
      ∀ el, Mmu.permits ⟨s'.memory.word, p'.t.pgd, call.ttbr1⟩ el true va = false
  frames : ∀ pre phdr post, call.segments s.memory = pre ++ phdr :: post → ∀ s₁ address s₂,
    Returns (fun fuel => loadSegments fuel call p 0 pre s) (0, s₁) →
    Returns (fun fuel => mmapSegment fuel call p pre.length phdr s₁) (address, s₂) →
    ∀ va a, InSegment phdr va → walk s₂.memory.word p.t.pgd va = some a → walk s'.memory.word p'.t.pgd va = some a

/-- In every call that returns 0. -/
def ProtectsSegments (call : LoadCall) (p : Process) (s : AddressSpace) : Prop :=
  ∀ p' s', Returns (fun fuel => loadExecutable fuel call p s) (0, p', s') → PermissionsRight call p s p' s'

/-- Without PF_W the segment asks for PF_R, and lies in one page. -/
def ReadOnlyInOnePage (phdr : Phdr) : Prop :=
  phdr.pFlags &&& pfW = 0 → phdr.pFlags &&& pfR ≠ 0 ∧ phdr.pVaddr.toNat % 4096 + phdr.pMemsz.toNat ≤ 4096

variable {call : LoadCall} {p : Process} {s₀ s s' : AddressSpace} {pool₀ pool pool' : Pool Word} {bound limit n : Nat}
  {pages : PageMap} {phdr : Phdr}

/- What a call that returns 0 does with one of the segments. -/
section Turn

theorem loadSegments_entry (fuel : Nat) (call : LoadCall) (p : Process) (entry : Word) (n : Nat) (segments : List Phdr)
    (s : AddressSpace) :
    loadSegments fuel call { p with entry := entry } n segments s = loadSegments fuel call p n segments s := by
  induction segments generalizing n s with
  | nil => rfl
  | cons phdr rest ih =>
    have turn : loadSegment fuel call { p with entry := entry } (call.blocks n) phdr s =
        loadSegment fuel call p (call.blocks n) phdr s := rfl
    simp only [loadSegments, turn, ih]

/-- The turn for `phdr` in a call that returns 0: the loop comes to it with `s₁`, and its `mmap` leaves `s₂`. -/
structure CallTurn (call : LoadCall) (p : Process) (s : AddressSpace) (pre : List Phdr) (phdr : Phdr) (p' : Process)
    (s' s₁ s₂ : AddressSpace) (mapped final : PageMap) : Prop where
  returned : Returns (fun fuel => loadExecutable fuel call p s) (0, p', s')
  tables : p'.t = p.t
  before : Returns (fun fuel => loadSegments fuel call p 0 pre s) (0, s₁)
  mapping : Returns (fun fuel => mmapSegment fuel call p pre.length phdr s₁) (pageDown phdr.pVaddr, s₂)
  atFirst : Backed s₂.memory p.t mapped
  atLast : Backed s'.memory p.t final
  protects : TurnProtects phdr mapped final
  low : ∀ q, (mapped q).isSome → 4096 * q < segmentEnd phdr
  empty : ∀ q, 4096 * q < stackLow → (∀ other ∈ call.segments s.memory, ¬ Covers other q) → final q = none

theorem loadExecutable_turn (ready : LoadReady call p s pool)
    (below : SegmentsBelow stackLow (call.segments s.memory)) (loads : call.Loads s.memory pool) {pre post : List Phdr}
    (split : call.segments s.memory = pre ++ phdr :: post) :
    ∃ p' s' s₁ s₂ mapped final, CallTurn call p s pre phdr p' s' s₁ s₂ mapped final := by
  have started := ready.withEntry (eEntry (call.header s.memory) 0)
  have few := call.segments_few s.memory
  have types := call.segments_load s.memory
  have copyable := loads.copyable
  have frames := loads.frames
  have ascending := below.ascending
  have inside := below.inside
  rw [split] at few types copyable frames ascending inside
  obtain ⟨first, back, apart⟩ := List.pairwise_append.mp ascending
  obtain ⟨here, rest⟩ := List.pairwise_cons.mp back
  obtain ⟨typesPre, typesPost⟩ := List.forall_mem_append.mp types
  obtain ⟨isLoad, typesPost⟩ := List.forall_mem_cons.mp typesPost
  obtain ⟨copyPre, copyPost⟩ := List.forall_mem_append.mp copyable
  obtain ⟨⟨⟨positive, proper⟩, short⟩, copyPost⟩ := List.forall_mem_cons.mp copyPost
  obtain ⟨insidePre, insidePost⟩ := List.forall_mem_append.mp inside
  obtain ⟨insideHere, insidePost⟩ := List.forall_mem_cons.mp insidePost
  rw [framesFor_append, framesFor_cons] at frames
  rw [List.length_append, List.length_cons] at few
  have high : ∀ next : Phdr, next.pVaddr.toNat + next.pMemsz.toNat ≤ stackLow →
      next.pVaddr.toNat + next.pMemsz.toNat ≤ 2 ^ 23 := fun next low => Nat.le_trans low (by decide)
  -- the segments in front, the segment itself, and those behind it
  obtain ⟨s₁, pool₁, pages₁, ranPre, loaded₁, fill₁, card₁, others₁⟩ := loadSegments_mapped started.start pre (by omega)
    typesPre started.loaded started.fill ⟨first, fun next member => high next (insidePre next member)⟩
    (fun _ _ => Nat.zero_le _) (by omega) copyPre
  have above : lastEnd 0 pre ≤ (pageDown phdr.pVaddr).toNat :=
    lastEnd_le (Nat.zero_le _) fun old member => SegmentBefore.end_le (apart old member phdr List.mem_cons_self)
  obtain ⟨s₂, mapped, s₃, pool₃, pages₃, turn, loaded₃⟩ :=
    loadSegment_mapped started.start loaded₁ (by omega) fill₁ (by omega) short above
      (segmentEnd_le (by decide) (high phdr insideHere)) positive proper
  have card₃ := turn.card
  obtain ⟨s₄, pool₄, pages₄, ranPost, loaded₄, fill₄, card₄, others₄⟩ := loadSegments_mapped started.start post
    (by omega) typesPost loaded₃ turn.fill ⟨rest, fun next member => high next (insidePost next member)⟩
    (fun next member => SegmentBefore.end_le (here next member)) (by omega) copyPost
  have whole : Returns (fun fuel => loadSegments fuel call { p with entry := eEntry (call.header s.memory) 0 } 0
      (call.segments s.memory) s) (0, s₄) := by
    rw [split]
    exact loadSegments_through typesPre ranPre (loadSegments_cons isLoad turn.returned ranPost)
  have fill : RegionsFill p.headRegion call.blocks (call.segments s.memory).length
      (lastEnd (segmentEnd phdr) post) s₄.regions := by
    have count : (call.segments s.memory).length = 0 + pre.length + 1 + post.length := by
      rw [split, List.length_append, List.length_cons]
      omega
    exact count ▸ fill₄
  have under : lastEnd (segmentEnd phdr) post ≤ stackLow :=
    lastEnd_le (segmentEnd_le (by decide) insideHere) fun next member =>
      segmentEnd_le (by decide) (insidePost next member)
  obtain ⟨p', s', pool', final, returned, tables, stack, others⟩ :=
    loadExecutable_stack ready loads.executable rfl whole loaded₄ fill under (by omega)
  refine ⟨p', s', s₁, s₂, mapped, final, returned, tables, ?_, ?_, turn.mapped, stack.backed, fun q covers => ?_,
    turn.low, fun q beneath outside => ?_⟩
  · obtain ⟨k, ranPre⟩ := ranPre
    exact ⟨k, fun fuel more => (loadSegments_entry ..).symm.trans (ranPre fuel more)⟩
  · have mapping := turn.mapping
    rw [Nat.zero_add] at mapping
    exact mapping
  · have kept : final q = pages₃ q := by
      have last := segmentEnd_le (by decide) insideHere
      have end_ := covers.2
      refine (others q (by omega)).trans (others₄ q fun next member again => ?_)
      have start := SegmentBefore.end_le (here next member)
      have start' := again.1
      omega
    obtain ⟨f, one, two⟩ := turn.protects q covers
    exact ⟨f, one, kept.trans two⟩
  · rw [split] at outside
    obtain ⟨notPre, notPost⟩ := List.forall_mem_append.mp outside
    obtain ⟨notHere, notPost⟩ := List.forall_mem_cons.mp notPost
    rw [others q beneath, others₄ q notPost, turn.others q notHere, others₁ q notPre]

end Turn

theorem wants_elfPfToProt (flags : BitVec 32) : (Wants protR (elfPfToProt flags) ↔ flags &&& pfR ≠ 0) ∧
    (Wants protW (elfPfToProt flags) ↔ flags &&& pfW ≠ 0) := by
  have bits : ∀ read write execute : Bool, (Wants protR ((if read then protR else 0) |||
      (if write then protW else 0) ||| (if execute then protX else 0)) ↔ read = true) ∧
      (Wants protW ((if read then protR else 0) ||| (if write then protW else 0) |||
        (if execute then protX else 0)) ↔ write = true) := by decide
  have here := bits (decide (flags &&& pfR ≠ 0)) (decide (flags &&& pfW ≠ 0)) (decide (flags &&& pfX ≠ 0))
  simp only [decide_eq_true_eq] at here
  exact here

/-- A leaf of a process is read-only for PROT_R without PROT_W. -/
theorem userLeaf_readOnly (f : Word) (prot : CInt) :
    (userLeaf (f, prot)).getLsbD 7 = true ↔ Wants protR prot ∧ ¬ Wants protW prot :=
  (getLsbD_leaf ⟨.user, 0, f, prot⟩).2.1

theorem SegmentsBelow.page_low {segments : List Phdr} (below : SegmentsBelow stackLow segments)
    (member : phdr ∈ segments) {va : Word} (inside : InSegment phdr va) : va.toNat < stackLow := by
  have ends := below.inside phdr member
  have last := inside.2
  unfold pageNumber at last
  unfold stackLow at ends ⊢
  omega

theorem InSegment.low {va : Word} (inside : InSegment phdr va) :
    (pageDown phdr.pVaddr).toNat ≤ 4096 * pageNumber va := by
  have down := pageDown_toNat phdr.pVaddr
  have first := inside.1
  unfold pageNumber at first ⊢
  omega

theorem protectsSegments_of_onePage (ready : LoadReady call p s pool)
    (below : SegmentsBelow stackLow (call.segments s.memory))
    (right : call.Loads s.memory pool → ∀ phdr ∈ call.segments s.memory, ReadOnlyInOnePage phdr) :
    ProtectsSegments call p s := by
  intro p' s' returned
  have loads := loads_of_returns ready below returned
  constructor
  · intro phdr member closed va inside
    obtain ⟨pre, post, split⟩ := List.append_of_mem member
    obtain ⟨q', t', s₁, s₂, mapped, final, turn⟩ := loadExecutable_turn ready below loads split
    obtain ⟨rfl, rfl⟩ : p' = q' ∧ s' = t' := by simpa using returned.unique turn.returned
    obtain ⟨reads, small⟩ := right loads phdr member closed
    have page := below.page_low member inside
    have down := pageDown_toNat phdr.pVaddr
    have first : 4096 * pageNumber va = (pageDown phdr.pVaddr).toNat := by
      have low := inside.low
      have last := inside.2
      omega
    have lower : va.toNat < 2 ^ 48 := Nat.lt_trans page (by decide)
    have positive := (loads.copyable phdr member).1.1
    have covers : Covers phdr (pageNumber va) := by
      unfold Covers segmentEnd pageCount
      omega
    obtain ⟨f, _, found⟩ := turn.protects _ covers
    rw [if_pos first] at found
    obtain ⟨wantsR, wantsW⟩ := wants_elfPfToProt phdr.pFlags
    have leaf := (userLeaf_readOnly f _).mpr ⟨wantsR.mpr reads, fun write => wantsW.mp write closed⟩
    rw [turn.tables]
    refine ⟨?_, turn.atLast.readOnly ready.start.lower call.ttbr1 lower found leaf⟩
    rw [turn.atLast.walk_eq ready.start.lower lower, found]
    rfl
  · intro pre phdr post split s₁ address s₂ ran mapping va a inside found
    obtain ⟨q', t', s₁', s₂', mapped, final, turn⟩ := loadExecutable_turn ready below loads split
    obtain ⟨rfl, rfl⟩ : p' = q' ∧ s' = t' := by simpa using returned.unique turn.returned
    obtain rfl : s₁ = s₁' := by simpa using ran.unique turn.before
    obtain rfl : s₂ = s₂' := (Prod.mk.inj (mapping.unique turn.mapping)).2
    have member : phdr ∈ call.segments s.memory := split ▸ List.mem_append_right pre List.mem_cons_self
    have lower : va.toNat < 2 ^ 48 := Nat.lt_trans (below.page_low member inside) (by decide)
    rw [turn.atFirst.walk_eq ready.start.lower lower] at found
    obtain ⟨x, page, rfl⟩ := Option.map_eq_some_iff.mp found
    obtain ⟨f, before, after⟩ := turn.protects (pageNumber va) ⟨inside.low, turn.low _ (Option.isSome_of_mem page)⟩
    obtain rfl := Option.some.inj (page.symm.trans before)
    rw [turn.tables, turn.atLast.walk_eq ready.start.lower lower, after]
    rfl

theorem onePage_of_protectsSegments (ready : LoadReady call p s pool)
    (below : SegmentsBelow stackLow (call.segments s.memory)) (loads : call.Loads s.memory pool)
    (right : ProtectsSegments call p s) : ∀ phdr ∈ call.segments s.memory, ReadOnlyInOnePage phdr := by
  intro phdr member closed
  obtain ⟨pre, post, split⟩ := List.append_of_mem member
  obtain ⟨p', s', s₁, s₂, mapped, final, turn⟩ := loadExecutable_turn ready below loads split
  have readOnly := (right p' s' turn.returned).readOnly phdr member closed
  rw [turn.tables] at readOnly
  have positive := (loads.copyable phdr member).1.1
  have ends := below.inside phdr member
  have low : stackLow = 0x7fb000 := rfl
  have down := pageDown_toNat phdr.pVaddr
  -- a page that is mapped is read-only only with PROT_R and without PROT_W
  have wants (va : Word) (inside : InSegment phdr va) {f : Word} {prot : CInt}
      (found : final (pageNumber va) = some (f, prot)) : Wants protR prot ∧ ¬ Wants protW prot := by
    have lower : va.toNat < 2 ^ 48 := Nat.lt_trans (below.page_low member inside) (by decide)
    have denied := (readOnly va inside).2 .el1
    rw [turn.atLast.permits_eq ready.start.lower call.ttbr1 lower found, Bool.true_and, Bool.not_eq_false'] at denied
    exact (userLeaf_readOnly f prot).mp denied
  constructor
  · have inside : InSegment phdr phdr.pVaddr := by
      unfold InSegment pageNumber
      omega
    have covers : Covers phdr (pageNumber phdr.pVaddr) := by
      unfold Covers segmentEnd pageCount pageNumber
      omega
    obtain ⟨f, _, found⟩ := turn.protects _ covers
    have first : 4096 * pageNumber phdr.pVaddr = (pageDown phdr.pVaddr).toNat := by
      unfold pageNumber
      omega
    rw [if_pos first] at found
    exact (wants_elfPfToProt phdr.pFlags).1.mp (wants phdr.pVaddr inside found).1
  · by_contra more
    obtain ⟨va, place⟩ : ∃ va : Word, va.toNat = 4096 * (pageNumber phdr.pVaddr + 1) :=
      ⟨BitVec.ofNat 64 (4096 * (pageNumber phdr.pVaddr + 1)), Nat.mod_eq_of_lt (by unfold pageNumber; omega)⟩
    have number : pageNumber va = pageNumber phdr.pVaddr + 1 := by
      rw [pageNumber, place]
      omega
    have inside : InSegment phdr va := by
      unfold InSegment
      rw [number]
      unfold pageNumber
      omega
    by_cases covers : Covers phdr (pageNumber va)
    · obtain ⟨f, _, found⟩ := turn.protects _ covers
      have later : ¬ 4096 * pageNumber va = (pageDown phdr.pVaddr).toNat := by
        rw [number]
        unfold pageNumber
        omega
      rw [if_neg later] at found
      exact (wants va inside found).2 (protW_or _)
    · have page := below.page_low member inside
      have lower : va.toNat < 2 ^ 48 := Nat.lt_trans page (by decide)
      have none := turn.empty (pageNumber va) (by unfold pageNumber; omega) fun other second again =>
        covers (below.covers member second again inside.low inside.2)
      have mapped := (readOnly va inside).1
      rw [turn.atLast.walk_eq ready.start.lower lower, none] at mapped
      cases mapped

/-- Segments that may not be written are protected exactly when each of them asks for PF_R and has one page only. -/
theorem segments_protected (ready : LoadReady call p s pool) :
    (SegmentsBelow stackLow (call.segments s.memory) ∧
        (call.Loads s.memory pool → ∀ phdr ∈ call.segments s.memory, ReadOnlyInOnePage phdr) →
      ProtectsSegments call p s) ∧
    (SegmentsBelow stackLow (call.segments s.memory) → ProtectsSegments call p s →
      call.Loads s.memory pool → ∀ phdr ∈ call.segments s.memory, ReadOnlyInOnePage phdr) := by
  constructor
  · rintro ⟨below, right⟩
    exact protectsSegments_of_onePage ready below right
  · intro below right loads
    exact onePage_of_protectsSegments ready below loads right

/- A file like the small one, with PF_R and PF_X, and eight bytes in `memsz` of memory. -/
def codeFile (memsz : Word) : List Word :=
  [0x00010102464C457F, 0, 0x0000000100B70002, 0x1000, 0x40, 0, 0x0038004000000000, 1,
    0x500000001, 0x78, 0x1000, 0, 8, memsz, 8, 0]

def codeWord (memsz : Word) : Word → Word := fun a =>
  if a.toNat < 0x800000 then 0 else (codeFile memsz).getD ((a.toNat - 0x800000) / 8) 0

def codeSpace (memsz : Word) : AddressSpace := ⟨⟨codeWord memsz, id⟩, bareSecureFrames, fun _ => noRegion⟩

theorem codeSpace_ready (memsz : Word) : LoadReady smallLoad smallProcess (codeSpace memsz) smallPool :=
  fileSpace_ready (codeFile memsz)

def codeSegment (memsz : Word) : Phdr := ⟨1, 5, 0x78, 0x1000, 8, memsz, 8⟩

theorem codeFile_segments : smallLoad.segments (codeSpace 8).memory = [codeSegment 8] ∧
    smallLoad.segments (codeSpace 0x2000).memory = [codeSegment 0x2000] := by
  decide +kernel

theorem codeSegment_below (memsz : Word) (small : memsz ≤ 0x2000) : SegmentsBelow stackLow [codeSegment memsz] := by
  refine ⟨List.pairwise_singleton .., List.forall_mem_singleton.mpr ?_⟩
  have start : (codeSegment memsz).pVaddr.toNat = 0x1000 := rfl
  have size : (codeSegment memsz).pMemsz = memsz := rfl
  unfold stackLow
  rw [start, size]
  bv_omega

theorem segments_protected_one_page : ProtectsSegments smallLoad smallProcess (codeSpace 8) := by
  refine (segments_protected (codeSpace_ready 8)).1 ?_
  rw [codeFile_segments.1]
  exact ⟨codeSegment_below 8 (by decide), fun _ => List.forall_mem_singleton.mpr fun _ => ⟨by decide, by decide⟩⟩

/-- Two pages of code: the second stays writable. -/
theorem second_page_writable : LoadReady smallLoad smallProcess (codeSpace 0x2000) smallPool ∧
    SegmentsBelow stackLow (smallLoad.segments (codeSpace 0x2000).memory) ∧
    ¬ ProtectsSegments smallLoad smallProcess (codeSpace 0x2000) := by
  have segments := codeFile_segments.2
  have below := codeSegment_below 0x2000 (by decide)
  rw [← segments] at below
  refine ⟨codeSpace_ready 0x2000, below, fun right => ?_⟩
  have loads : smallLoad.Loads (codeSpace 0x2000).memory smallPool := by
    refine ⟨by decide +kernel, ?_, ?_⟩
    · rw [segments]
      exact List.forall_mem_singleton.mpr ⟨by decide, by decide⟩
    · have two : framesFor [codeSegment 0x2000] = 2 := by decide
      rw [segments, two, smallPool_card]
      decide
  have one := onePage_of_protectsSegments (codeSpace_ready 0x2000) below loads right
  rw [segments] at one
  have small := (List.forall_mem_singleton.mp one (by decide)).2
  exact absurd small (by decide)

end RealmVm
