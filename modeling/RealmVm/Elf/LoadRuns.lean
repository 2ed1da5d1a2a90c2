import RealmVm.Elf.LoadedImage

/-! What becomes of a file whose segments are ascending and below the stack, wherever its bytes are: it is loaded, it
is rejected, or the kernel crashes. -/
namespace RealmVm

open Lib

/-- The loop can get through the segment: it has memory above page 0, and room for its bytes of the file. -/
def Copyable (phdr : Phdr) : Prop := Loadable phdr ∧ phdr.pFilesz.toNat ≤ 4096 * pageCount phdr.pMemsz

/-- The file is an executable, its segments can be copied, and there are frames for them and the stack. -/
structure LoadCall.Loads (call : LoadCall) (m : Memory) (pool : Pool Word) : Prop where
  executable : call.Executable m
  copyable : ∀ phdr ∈ call.segments m, Copyable phdr
  frames : framesFor (call.segments m) + 4 ≤ pool.free.card

/-- The first segment that the loop does not get through is one that it rejects. -/
def LoadCall.Rejects (call : LoadCall) (m : Memory) (pool : Pool Word) : Prop :=
  ∃ good bad more, call.segments m = good ++ bad :: more ∧ (∀ phdr ∈ good, Copyable phdr) ∧ ¬ Loadable bad ∧
    framesFor good + pageCount bad.pMemsz ≤ pool.free.card

variable {call : LoadCall} {p : Process} {s₀ s s' : AddressSpace} {pool₀ pool pool' : Pool Word} {bound limit n : Nat}
  {pages : PageMap} {phdr : Phdr} {done : List Phdr}

/-- The copy runs past the pages of the segment, where nothing is mapped. -/
theorem loadSegment_overlong (start : LoadStart call p s₀ pool₀)
    (loaded : Loaded call p s₀ pool₀ bound [] s pool pages) (few : n < 2 ^ 16)
    (fill : RegionsFill p.headRegion call.blocks n bound s.regions) (enough : pageCount phdr.pMemsz ≤ pool.free.card)
    (above : bound ≤ (pageDown phdr.pVaddr).toNat) (inside : segmentEnd phdr ≤ 2 ^ 23) (loadable : Loadable phdr)
    (long : 4096 * pageCount phdr.pMemsz < phdr.pFilesz.toNat) :
    ∃ k, ∀ fuel, k < fuel → loadSegment fuel call p (call.blocks n) phdr s = none := by
  obtain ⟨s₁, pool₁, pages₁, ⟨k, ran⟩, _, added⟩ :=
    mapSegment_spec start loaded few fill enough above inside loadable.1 (elfPfToProt phdr.pFlags ||| protW)
  have aligned := pageDown_aligned phdr.pVaddr
  have positive := loadable.1
  have loaded₁ : Loaded call p s₀ pool₀ (segmentEnd phdr) [] s₁ pool₁ pages₁ := loaded.map start aligned above added
  unfold segmentEnd at inside
  have count : 0 < pageCount phdr.pMemsz := by
    unfold pageCount
    omega
  have number : pageNumber (pageDown phdr.pVaddr) = (pageDown phdr.pVaddr).toNat / 4096 := rfl
  obtain ⟨f, page, _⟩ := added.new (pageNumber (pageDown phdr.pVaddr)) (Nat.le_refl _) (by omega)
  have permitted : Mmu.permits ⟨s₁.memory.word, p.t.pgd, call.ttbr1⟩ .el1 true (pageDown phdr.pVaddr) = true :=
    loaded₁.backed.permits start.lower call.ttbr1 (by omega) page fun _ => protW_or _
  have behind : pages₁ (((pageDown phdr.pVaddr).toNat + 4096 * pageCount phdr.pMemsz) / 4096) = none := by
    cases found : pages₁ (((pageDown phdr.pVaddr).toNat + 4096 * pageCount phdr.pMemsz) / 4096) with
    | none => rfl
    | some x =>
      have low := loaded₁.below _ x found
      unfold segmentEnd at low
      omega
  have fault := copyBytes_fault start.lower (loaded₁.own start) call.ttbr1 (pageDown phdr.pVaddr)
    (phdr.pOffset + call.data) phdr.pFilesz.toNat 0 loaded₁.backed (Nat.zero_le _) (by omega) (by omega) behind
  have answered : ¬ (pageDown phdr.pVaddr = mapFailed ∨ pageDown phdr.pVaddr = 0) := by
    rintro (failed | null)
    · have high : mapFailed.toNat = 2 ^ 64 - 1 := rfl
      rw [failed] at inside
      omega
    · exact loadable.2 null
  refine ⟨k, fun fuel more => ?_⟩
  simp only [loadSegment, ran fuel more, if_neg answered, Memory.copyToUser, accessKernelOk_of_permits permitted,
    ne_eq, not_true_eq_false, if_false, fault, Option.map_none]

/-- So it does without enough frames. -/
theorem loadSegment_crash (start : LoadStart call p s₀ pool₀)
    (loaded : Loaded call p s₀ pool₀ bound [] s pool pages) (few : n < 2 ^ 16)
    (fill : RegionsFill p.headRegion call.blocks n bound s.regions)
    (above : bound ≤ (pageDown phdr.pVaddr).toNat) (inside : segmentEnd phdr ≤ 2 ^ 23)
    (crash : ¬ pageCount phdr.pMemsz ≤ pool.free.card ∨ Loadable phdr ∧ ¬ Copyable phdr) :
    ∃ k, ∀ fuel, k < fuel → loadSegment fuel call p (call.blocks n) phdr s = none := by
  by_cases enough : pageCount phdr.pMemsz ≤ pool.free.card
  · obtain ⟨loadable, long⟩ := crash.resolve_left fun lacking => lacking enough
    refine loadSegment_overlong start loaded few fill enough above inside loadable ?_
    by_contra short
    exact long ⟨loadable, Nat.le_of_not_lt short⟩
  · unfold segmentEnd at inside
    have small : phdr.pMemsz.toNat + 4095 < 2 ^ 64 := by
      unfold pageCount at inside
      omega
    have count := pageCount_pageUp small
    obtain ⟨k, ran⟩ := sysMmapUser_none (t := p.t) start.fresh few fill loaded.tracks
      (count.symm ▸ Nat.lt_of_not_le enough) above (count.symm ▸ inside) call.mmapStart
      (elfPfToProt phdr.pFlags ||| protW)
    refine ⟨k, fun fuel more => ?_⟩
    simp only [loadSegment, ran fuel more]

/-- The loop gets through segments that can be copied; other pages stay as they were. -/
theorem loadSegments_mapped (start : LoadStart call p s₀ pool₀) (segments : List Phdr)
    (few : n + segments.length < 2 ^ 16) (types : ∀ phdr ∈ segments, phdr.pType = ptLoad)
    (loaded : Loaded call p s₀ pool₀ bound [] s pool pages)
    (fill : RegionsFill p.headRegion call.blocks n bound s.regions) (below : SegmentsBelow (2 ^ 23) segments)
    (above : ∀ phdr ∈ segments, bound ≤ (pageDown phdr.pVaddr).toNat) (enough : framesFor segments ≤ pool.free.card)
    (sound : ∀ phdr ∈ segments, Copyable phdr) :
    ∃ s' pool' pages', Returns (fun fuel => loadSegments fuel call p n segments s) (0, s') ∧
      Loaded call p s₀ pool₀ (lastEnd bound segments) [] s' pool' pages' ∧
      RegionsFill p.headRegion call.blocks (n + segments.length) (lastEnd bound segments) s'.regions ∧
      pool'.free.card + framesFor segments = pool.free.card ∧
      ∀ q, (∀ phdr ∈ segments, ¬ Covers phdr q) → pages' q = pages q := by
  induction segments generalizing n bound s pool pages with
  | nil => exact ⟨s, pool, pages, ⟨0, fun _ _ => rfl⟩, loaded, fill, rfl, fun _ _ => rfl⟩
  | cons phdr rest ih =>
    obtain ⟨isLoad, types⟩ := List.forall_mem_cons.mp types
    obtain ⟨⟨⟨positive, proper⟩, short⟩, sound⟩ := List.forall_mem_cons.mp sound
    obtain ⟨low, above⟩ := List.forall_mem_cons.mp above
    obtain ⟨apart, ascending⟩ := List.pairwise_cons.mp below.ascending
    obtain ⟨inside, below⟩ := List.forall_mem_cons.mp below.inside
    rw [framesFor_cons] at enough
    rw [List.length_cons] at few
    obtain ⟨_, _, s₁, pool₁, pages₁, turn, loaded₁⟩ :=
      loadSegment_mapped start loaded (by omega) fill (by omega) short low (segmentEnd_le (by decide) inside) positive
        proper
    have later : ∀ next ∈ rest, segmentEnd phdr ≤ (pageDown next.pVaddr).toNat :=
      fun next member => SegmentBefore.end_le (apart next member)
    have card := turn.card
    obtain ⟨s', pool', pages', rest', loaded', fill', card', others'⟩ :=
      ih (by omega) types loaded₁ turn.fill ⟨ascending, below⟩ later (by omega) sound
    rw [lastEnd_cons, framesFor_cons, List.length_cons]
    rw [Nat.add_assoc, Nat.add_comm 1] at fill'
    refine ⟨s', pool', pages', loadSegments_cons isLoad turn.returned rest', loaded', fill', by omega,
      fun q outside => ?_⟩
    obtain ⟨notHere, notLater⟩ := List.forall_mem_cons.mp outside
    exact (others' q notLater).trans (turn.others q notHere)

/-- When no segment is rejected in front of it, the first that cannot be copied, or has too few frames, crashes. -/
theorem loadSegments_crash (start : LoadStart call p s₀ pool₀) (segments : List Phdr)
    (few : n + segments.length < 2 ^ 16) (types : ∀ phdr ∈ segments, phdr.pType = ptLoad)
    (loaded : Loaded call p s₀ pool₀ bound [] s pool pages)
    (fill : RegionsFill p.headRegion call.blocks n bound s.regions) (below : SegmentsBelow (2 ^ 23) segments)
    (above : ∀ phdr ∈ segments, bound ≤ (pageDown phdr.pVaddr).toNat)
    (fails : ¬ ((∀ phdr ∈ segments, Copyable phdr) ∧ framesFor segments ≤ pool.free.card))
    (accepted : ∀ good bad more, segments = good ++ bad :: more → (∀ phdr ∈ good, Copyable phdr) → ¬ Loadable bad →
      ¬ framesFor good + pageCount bad.pMemsz ≤ pool.free.card) :
    ∃ k, ∀ fuel, k < fuel → loadSegments fuel call p n segments s = none := by
  induction segments generalizing n bound s pool pages with
  | nil => exact absurd ⟨List.forall_mem_nil _, Nat.zero_le _⟩ fails
  | cons phdr rest ih =>
    obtain ⟨isLoad, types⟩ := List.forall_mem_cons.mp types
    obtain ⟨low, above⟩ := List.forall_mem_cons.mp above
    obtain ⟨apart, ascending⟩ := List.pairwise_cons.mp below.ascending
    obtain ⟨inside, below⟩ := List.forall_mem_cons.mp below.inside
    have last := segmentEnd_le (by decide) inside
    rw [List.length_cons] at few
    by_cases good : Copyable phdr ∧ pageCount phdr.pMemsz ≤ pool.free.card
    · obtain ⟨copyable, enough⟩ := good
      obtain ⟨⟨positive, proper⟩, short⟩ := copyable
      obtain ⟨_, _, s₁, pool₁, pages₁, turn, loaded₁⟩ :=
        loadSegment_mapped start loaded (by omega) fill enough short low last positive proper
      have later : ∀ next ∈ rest, segmentEnd phdr ≤ (pageDown next.pVaddr).toNat :=
        fun next member => SegmentBefore.end_le (apart next member)
      have card := turn.card
      have behind : ¬ ((∀ phdr ∈ rest, Copyable phdr) ∧ framesFor rest ≤ pool₁.free.card) := by
        rintro ⟨sound, left⟩
        refine fails ⟨List.forall_mem_cons.mpr ⟨⟨⟨positive, proper⟩, short⟩, sound⟩, ?_⟩
        rw [framesFor_cons]
        omega
      have accepted' : ∀ good bad more, rest = good ++ bad :: more → (∀ phdr ∈ good, Copyable phdr) → ¬ Loadable bad →
          ¬ framesFor good + pageCount bad.pMemsz ≤ pool₁.free.card := by
        intro good bad more split sound refused room
        refine accepted (phdr :: good) bad more (congrArg _ split)
          (List.forall_mem_cons.mpr ⟨⟨⟨positive, proper⟩, short⟩, sound⟩) refused ?_
        rw [framesFor_cons]
        omega
      obtain ⟨k, ran⟩ := turn.returned
      obtain ⟨k', crash⟩ := ih (by omega) types loaded₁ turn.fill ⟨ascending, below⟩ later behind accepted'
      refine ⟨k + k', fun fuel more => ?_⟩
      have here := ran fuel (by omega)
      simp only at here
      simp only [loadSegments, if_pos isLoad, here, ne_eq, not_true_eq_false, if_false]
      exact crash fuel (by omega)
    · have crash : ¬ pageCount phdr.pMemsz ≤ pool.free.card ∨ Loadable phdr ∧ ¬ Copyable phdr := by
        by_cases enough : pageCount phdr.pMemsz ≤ pool.free.card
        · refine .inr ⟨?_, fun copyable => good ⟨copyable, enough⟩⟩
          by_contra bad
          refine accepted [] phdr rest rfl (List.forall_mem_nil _) bad ?_
          rwa [framesFor, List.map_nil, List.sum_nil, Nat.zero_add]
        · exact .inl enough
      obtain ⟨k, crashed⟩ := loadSegment_crash start loaded (by omega) fill low last crash
      refine ⟨k, fun fuel more => ?_⟩
      simp only [loadSegments, if_pos isLoad, crashed fuel more]

section Call

theorem SegmentsBelow.mono {segments : List Phdr} (below : SegmentsBelow stackLow segments) :
    SegmentsBelow (2 ^ 23) segments :=
  ⟨below.ascending, fun phdr member => Nat.le_trans (below.inside phdr member) (by decide)⟩

/-- The loop over the segments ends below the stack and leaves the frames of the stack. -/
theorem LoadReady.loads_segments (ready : LoadReady call p s pool)
    (below : SegmentsBelow stackLow (call.segments s.memory)) (loads : call.Loads s.memory pool) :
    ∃ s₁ pool₁ pages₁,
      Returns (fun fuel => loadSegments fuel call { p with entry := eEntry (call.header s.memory) 0 } 0
        (call.segments s.memory) s) (0, s₁) ∧
      Loaded call { p with entry := eEntry (call.header s.memory) 0 } s pool (lastEnd 0 (call.segments s.memory)) [] s₁
        pool₁ pages₁ ∧
      RegionsFill p.headRegion call.blocks (call.segments s.memory).length (lastEnd 0 (call.segments s.memory))
        s₁.regions ∧
      lastEnd 0 (call.segments s.memory) ≤ stackLow ∧ 4 ≤ pool₁.free.card := by
  have started := ready.withEntry (eEntry (call.header s.memory) 0)
  have frames := loads.frames
  obtain ⟨s₁, pool₁, pages₁, ran, loaded, fill, card, _⟩ := loadSegments_mapped started.start (call.segments s.memory)
    ((Nat.zero_add _).symm ▸ call.segments_few s.memory) (call.segments_load s.memory) started.loaded started.fill
    below.mono (fun _ _ => Nat.zero_le _) (by omega) loads.copyable
  have ends : lastEnd 0 (call.segments s.memory) ≤ stackLow :=
    lastEnd_le (Nat.zero_le _) fun phdr member => segmentEnd_le (by decide) (below.inside phdr member)
  rw [Nat.zero_add] at fill
  exact ⟨s₁, pool₁, pages₁, ran, loaded, fill, ends, by omega⟩

theorem loadExecutable_loads (ready : LoadReady call p s pool)
    (below : SegmentsBelow stackLow (call.segments s.memory)) (loads : call.Loads s.memory pool) :
    ∃ p' s', Returns (fun fuel => loadExecutable fuel call p s) (0, p', s') := by
  obtain ⟨s₁, pool₁, pages₁, ran, loaded, fill, ends, room⟩ := ready.loads_segments below loads
  obtain ⟨p', s', _, _, returned, _⟩ :=
    loadExecutable_stack ready loads.executable rfl ran loaded fill ends room
  exact ⟨p', s', returned⟩

theorem SegmentsBelow.front {good more : List Phdr} {bad : Phdr} (below : SegmentsBelow limit (good ++ bad :: more)) :
    SegmentsBelow limit (good ++ [bad]) := by
  have front : (good ++ [bad]).Sublist (good ++ bad :: more) :=
    (List.Sublist.refl good).append ((List.nil_sublist more).cons_cons bad)
  exact ⟨below.ascending.sublist front, fun phdr member => below.inside phdr (front.mem member)⟩

/-- The loop up to the first segment that is rejected. -/
theorem loadSegments_rejects (ready : LoadReady call p s pool) {good more : List Phdr} {bad : Phdr}
    (split : call.segments s.memory = good ++ bad :: more) (below : SegmentsBelow (2 ^ 23) (good ++ [bad])) (copyable : ∀ phdr ∈ good, Copyable phdr)
    (refused : ¬ Loadable bad) (room : framesFor good + pageCount bad.pMemsz ≤ pool.free.card) :
    ∃ s₁ s₂, Returns (fun fuel => loadSegments fuel call p 0 good s) (0, s₁) ∧
      Returns (fun fuel => loadSegment fuel call p (call.blocks good.length) bad s₁) (-enomem, s₂) := by
  have few := call.segments_few s.memory
  have types := call.segments_load s.memory
  have inside := below.inside
  rw [split] at few types
  obtain ⟨first, _, apart⟩ := List.pairwise_append.mp below.ascending
  obtain ⟨typesGood, _⟩ := List.forall_mem_append.mp types
  obtain ⟨insideGood, insideBad⟩ := List.forall_mem_append.mp inside
  rw [List.length_append, List.length_cons] at few
  obtain ⟨s₁, pool₁, pages₁, ran, loaded, fill, card, _⟩ := loadSegments_mapped ready.start good (by omega) typesGood
    ready.loaded ready.fill ⟨first, insideGood⟩ (fun _ _ => Nat.zero_le _) (by omega) copyable
  have above : lastEnd 0 good ≤ (pageDown bad.pVaddr).toNat :=
    lastEnd_le (Nat.zero_le _) fun old member => SegmentBefore.end_le (apart old member bad (List.mem_singleton_self bad))
  obtain ⟨s₂, rejected⟩ := loadSegment_rejected ready.start loaded (by omega) fill (by omega) above
    (segmentEnd_le (by decide) (insideBad bad (List.mem_singleton_self bad))) refused
  rw [Nat.zero_add] at rejected
  exact ⟨s₁, s₂, ran, rejected⟩

theorem loadExecutable_rejects (ready : LoadReady call p s pool) (executable : call.Executable s.memory)
    {good more : List Phdr} {bad : Phdr} (split : call.segments s.memory = good ++ bad :: more)
    (below : SegmentsBelow (2 ^ 23) (good ++ [bad])) (copyable : ∀ phdr ∈ good, Copyable phdr)
    (refused : ¬ Loadable bad) (room : framesFor good + pageCount bad.pMemsz ≤ pool.free.card) :
    ∃ p' s', Returns (fun fuel => loadExecutable fuel call p s) (-enomem, p', s') := by
  obtain ⟨s₁, s₂, ran, rejected⟩ :=
    loadSegments_rejects (ready.withEntry (eEntry (call.header s.memory) 0)) split below copyable refused room
  have types := call.segments_load s.memory
  rw [split] at types
  obtain ⟨typesGood, typesBad⟩ := List.forall_mem_append.mp types
  have negative : -enomem ≠ 0 := by decide
  rw [← Nat.zero_add good.length] at rejected
  have stops := loadSegments_refused more (typesBad bad List.mem_cons_self) rejected negative
  exact ⟨_, s₂, loadExecutable_refused ready executable (split ▸ loadSegments_through typesGood ran stops) negative⟩

/-- What neither loads nor is rejected crashes the kernel. -/
theorem loadExecutable_crash (ready : LoadReady call p s pool) (executable : call.Executable s.memory)
    (below : SegmentsBelow stackLow (call.segments s.memory)) (loads : ¬ call.Loads s.memory pool)
    (rejects : ¬ call.Rejects s.memory pool) :
    ∃ k, ∀ fuel, k < fuel → loadExecutable fuel call p s = none := by
  have started := ready.withEntry (eEntry (call.header s.memory) 0)
  have few : 0 + (call.segments s.memory).length < 2 ^ 16 := (Nat.zero_add _).symm ▸ call.segments_few s.memory
  by_cases passed : (∀ phdr ∈ call.segments s.memory, Copyable phdr) ∧
      framesFor (call.segments s.memory) ≤ pool.free.card
  · -- there are too few frames for the stack
    have lacking : ¬ framesFor (call.segments s.memory) + 4 ≤ pool.free.card :=
      fun frames => loads ⟨executable, passed.1, frames⟩
    obtain ⟨s₁, pool₁, pages₁, ⟨k, ran⟩, loaded, fill, card, _⟩ := loadSegments_mapped started.start
      (call.segments s.memory) few (call.segments_load s.memory) started.loaded started.fill below.mono
      (fun _ _ => Nat.zero_le _) passed.2 passed.1
    have four : pageCount 0x4000 = 4 := by decide
    have ends : lastEnd 0 (call.segments s.memory) ≤ (0x7fb000 : Word).toNat :=
      lastEnd_le (Nat.zero_le _) fun phdr member => segmentEnd_le (by decide) (below.inside phdr member)
    have inside : (0x7fb000 : Word).toNat + 4096 * pageCount 0x4000 ≤ 2 ^ 23 := by
      rw [four]
      decide
    obtain ⟨k', crash⟩ := sysMmapUser_none (t := p.t) started.start.fresh few fill loaded.tracks
      (by rw [four]; omega) ends inside call.mmapStart protRw
    refine ⟨k + k', fun fuel more => ?_⟩
    have loop := ran fuel (by omega)
    have stack : sysMmapUser fuel s₁ p.t p.headRegion call.mmapStart
        (call.blocks (call.segments s.memory).length) (0x7ff000 - 0x4000) 0x4000 protRw mapFixed = none := by
      have none := crash fuel (by omega)
      rw [Nat.zero_add] at none
      exact none
    simp only at loop
    simp only [loadExecutable_eq ready executable, loop, ne_eq, not_true_eq_false, if_false, stack]
  · obtain ⟨k, crash⟩ := loadSegments_crash started.start (call.segments s.memory) few (call.segments_load s.memory)
      started.loaded started.fill below.mono (fun _ _ => Nat.zero_le _) passed
      fun good bad more split copyable refused room => rejects ⟨good, bad, more, split, copyable, refused, room⟩
    refine ⟨k, fun fuel more => ?_⟩
    simp only [loadExecutable_eq ready executable, crash fuel more]

/-- A call that returns 0 has a file that loads. -/
theorem loads_of_returns (ready : LoadReady call p s pool) (below : SegmentsBelow stackLow (call.segments s.memory))
    {p' : Process} (returned : Returns (fun fuel => loadExecutable fuel call p s) (0, p', s')) :
    call.Loads s.memory pool := by
  by_cases executable : call.Executable s.memory
  · by_contra other
    by_cases rejects : call.Rejects s.memory pool
    · obtain ⟨good, bad, more, split, copyable, refused, room⟩ := rejects
      have ordered := below.mono
      rw [split] at ordered
      obtain ⟨_, _, rejected⟩ := loadExecutable_rejects ready executable split ordered.front copyable refused room
      cases returned.unique rejected
    · exact returned.not_none (loadExecutable_crash ready executable below other rejects)
  · have out := returned.unique ⟨0, fun fuel _ => loadExecutable_other ready executable fuel⟩
    cases out

end Call

end RealmVm
