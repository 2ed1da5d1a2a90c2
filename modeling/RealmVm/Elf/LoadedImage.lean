import RealmVm.Elf.Segment

/-! The whole of `load_executable`: when the image of the file is in memory afterwards. -/
namespace RealmVm

open Lib Lib.Bits

/-- What a segment needs to be loaded at all. -/
def Loadable (phdr : Phdr) : Prop := 0 < phdr.pMemsz.toNat ∧ pageDown phdr.pVaddr ≠ 0

instance (phdr : Phdr) : Decidable (Loadable phdr) := inferInstanceAs (Decidable (_ ∧ _))

/-- One segment ends before the first page of another. -/
def SegmentBefore (a b : Phdr) : Prop := a.pVaddr.toNat + a.pMemsz.toNat ≤ (pageDown b.pVaddr).toNat

/-- The segments are in the file, ascending, on pages of their own, and end at `limit` or before. -/
structure SegmentsInOrder (call : LoadCall) (limit : Nat) (segments : List Phdr) : Prop where
  fits : ∀ phdr ∈ segments, call.Fits phdr
  ascending : segments.Pairwise SegmentBefore
  inside : ∀ phdr ∈ segments, phdr.pVaddr.toNat + phdr.pMemsz.toNat ≤ limit

/-- The same without the file: ascending, on pages of their own, and no higher than `limit`. -/
structure SegmentsBelow (limit : Nat) (segments : List Phdr) : Prop where
  ascending : segments.Pairwise SegmentBefore
  inside : ∀ phdr ∈ segments, phdr.pVaddr.toNat + phdr.pMemsz.toNat ≤ limit

/-- The frames that the segments take. -/
def framesFor (segments : List Phdr) : Nat := (segments.map fun phdr => pageCount phdr.pMemsz).sum

/-- Where the last segment ends. -/
def lastEnd (bound : Nat) (segments : List Phdr) : Nat := (segments.getLast?.map segmentEnd).getD bound

variable {call : LoadCall} {p : Process} {s₀ s s' : AddressSpace} {pool₀ pool pool' : Pool Word} {bound limit : Nat}
  {done rest : List Phdr} {pages pages' : PageMap} {phdr : Phdr}

theorem segmentEnd_le {limit : Nat} (whole : limit % 4096 = 0)
    (inside : phdr.pVaddr.toNat + phdr.pMemsz.toNat ≤ limit) :
    segmentEnd phdr ≤ limit := by
  have down := pageDown_toNat phdr.pVaddr
  unfold segmentEnd pageCount
  omega

theorem SegmentBefore.end_le {a b : Phdr} (before : SegmentBefore a b) : segmentEnd a ≤ (pageDown b.pVaddr).toNat :=
  segmentEnd_le (pageDown_aligned b.pVaddr) before

theorem SegmentsInOrder.below {segments : List Phdr} (order : SegmentsInOrder call limit segments) :
    SegmentsBelow limit segments :=
  ⟨order.ascending, order.inside⟩

theorem SegmentsBelow.apart {segments : List Phdr} (below : SegmentsBelow limit segments) :
    ∀ a ∈ segments, ∀ b ∈ segments, a = b ∨ SegmentBefore a b ∨ SegmentBefore b a :=
  List.Pairwise.forall_of_forall_of_flip (R := fun a b => a = b ∨ SegmentBefore a b ∨ SegmentBefore b a)
    (fun _ _ => Or.inl rfl) (below.ascending.imp fun before => Or.inr (Or.inl before))
    (below.ascending.imp fun before => Or.inr (Or.inr before))

/-- No other segment has a page of this one. -/
theorem SegmentsBelow.covers {segments : List Phdr} {q : Nat} (below : SegmentsBelow limit segments)
    {phdr other : Phdr} (member : phdr ∈ segments) (second : other ∈ segments) (covers : Covers other q)
    (low : (pageDown phdr.pVaddr).toNat ≤ 4096 * q) (high : 4096 * q < phdr.pVaddr.toNat + phdr.pMemsz.toNat) :
    Covers phdr q := by
  obtain same | before | behind := below.apart phdr member other second
  · exact same ▸ covers
  · have first := covers.1
    unfold SegmentBefore at before
    omega
  · have last := covers.2
    have ends := SegmentBefore.end_le behind
    omega

/-- Only the PT_LOAD headers count. -/
theorem loadSegments_filter (fuel : Nat) (call : LoadCall) (p : Process) (mapped : Nat) (phdrs : List Phdr)
    (s : AddressSpace) :
    loadSegments fuel call p mapped phdrs s =
      loadSegments fuel call p mapped (phdrs.filter fun phdr => phdr.pType = ptLoad) s := by
  induction phdrs generalizing mapped s with
  | nil => rfl
  | cons phdr rest ih =>
    cases decEq phdr.pType ptLoad with
    | isTrue isLoad =>
      rw [List.filter_cons_of_pos (by simpa using isLoad)]
      simp only [loadSegments, if_pos isLoad, ih]
    | isFalse other =>
      rw [List.filter_cons_of_neg (by simpa using other), ← ih]
      simp only [loadSegments, if_neg other]

theorem loadSegments_append {fuel mapped : Nat} {first : List Phdr} (later : List Phdr)
    (types : ∀ phdr ∈ first, phdr.pType = ptLoad) (ran : loadSegments fuel call p mapped first s = some (0, s')) :
    loadSegments fuel call p mapped (first ++ later) s = loadSegments fuel call p (mapped + first.length) later s' := by
  induction first generalizing mapped s with
  | nil =>
    cases ran
    rfl
  | cons phdr rest ih =>
    obtain ⟨isLoad, types⟩ := List.forall_mem_cons.mp types
    rw [List.cons_append]
    simp only [loadSegments, if_pos isLoad] at ran ⊢
    split at ran
    · cases ran
    · split at ran
      · rename_i failed
        cases ran
        exact absurd rfl failed
      · rename_i code t here ok
        rw [if_neg ok, ih types ran, List.length_cons, Nat.add_assoc, Nat.add_comm 1]

/-- A turn, and the loop behind it. -/
theorem loadSegments_cons {mapped : Nat} {result : Int × AddressSpace} (isLoad : phdr.pType = ptLoad)
    (here : Returns (fun fuel => loadSegment fuel call p (call.blocks mapped) phdr s) (0, s'))
    (later : Returns (fun fuel => loadSegments fuel call p (mapped + 1) rest s') result) :
    Returns (fun fuel => loadSegments fuel call p mapped (phdr :: rest) s) result := by
  obtain ⟨k, here⟩ := here
  obtain ⟨n, later⟩ := later
  refine ⟨k + n, fun fuel more => ?_⟩
  have turn := here fuel (by omega)
  simp only at turn
  simp only [loadSegments, if_pos isLoad, turn, ne_eq, not_true_eq_false, if_false]
  exact later fuel (by omega)

/-- A turn with another result is the last. -/
theorem loadSegments_refused {mapped : Nat} {ret : Int} (rest : List Phdr) (isLoad : phdr.pType = ptLoad)
    (here : Returns (fun fuel => loadSegment fuel call p (call.blocks mapped) phdr s) (ret, s')) (failed : ret ≠ 0) :
    Returns (fun fuel => loadSegments fuel call p mapped (phdr :: rest) s) (ret, s') := by
  obtain ⟨k, here⟩ := here
  refine ⟨k, fun fuel more => ?_⟩
  have turn := here fuel more
  simp only at turn
  simp only [loadSegments, if_pos isLoad, turn, if_pos failed]

theorem loadSegments_through {mapped : Nat} {first later : List Phdr} {result : Int × AddressSpace}
    (types : ∀ phdr ∈ first, phdr.pType = ptLoad)
    (ran : Returns (fun fuel => loadSegments fuel call p mapped first s) (0, s'))
    (rest : Returns (fun fuel => loadSegments fuel call p (mapped + first.length) later s') result) :
    Returns (fun fuel => loadSegments fuel call p mapped (first ++ later) s) result := by
  obtain ⟨k, ran⟩ := ran
  obtain ⟨n, rest⟩ := rest
  refine ⟨k + n, fun fuel more => ?_⟩
  exact (loadSegments_append later types (ran fuel (by omega))).trans (rest fuel (by omega))

theorem SegmentsInOrder.tail (order : SegmentsInOrder call limit (phdr :: rest)) : SegmentsInOrder call limit rest :=
  ⟨fun next member => order.fits next (List.mem_cons_of_mem _ member), (List.pairwise_cons.mp order.ascending).2,
    fun next member => order.inside next (List.mem_cons_of_mem _ member)⟩

theorem framesFor_cons (phdr : Phdr) (rest : List Phdr) :
    framesFor (phdr :: rest) = pageCount phdr.pMemsz + framesFor rest := rfl

theorem lastEnd_cons (bound : Nat) (phdr : Phdr) (rest : List Phdr) :
    lastEnd bound (phdr :: rest) = lastEnd (segmentEnd phdr) rest := by
  cases rest with
  | nil => rfl
  | cons next rest => rfl

/-- The loop goes through segments that can be loaded. -/
theorem loadSegments_spec (start : LoadStart call p s₀ pool₀) (segments : List Phdr)
    (few : done.length + segments.length < 2 ^ 16) (types : ∀ phdr ∈ segments, phdr.pType = ptLoad)
    (loaded : Loaded call p s₀ pool₀ bound done s pool pages)
    (fill : RegionsFill p.headRegion call.blocks done.length bound s.regions)
    (before : ∀ old ∈ done, segmentEnd old ≤ bound) (order : SegmentsInOrder call (2 ^ 23) segments)
    (above : ∀ phdr ∈ segments, bound ≤ (pageDown phdr.pVaddr).toNat) (enough : framesFor segments ≤ pool.free.card)
    (loadable : ∀ phdr ∈ segments, Loadable phdr) :
    ∃ s' pool' pages', Returns (fun fuel => loadSegments fuel call p done.length segments s) (0, s') ∧
      Loaded call p s₀ pool₀ (lastEnd bound segments) (done ++ segments) s' pool' pages' ∧
      RegionsFill p.headRegion call.blocks (done ++ segments).length (lastEnd bound segments) s'.regions ∧
      pool'.free.card + framesFor segments = pool.free.card ∧
      ∀ q, (pages' q).isSome → (pages q).isSome ∨ ∃ phdr ∈ segments, Covers phdr q := by
  induction segments generalizing done bound s pool pages with
  | nil =>
    rw [List.append_nil]
    exact ⟨s, pool, pages, ⟨0, fun _ _ => rfl⟩, loaded, fill, rfl, fun _ found => Or.inl found⟩
  | cons phdr rest ih =>
    obtain ⟨isLoad, types⟩ := List.forall_mem_cons.mp types
    obtain ⟨⟨positive, proper⟩, loadable⟩ := List.forall_mem_cons.mp loadable
    obtain ⟨low, above⟩ := List.forall_mem_cons.mp above
    rw [framesFor_cons] at enough
    rw [List.length_cons] at few
    have inside := segmentEnd_le (by decide) (order.inside phdr List.mem_cons_self)
    obtain ⟨s₁, pool₁, pages₁, ran, loaded₁, fill₁, card, only₁⟩ :=
      loadSegment_spec start loaded (by omega) fill before
      (by omega) (order.fits phdr List.mem_cons_self) low inside positive proper
    have later : ∀ next ∈ rest, segmentEnd phdr ≤ (pageDown next.pVaddr).toNat := fun next member =>
      SegmentBefore.end_le ((List.pairwise_cons.mp order.ascending).1 next member)
    have ends : ∀ old ∈ done ++ [phdr], segmentEnd old ≤ segmentEnd phdr := by
      intro old member
      cases List.mem_append.mp member with
      | inl earlier =>
        have here := before old earlier
        unfold segmentEnd at here ⊢
        omega
      | inr same => exact (List.mem_singleton.mp same) ▸ Nat.le_refl _
    have length : (done ++ [phdr]).length = done.length + 1 := List.length_append
    obtain ⟨s', pool', pages', rest', loaded', fill', card', only'⟩ :=
      ih (by omega) types loaded₁ (length ▸ fill₁) ends order.tail later (by omega) loadable
    rw [length] at rest'
    rw [List.append_assoc] at loaded' fill'
    rw [lastEnd_cons, framesFor_cons]
    refine ⟨s', pool', pages', loadSegments_cons isLoad ran rest', loaded', fill', by omega, fun q found => ?_⟩
    cases only' q found with
    | inl earlier => exact (only₁ q earlier).imp_right fun covers => ⟨phdr, List.mem_cons_self, covers⟩
    | inr later =>
      obtain ⟨next, member, covers⟩ := later
      exact Or.inr ⟨next, List.mem_cons_of_mem _ member, covers⟩

theorem first_unloadable {segments : List Phdr} (unloadable : ¬ ∀ phdr ∈ segments, Loadable phdr) :
    ∃ good bad more, segments = good ++ bad :: more ∧ (∀ phdr ∈ good, Loadable phdr) ∧ ¬ Loadable bad := by
  cases found : segments.find? fun phdr => ¬ Loadable phdr with
  | none =>
    refine absurd (fun phdr member => ?_) unloadable
    simpa using List.find?_eq_none.mp found phdr member
  | some bad =>
    obtain ⟨refused, good, more, split, passed⟩ := List.find?_eq_some_iff_append.mp found
    refine ⟨good, bad, more, split, fun phdr member => ?_, by simpa using refused⟩
    simpa using passed phdr member

theorem SegmentsInOrder.left {first later : List Phdr} (order : SegmentsInOrder call limit (first ++ later)) :
    SegmentsInOrder call limit first :=
  ⟨fun phdr member => order.fits phdr (List.mem_append_left _ member),
    (List.pairwise_append.mp order.ascending).1,
    fun phdr member => order.inside phdr (List.mem_append_left _ member)⟩

theorem framesFor_append (first later : List Phdr) :
    framesFor (first ++ later) = framesFor first + framesFor later := by
  rw [framesFor, List.map_append, List.sum_append]
  rfl

theorem lastEnd_le {most : Nat} (low : bound ≤ most) {segments : List Phdr}
    (below : ∀ phdr ∈ segments, segmentEnd phdr ≤ most) : lastEnd bound segments ≤ most := by
  unfold lastEnd
  cases last : segments.getLast? with
  | none => exact low
  | some phdr => exact below phdr (List.mem_of_getLast? last)

/-- A segment that cannot be loaded is rejected. -/
theorem loadSegment_rejected (start : LoadStart call p s₀ pool₀)
    (loaded : Loaded call p s₀ pool₀ bound done s pool pages) (few : n < 2 ^ 16)
    (fill : RegionsFill p.headRegion call.blocks n bound s.regions) (enough : pageCount phdr.pMemsz ≤ pool.free.card)
    (above : bound ≤ (pageDown phdr.pVaddr).toNat) (inside : segmentEnd phdr ≤ 2 ^ 23) (bad : ¬ Loadable phdr) :
    ∃ s', Returns (fun fuel => loadSegment fuel call p (call.blocks n) phdr s) (-enomem, s') := by
  by_cases empty : phdr.pMemsz = 0
  · exact ⟨s, 0, fun fuel _ => loadSegment_empty s fuel _ empty⟩
  · have positive : 0 < phdr.pMemsz.toNat := by bv_omega
    have zero : pageDown phdr.pVaddr = 0 := by
      by_contra proper
      exact bad ⟨positive, proper⟩
    exact loadSegment_pageZero start loaded few fill enough above inside positive zero

/-- With one that cannot be loaded the loop fails. -/
theorem loadSegments_fails (start : LoadStart call p s₀ pool₀) (segments : List Phdr)
    (few : segments.length < 2 ^ 16) (types : ∀ phdr ∈ segments, phdr.pType = ptLoad)
    (loaded : Loaded call p s₀ pool₀ 0 [] s pool pages)
    (fill : RegionsFill p.headRegion call.blocks 0 0 s.regions) (order : SegmentsInOrder call (2 ^ 23) segments)
    (enough : framesFor segments ≤ pool.free.card) (unloadable : ¬ ∀ phdr ∈ segments, Loadable phdr) :
    ∃ s', Returns (fun fuel => loadSegments fuel call p 0 segments s) (-enomem, s') := by
  obtain ⟨good, bad, more, rfl, passed, refused⟩ := first_unloadable unloadable
  have goodTypes : ∀ phdr ∈ good, phdr.pType = ptLoad := fun phdr member => types phdr (List.mem_append_left _ member)
  have isLoad := types bad (List.mem_append_right _ List.mem_cons_self)
  have cost := framesFor_append good (bad :: more)
  rw [framesFor_cons] at cost
  rw [List.length_append, List.length_cons] at few
  have fewGood : ([] : List Phdr).length + good.length < 2 ^ 16 := by
    rw [List.length_nil]
    omega
  obtain ⟨s₁, pool₁, pages₁, ran, loaded₁, fill₁, card, _⟩ := loadSegments_spec start good fewGood goodTypes loaded
    fill nofun order.left (fun _ _ => Nat.zero_le _) (by omega) passed
  rw [List.nil_append] at fill₁
  rw [List.length_nil] at ran
  have ended : lastEnd 0 good ≤ (pageDown bad.pVaddr).toNat := by
    refine lastEnd_le (Nat.zero_le _) fun phdr member => ?_
    exact SegmentBefore.end_le ((List.pairwise_append.mp order.ascending).2.2 phdr member bad List.mem_cons_self)
  have inside := segmentEnd_le (by decide) (order.inside bad (List.mem_append_right _ List.mem_cons_self))
  obtain ⟨s', rejected⟩ := loadSegment_rejected start loaded₁ (by omega) fill₁ (by omega) ended inside refused
  have negative : -enomem ≠ 0 := by decide
  rw [← Nat.zero_add good.length] at rejected
  exact ⟨s', loadSegments_through goodTypes ran (loadSegments_refused more isLoad rejected negative)⟩

/- The state `load_executable` is called in: a buffer and data, tables without an entry, and
one region that is not mapped. -/
structure LoadReady (call : LoadCall) (p : Process) (s : AddressSpace) (pool : Pool Word) : Prop where
  start : LoadStart call p s pool
  buffer : call.buf ≠ 0
  hasData : call.HasData
  laid : LaidOut s.memory p.t userPages
  empty : NoValidEntry s.memory p.t
  writable : ∀ l, l ≠ .pt3 → ∀ i < userPages l * 512, (entry s.memory p.t l i).getLsbD 62 = false
  unmapped : (s.regions p.headRegion).isMapped = 0
  alone : (s.regions p.headRegion).next = 0

/-- The segments of the file. -/
def LoadCall.segments (call : LoadCall) (m : Memory) : List Phdr := loads (call.header m) 0

def LoadCall.Executable (call : LoadCall) (m : Memory) : Prop :=
  eType (call.header m) 0 = etExec ∨ eType (call.header m) 0 = etDyn

/-- The lowest address of the stack. -/
def stackLow : Nat := 0x7fb000

theorem LoadReady.read (ready : LoadReady call p s pool) : ¬ (¬ call.HasData ∧ call.count ≤ 0) :=
  fun missing => missing.1 ready.hasData

theorem LoadReady.withEntry (ready : LoadReady call p s pool) (entry : Word) :
    LoadReady call { p with entry := entry } s pool := by
  obtain ⟨⟨lower, fresh, tracks, physical, apart, data⟩, buffer, hasData, laid, empty, writable, unmapped,
    alone⟩ := ready
  exact ⟨⟨lower, fresh, tracks, physical, apart, data⟩, buffer, hasData, laid, empty, writable, unmapped, alone⟩

theorem LoadReady.loaded (ready : LoadReady call p s pool) : Loaded call p s pool 0 [] s pool fun _ => none :=
  ⟨Backed.empty ready.laid ready.empty ready.writable, ready.start.tracks, ⟨rfl, rfl⟩, rfl, Finset.Subset.refl _, nofun,
    nofun, nofun, fun _ _ _ _ => rfl, fun _ _ _ => rfl, nofun⟩

theorem LoadReady.fill (ready : LoadReady call p s pool) : RegionsFill p.headRegion call.blocks 0 0 s.regions := by
  refine ⟨[], ?_, nofun, Or.inl ⟨rfl, rfl, ready.unmapped⟩⟩
  have proper : (0 : Word) ∉ [p.headRegion] := by
    simpa using ready.start.fresh.first.symm
  exact ⟨⟨rfl, ready.alone⟩, proper⟩

/-- `e_phnum` has 16 bits. -/
theorem LoadCall.segments_few (call : LoadCall) (m : Memory) : (call.segments m).length < 2 ^ 16 := by
  refine Nat.lt_of_le_of_lt (List.length_filter_le _ _) ?_
  rw [phdrs, List.length_map, List.length_range]
  exact BitVec.isLt _

theorem LoadCall.segments_load (call : LoadCall) (m : Memory) : ∀ phdr ∈ call.segments m, phdr.pType = ptLoad := by
  intro phdr member
  simpa using (List.mem_filter.mp member).2

/-- How the call goes on from the loop. -/
theorem loadExecutable_eq (ready : LoadReady call p s pool) (executable : call.Executable s.memory) (fuel : Nat) :
    loadExecutable fuel call p s =
      match loadSegments fuel call { p with entry := eEntry (call.header s.memory) 0 } 0 (call.segments s.memory) s with
      | none => none
      | some (ret, s₁) =>
        if ret ≠ 0 then some (ret, { p with entry := eEntry (call.header s.memory) 0 }, s₁)
        else
          match sysMmapUser fuel s₁ p.t p.headRegion call.mmapStart (call.blocks (call.segments s.memory).length)
            (0x7ff000 - 0x4000) 0x4000 protRw mapFixed with
          | none => none
          | some (address, s₂) =>
            if address = 0 then some (-enomem, { p with
              entry := eEntry (call.header s.memory) 0
              stackBase := 0x7ff000
              stackSize := 0x4000 }, s₂)
            else some (0, { p with
              entry := eEntry (call.header s.memory) 0
              stackBase := 0x7ff000
              stackSize := 0x4000 }, s₂) := by
  have type : ¬ ¬ (eType (call.header s.memory) 0 = etExec ∨ eType (call.header s.memory) 0 = etDyn) :=
    fun other => other executable
  simp only [loadExecutable, if_neg ready.buffer, if_neg ready.read, if_neg type]
  rw [loadSegments_filter]
  rfl

theorem loadExecutable_other (ready : LoadReady call p s pool) (other : ¬ call.Executable s.memory) (fuel : Nat) :
    loadExecutable fuel call p s = some (-enoexec, p, s) := by
  have type : ¬ (eType (call.header s.memory) 0 = etExec ∨ eType (call.header s.memory) 0 = etDyn) := other
  simp only [loadExecutable, if_neg ready.buffer, if_neg ready.read, if_pos type]

/-- The call ends where the loop does. -/
theorem loadExecutable_refused (ready : LoadReady call p s pool) (executable : call.Executable s.memory) {ret : Int}
    (loop : Returns (fun fuel => loadSegments fuel call { p with entry := eEntry (call.header s.memory) 0 } 0
      (call.segments s.memory) s) (ret, s')) (failed : ret ≠ 0) :
    Returns (fun fuel => loadExecutable fuel call p s)
      (ret, { p with entry := eEntry (call.header s.memory) 0 }, s') := by
  obtain ⟨k, ran⟩ := loop
  refine ⟨k, fun fuel more => ?_⟩
  have here := ran fuel more
  simp only at here
  simp only [loadExecutable_eq ready executable, here, if_pos failed]

/-- What is left when the loop has come through below the stack: the four pages of the stack, above all others. -/
theorem loadExecutable_stackPages (ready : LoadReady call p s pool) (executable : call.Executable s.memory)
    {s₁ : AddressSpace} {pool₁ : Pool Word} {pages₁ : PageMap} {entry : Word}
    (same : entry = eEntry (call.header s.memory) 0)
    (ran : Returns (fun fuel => loadSegments fuel call { p with entry := entry } 0 (call.segments s.memory) s) (0, s₁))
    (loaded : Loaded call { p with entry := entry } s pool bound done s₁ pool₁ pages₁)
    (fill : RegionsFill p.headRegion call.blocks (call.segments s.memory).length bound s₁.regions)
    (low : bound ≤ stackLow) (room : 4 ≤ pool₁.free.card) :
    ∃ s' pool' pages', Returns (fun fuel => loadExecutable fuel call p s)
        (0, { p with entry := entry, stackBase := 0x7ff000, stackSize := 0x4000 }, s') ∧
      Loaded call { p with entry := entry } s pool (stackLow + 4096 * 4) done s' pool' pages' ∧
      (∀ q, stackLow ≤ 4096 * q → 4096 * q < stackLow + 4096 * 4 → ∃ f, pages' q = some (f, protRw)) ∧
      ∀ q, 4096 * q < stackLow → pages' q = pages₁ q := by
  subst same
  have started := ready.withEntry (eEntry (call.header s.memory) 0)
  obtain ⟨k, ran⟩ := ran
  have physical : s₁.frames.frameStart.toNat + s₁.frames.frameCount.toNat * 4096 ≤ 2 ^ 48 := by
    rw [loaded.arena.1, loaded.arena.2]
    exact started.start.physical
  have four : pageCount 0x4000 = 4 := by decide
  have aligned : (0x7fb000 : Word).toNat % 4096 = 0 := by decide
  have positive : 0 < (0x4000 : Word).toNat := by decide
  have inside : (0x7fb000 : Word).toNat + 4096 * pageCount 0x4000 ≤ 2 ^ 23 := by
    rw [four]
    decide
  have low : bound ≤ (0x7fb000 : Word).toNat := low
  obtain ⟨s₂, pool₂, pages₂, ⟨k', mapped⟩, _, added⟩ := sysMmapUser_spec started.start.lower started.start.fresh
    (call.segments_few s.memory) fill loaded.backed loaded.tracks physical (four ▸ room) aligned low positive inside
    call.mmapStart protRw
  rw [four] at added
  have stack := loaded.map started.start aligned low added
  refine ⟨s₂, pool₂, pages₂, ⟨k + k', fun fuel more => ?_⟩, stack, fun q low high => ?_, fun q below => ?_⟩
  · have loop := ran fuel (by omega)
    have last : sysMmapUser fuel s₁ p.t p.headRegion call.mmapStart (call.blocks (call.segments s.memory).length)
        (0x7ff000 - 0x4000) 0x4000 protRw mapFixed = some (0x7fb000, s₂) := mapped fuel (by omega)
    have proper : (0x7fb000 : Word) ≠ 0 := by decide
    simp only at loop
    simp only [loadExecutable_eq ready executable, loop, ne_eq, not_true_eq_false, if_false, last, if_neg proper]
  · have first : pageNumber 0x7fb000 = 0x7fb := by decide
    unfold stackLow at low high
    obtain ⟨f, page, _⟩ := added.new q (by omega) (by omega)
    exact ⟨f, page⟩
  · have first : pageNumber 0x7fb000 = 0x7fb := by decide
    unfold stackLow at below
    exact added.others q (by omega)

theorem loadExecutable_stack (ready : LoadReady call p s pool) (executable : call.Executable s.memory)
    {s₁ : AddressSpace} {pool₁ : Pool Word} {pages₁ : PageMap} {entry : Word}
    (same : entry = eEntry (call.header s.memory) 0)
    (ran : Returns (fun fuel => loadSegments fuel call { p with entry := entry } 0 (call.segments s.memory) s) (0, s₁))
    (loaded : Loaded call { p with entry := entry } s pool bound done s₁ pool₁ pages₁)
    (fill : RegionsFill p.headRegion call.blocks (call.segments s.memory).length bound s₁.regions)
    (low : bound ≤ stackLow) (room : 4 ≤ pool₁.free.card) :
    ∃ p' s' pool' pages', Returns (fun fuel => loadExecutable fuel call p s) (0, p', s') ∧ p'.t = p.t ∧
      Loaded call { p with entry := entry } s pool (stackLow + 4096 * 4) done s' pool' pages' ∧
      ∀ q, 4096 * q < stackLow → pages' q = pages₁ q := by
  obtain ⟨s', pool', pages', returned, stack, _, others⟩ :=
    loadExecutable_stackPages ready executable same ran loaded fill low room
  exact ⟨_, s', pool', pages', returned, rfl, stack, others⟩

/-- With segments that can be loaded below the stack, every call returns 0 and leaves them in memory. -/
theorem loadExecutable_spec (ready : LoadReady call p s pool) (executable : call.Executable s.memory)
    (order : SegmentsInOrder call stackLow (call.segments s.memory))
    (enough : framesFor (call.segments s.memory) + 4 ≤ pool.free.card)
    (loadable : ∀ phdr ∈ call.segments s.memory, Loadable phdr) :
    ∃ p' s' pool' pages', Returns (fun fuel => loadExecutable fuel call p s) (0, p', s') ∧ p'.t = p.t ∧
      Loaded call { p with entry := eEntry (call.header s.memory) 0 } s pool (stackLow + 4096 * 4)
        (call.segments s.memory) s' pool' pages' ∧
      ∀ q, (pages' q).isSome → stackLow ≤ 4096 * q ∨ ∃ phdr ∈ call.segments s.memory, Covers phdr q := by
  have started := ready.withEntry (eEntry (call.header s.memory) 0)
  have order' : SegmentsInOrder call (2 ^ 23) (call.segments s.memory) :=
    ⟨order.fits, order.ascending, fun phdr member => Nat.le_trans (order.inside phdr member) (by decide)⟩
  obtain ⟨s₁, pool₁, pages₁, ran, loaded, fill, card, only⟩ := loadSegments_spec started.start
    (call.segments s.memory) (by simpa using call.segments_few s.memory) (call.segments_load s.memory)
    started.loaded started.fill nofun order'
    (fun _ _ => Nat.zero_le _) (by omega) loadable
  have below : lastEnd 0 (call.segments s.memory) ≤ stackLow :=
    lastEnd_le (Nat.zero_le _) fun phdr member => segmentEnd_le (by decide) (order.inside phdr member)
  obtain ⟨p', s', pool', pages', returned, tables, stack, others⟩ :=
    loadExecutable_stack ready executable rfl ran loaded fill below (by omega)
  refine ⟨p', s', pool', pages', returned, tables, stack, fun q found => ?_⟩
  cases Nat.lt_or_ge (4096 * q) stackLow with
  | inl low =>
    rw [others q low] at found
    exact (only q found).imp_left fun none => absurd none Bool.false_ne_true
  | inr high => exact Or.inl high

/-- No call returns 0 for another file, or one with a segment that cannot be loaded. -/
theorem loadExecutable_fails (ready : LoadReady call p s pool)
    (order : SegmentsInOrder call (2 ^ 23) (call.segments s.memory))
    (enough : framesFor (call.segments s.memory) + 4 ≤ pool.free.card)
    (refused : ¬ call.Executable s.memory ∨ ∃ phdr ∈ call.segments s.memory, ¬ Loadable phdr) {p' : Process} :
    ¬ Returns (fun fuel => loadExecutable fuel call p s) (0, p', s') := by
  intro returned
  by_cases executable : call.Executable s.memory
  · obtain ⟨phdr, member, unloadable⟩ := refused.resolve_left fun other => other executable
    have started := ready.withEntry (eEntry (call.header s.memory) 0)
    obtain ⟨t, ran⟩ := loadSegments_fails started.start (call.segments s.memory) (call.segments_few s.memory)
      (call.segments_load s.memory) started.loaded started.fill order (by omega) fun all => unloadable (all phdr member)
    have failed : -enomem ≠ 0 := by decide
    cases returned.unique (loadExecutable_refused ready executable ran failed)
  · cases returned.unique ⟨0, fun fuel _ => loadExecutable_other ready executable fuel⟩

end RealmVm
