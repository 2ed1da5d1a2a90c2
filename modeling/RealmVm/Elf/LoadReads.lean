import RealmVm.Elf.LoadRuns
import RealmVm.Elf.StaleFrames
import RealmVm.Hypercall.Confinement

/-! What `load_executable` reads of its input: there is no check of an offset or a size. -/
namespace RealmVm

open Lib

/- The program headers, each with its distance from the start of the file. -/
def phdrTable (m : Word → Byte) : List (Word × Phdr) :=
  (List.range (ePhnum m 0).toNat).map fun i =>
    (0 + ePhoff m 0 + 56 * BitVec.ofNat 64 i, phdrAt m (0 + ePhoff m 0 + 56 * BitVec.ofNat 64 i))

/- `p_filesz`, `p_flags`, `p_vaddr`, `p_memsz` and `p_offset` -/
def phdrReads (phdr : Word) : List Access :=
  [⟨phdr + 32, 8⟩, ⟨phdr + 4, 4⟩, ⟨phdr + 16, 8⟩, ⟨phdr + 40, 8⟩, ⟨phdr + 8, 8⟩]

/- The bytes that `copy_to_user` is given. -/
def LoadCall.fileRange (call : LoadCall) (phdr : Phdr) : Access := ⟨phdr.pOffset + call.data, phdr.pFilesz.toNat⟩

/-- The reads of the loop, as far as it gets. -/
def segmentReads (fuel : Nat) (call : LoadCall) (p : Process) :
    Nat → List (Word × Phdr) → AddressSpace → List Access
  | _, [], _ => []
  | mapped, (offset, phdr) :: rest, s =>
    ⟨call.buf + offset, 4⟩ ::
      if phdr.pType = ptLoad then
        phdrReads (call.buf + offset) ++
          match sysMmapUser fuel s p.t p.headRegion call.mmapStart (call.blocks mapped) (pageDown phdr.pVaddr)
            (pageUp phdr.pMemsz) (elfPfToProt phdr.pFlags ||| protW) mapFixed with
          | none => []
          | some (address, _) =>
            if address = mapFailed ∨ address = 0 then []
            else call.fileRange phdr ::
              match loadSegment fuel call p (call.blocks mapped) phdr s with
              | none => []
              | some (_, s) => segmentReads fuel call p (mapped + 1) rest s
      else segmentReads fuel call p mapped rest s

/-- `e_type`, then `e_entry`, `e_phoff` and `e_phnum`, then the loop. -/
def loadExecutableReads (fuel : Nat) (call : LoadCall) (p : Process) (s : AddressSpace) : List Access :=
  if call.buf = 0 then []
  else if ¬ call.HasData ∧ call.count ≤ 0 then []
  else
    let hdr := call.header s.memory
    ⟨call.buf + 16, 2⟩ ::
      if ¬ (eType hdr 0 = etExec ∨ eType hdr 0 = etDyn) then []
      else [⟨call.buf + 24, 8⟩, ⟨call.buf + 32, 8⟩, ⟨call.buf + 56, 2⟩] ++
        segmentReads fuel call p 0 (phdrTable hdr) s

/-- The file, and its copy in `buf`. -/
def LoadCall.input (call : LoadCall) : Set Word :=
  Bytes.span call.data call.size.toNat ∪ Bytes.span call.buf call.size.toNat

def LoadCall.Inside (call : LoadCall) (accesses : List Access) : Prop := ∀ a ∈ accesses, a.locations ⊆ call.input

/-- Every program header is in the input, and for a PT_LOAD its bytes of the file are. -/
def LoadCall.ImageInside (call : LoadCall) (m : Memory) : Prop :=
  ∀ x ∈ phdrTable (call.header m), call.Inside [⟨call.buf + x.1, 56⟩] ∧
    (x.2.pType = ptLoad → call.Inside [call.fileRange x.2])

/-- No read leaves the input, and an image that points out of it is rejected. -/
structure StaysInside (call : LoadCall) (p : Process) (s : AddressSpace) : Prop where
  reads : ∃ k, ∀ fuel, k < fuel → call.Inside (loadExecutableReads fuel call p s)
  rejected : ¬ call.ImageInside s.memory →
    ∃ ret p' s', ret < 0 ∧ Returns (fun fuel => loadExecutable fuel call p s) (ret, p', s')

def LoadCall.TypeInside (call : LoadCall) : Prop := call.Inside [⟨call.buf + 16, 2⟩]

def LoadCall.HeaderInside (call : LoadCall) : Prop :=
  call.Inside [⟨call.buf + 24, 8⟩, ⟨call.buf + 32, 8⟩, ⟨call.buf + 56, 2⟩]

/- All reads of a turn that is not rejected. -/
def LoadCall.turnReads (call : LoadCall) (x : Word × Phdr) : List Access :=
  ⟨call.buf + x.1, 4⟩ :: if x.2.pType = ptLoad then phdrReads (call.buf + x.1) ++ [call.fileRange x.2] else []

def tableLoads (table : List (Word × Phdr)) : List Phdr := (table.filter fun x => x.2.pType = ptLoad).map Prod.snd

/-- A PT_LOAD without memory, or in page 0, stops the loop before anything outside of the input is read. -/
def LoadCall.RejectedInside (call : LoadCall) (m : Memory) (pool : Pool Word) : Prop :=
  ∃ pre x post, phdrTable (call.header m) = pre ++ x :: post ∧ (∀ y ∈ pre, call.Inside (call.turnReads y)) ∧
    call.Inside (⟨call.buf + x.1, 4⟩ :: phdrReads (call.buf + x.1)) ∧ x.2.pType = ptLoad ∧
    (∀ phdr ∈ tableLoads pre, Copyable phdr) ∧ ¬ Loadable x.2 ∧
    framesFor (tableLoads pre) + pageCount x.2.pMemsz ≤ pool.free.card

/-- The PT_LOADs are in order below the stack, or those up to the first that is rejected are. -/
def LoadCall.InOrder (call : LoadCall) (m : Memory) (pool : Pool Word) : Prop :=
  SegmentsBelow stackLow (call.segments m) ∨
    ∃ good bad more, call.segments m = good ++ bad :: more ∧ SegmentsBelow (2 ^ 23) (good ++ [bad]) ∧
      (∀ phdr ∈ good, Copyable phdr) ∧ ¬ Loadable bad ∧ framesFor good + pageCount bad.pMemsz ≤ pool.free.card

variable {call : LoadCall} {p : Process} {s s' s₁ : AddressSpace} {pool : Pool Word} {fuel n : Nat}
  {table pre post : List (Word × Phdr)} {m : Memory}

theorem LoadCall.inside_append {first later : List Access} :
    call.Inside (first ++ later) ↔ call.Inside first ∧ call.Inside later :=
  List.forall_mem_append

theorem LoadCall.inside_cons {a : Access} {later : List Access} :
    call.Inside (a :: later) ↔ a.locations ⊆ call.input ∧ call.Inside later :=
  List.forall_mem_cons

theorem LoadCall.inside_nil : call.Inside [] := List.forall_mem_nil _

theorem LoadCall.inside_buf {i k : Nat} (fits : i + k ≤ call.size.toNat) :
    (⟨call.buf + BitVec.ofNat 64 i, k⟩ : Access).locations ⊆ call.input :=
  (Bytes.span_part call.buf fits (Nat.le_of_lt call.size.isLt)).trans Set.subset_union_right

theorem LoadCall.inside_data {i k : Nat} (fits : i + k ≤ call.size.toNat) :
    (⟨call.data + BitVec.ofNat 64 i, k⟩ : Access).locations ⊆ call.input :=
  (Bytes.span_part call.data fits (Nat.le_of_lt call.size.isLt)).trans Set.subset_union_left

theorem LoadCall.inside_turns :
    call.Inside (table.flatMap call.turnReads) ↔ ∀ y ∈ table, call.Inside (call.turnReads y) := by
  unfold LoadCall.Inside
  simp only [List.mem_flatMap, forall_exists_index, and_imp]
  constructor
  · intro all y member a read
    exact all a y member read
  · intro all a y member read
    exact all y member a read

/-- The segments are those of the table. -/
theorem segments_table (call : LoadCall) (m : Memory) : call.segments m = tableLoads (phdrTable (call.header m)) := by
  rw [LoadCall.segments, loads, phdrs, tableLoads, phdrTable, List.filter_map, List.filter_map, List.map_map]
  rfl

theorem tableLoads_append (first later : List (Word × Phdr)) :
    tableLoads (first ++ later) = tableLoads first ++ tableLoads later := by
  rw [tableLoads, List.filter_append, List.map_append]
  rfl

theorem tableLoads_load {x : Word × Phdr} (isLoad : x.2.pType = ptLoad) (later : List (Word × Phdr)) :
    tableLoads (x :: later) = x.2 :: tableLoads later := by
  rw [tableLoads, List.filter_cons_of_pos (by simpa using isLoad), List.map_cons]
  rfl

theorem tableLoads_other {x : Word × Phdr} (other : x.2.pType ≠ ptLoad) (later : List (Word × Phdr)) :
    tableLoads (x :: later) = tableLoads later := by
  rw [tableLoads, List.filter_cons_of_neg (by simpa using other)]
  rfl

/-- Whatever the turns do, the loop reads nothing but the members of its headers and their bytes of the file. -/
theorem segmentReads_inside (inside : call.Inside (table.flatMap call.turnReads)) :
    call.Inside (segmentReads fuel call p n table s) := by
  induction table generalizing n s with
  | nil => exact LoadCall.inside_nil
  | cons x rest ih =>
    obtain ⟨offset, phdr⟩ := x
    rw [List.flatMap_cons, LoadCall.inside_append, LoadCall.turnReads, LoadCall.inside_cons] at inside
    obtain ⟨⟨type, turn⟩, later⟩ := inside
    rw [segmentReads]
    refine LoadCall.inside_cons.mpr ⟨type, ?_⟩
    by_cases isLoad : phdr.pType = ptLoad
    · rw [if_pos isLoad] at turn ⊢
      obtain ⟨members, range⟩ := LoadCall.inside_append.mp turn
      refine LoadCall.inside_append.mpr ⟨members, ?_⟩
      cases sysMmapUser fuel s p.t p.headRegion call.mmapStart (call.blocks n) (pageDown phdr.pVaddr)
        (pageUp phdr.pMemsz) (elfPfToProt phdr.pFlags ||| protW) mapFixed with
      | none => exact LoadCall.inside_nil
      | some out =>
        simp only
        by_cases refused : out.1 = mapFailed ∨ out.1 = 0
        · rw [if_pos refused]
          exact LoadCall.inside_nil
        · rw [if_neg refused]
          refine LoadCall.inside_cons.mpr ⟨(LoadCall.inside_cons.mp range).1, ?_⟩
          cases loadSegment fuel call p (call.blocks n) phdr s with
          | none => exact LoadCall.inside_nil
          | some after => exact ih later
    · rw [if_neg isLoad]
      exact ih later

/-- A turn ends with an error only when its `mmap` is refused. -/
theorem loadSegment_some {block : Word} {phdr : Phdr} {ret : Int}
    (ran : loadSegment fuel call p block phdr s = some (ret, s')) :
    ∃ address t, sysMmapUser fuel s p.t p.headRegion call.mmapStart block (pageDown phdr.pVaddr) (pageUp phdr.pMemsz)
        (elfPfToProt phdr.pFlags ||| protW) mapFixed = some (address, t) ∧
      (ret = 0 ↔ ¬ (address = mapFailed ∨ address = 0)) := by
  have nonzero : -enomem ≠ 0 := by decide
  cases mapping : sysMmapUser fuel s p.t p.headRegion call.mmapStart block (pageDown phdr.pVaddr) (pageUp phdr.pMemsz)
      (elfPfToProt phdr.pFlags ||| protW) mapFixed with
  | none =>
    simp only [loadSegment, mapping] at ran
    cases ran
  | some out =>
    obtain ⟨address, t⟩ := out
    refine ⟨address, t, rfl, ?_⟩
    simp only [loadSegment, mapping] at ran
    by_cases refused : address = mapFailed ∨ address = 0
    · rw [if_pos refused] at ran
      obtain ⟨rfl, _⟩ := Prod.mk.inj (Option.some.inj ran)
      exact iff_of_false nonzero fun accepted => accepted refused
    · rw [if_neg refused] at ran
      refine iff_of_true ?_ refused
      cases copied : t.memory.copyToUser p.t.pgd call.ttbr1 (pageDown phdr.pVaddr) (phdr.pOffset + call.data)
          phdr.pFilesz with
      | none =>
        rw [copied] at ran
        cases ran
      | some after =>
        simp only [copied] at ran
        cases remapped : pageTableMapUser after.2 p.t address
            (getPhysicalAddress ⟨Mmu.parEl1 ⟨after.2.word, p.t.pgd, call.ttbr1⟩ call.attributes, 0⟩ address)
            (elfPfToProt phdr.pFlags) with
        | none =>
          rw [remapped] at ran
          cases ran
        | some last =>
          rw [remapped] at ran
          exact (Prod.mk.inj (Option.some.inj ran)).1.symm

/-- The turns that the loop gets through make all their reads. -/
theorem segmentReads_append (later : List (Word × Phdr))
    (ran : loadSegments fuel call p n (tableLoads pre) s = some (0, s₁)) :
    segmentReads fuel call p n (pre ++ later) s =
      pre.flatMap call.turnReads ++ segmentReads fuel call p (n + (tableLoads pre).length) later s₁ := by
  induction pre generalizing n s with
  | nil =>
    obtain rfl := (Prod.mk.inj (Option.some.inj ran)).2
    rfl
  | cons x rest ih =>
    obtain ⟨offset, phdr⟩ := x
    rw [List.cons_append, segmentReads, List.flatMap_cons, LoadCall.turnReads]
    by_cases isLoad : phdr.pType = ptLoad
    · rw [tableLoads_load isLoad] at ran ⊢
      simp only [loadSegments, if_pos isLoad] at ran
      cases turn : loadSegment fuel call p (call.blocks n) phdr s with
      | none =>
        rw [turn] at ran
        cases ran
      | some out =>
        obtain ⟨ret, t⟩ := out
        obtain ⟨address, u, mapping, result⟩ := loadSegment_some turn
        have zero : ret = 0 := by
          by_contra failed
          simp only [turn, if_pos failed] at ran
          exact failed (Prod.mk.inj (Option.some.inj ran)).1
        subst zero
        have accepted := result.mp rfl
        simp only [turn, ne_eq, not_true_eq_false, if_false] at ran
        have count : n + 1 + (tableLoads rest).length = n + ((tableLoads rest).length + 1) := by omega
        simp only [if_pos isLoad, mapping, if_neg accepted, ih ran, List.length_cons, count, List.cons_append,
          List.append_assoc, List.nil_append]
    · rw [tableLoads_other isLoad] at ran ⊢
      simp only [if_neg isLoad, ih ran, List.cons_append, List.nil_append]

/-- A turn that is rejected reads the members of its header, and is the last. -/
theorem segmentReads_rejected {x : Word × Phdr} (isLoad : x.2.pType = ptLoad) {ret : Int} (failed : ret ≠ 0)
    (turn : loadSegment fuel call p (call.blocks n) x.2 s = some (ret, s')) :
    segmentReads fuel call p n (x :: post) s = ⟨call.buf + x.1, 4⟩ :: phdrReads (call.buf + x.1) := by
  obtain ⟨address, t, mapping, result⟩ := loadSegment_some turn
  have refused : address = mapFailed ∨ address = 0 := by
    by_contra accepted
    exact failed (result.mpr accepted)
  simp only [segmentReads, if_pos isLoad, mapping, if_pos refused, List.append_nil]

/-- A header that is in the input with all its members. -/
theorem phdr_inside {offset : Word} (inside : call.Inside [⟨call.buf + offset, 56⟩]) :
    call.Inside (⟨call.buf + offset, 4⟩ :: phdrReads (call.buf + offset)) := by
  have whole := (LoadCall.inside_cons.mp inside).1
  have part (i k : Nat) (short : i + k ≤ 56) :
      (⟨call.buf + offset + BitVec.ofNat 64 i, k⟩ : Access).locations ⊆ call.input :=
    (Bytes.span_part (call.buf + offset) short (by decide)).trans whole
  have first : (⟨call.buf + offset, 4⟩ : Access).locations ⊆ call.input :=
    (Bytes.span_mono (call.buf + offset) (by decide : 4 ≤ 56)).trans whole
  intro a member
  simp only [phdrReads, List.mem_cons, List.not_mem_nil, or_false] at member
  rcases member with rfl | rfl | rfl | rfl | rfl | rfl
  · exact first
  · exact part 32 8 (by decide)
  · exact part 4 4 (by decide)
  · exact part 16 8 (by decide)
  · exact part 40 8 (by decide)
  · exact part 8 8 (by decide)

theorem LoadCall.ImageInside.turns (inside : call.ImageInside m) :
    call.Inside ((phdrTable (call.header m)).flatMap call.turnReads) := by
  refine LoadCall.inside_turns.mpr fun x member => ?_
  obtain ⟨header, range⟩ := inside x member
  obtain ⟨type, members⟩ := LoadCall.inside_cons.mp (phdr_inside header)
  refine LoadCall.inside_cons.mpr ⟨type, ?_⟩
  by_cases isLoad : x.2.pType = ptLoad
  · rw [if_pos isLoad]
    exact LoadCall.inside_append.mpr ⟨members, range isLoad⟩
  · rw [if_neg isLoad]
    exact LoadCall.inside_nil

/-- The segment in front of which the loop has read nothing but `pre`, found in the table. -/
theorem tableLoads_split {good more : List Phdr} {bad : Phdr} (split : tableLoads table = good ++ bad :: more) :
    ∃ pre x post, table = pre ++ x :: post ∧ tableLoads pre = good ∧ x.2 = bad ∧ x.2.pType = ptLoad := by
  induction table generalizing good with
  | nil => exact absurd (List.append_eq_nil_iff.mp split.symm).2 (List.cons_ne_nil _ _)
  | cons x rest ih =>
    by_cases isLoad : x.2.pType = ptLoad
    · rw [tableLoads_load isLoad] at split
      cases good with
      | nil => exact ⟨[], x, rest, rfl, rfl, (List.cons.inj split).1, isLoad⟩
      | cons first good =>
        obtain ⟨same, split⟩ := List.cons.inj split
        obtain ⟨pre, y, post, rfl, loads, last⟩ := ih split
        refine ⟨x :: pre, y, post, rfl, ?_, last⟩
        rw [tableLoads_load isLoad, loads, same]
    · rw [tableLoads_other isLoad] at split
      obtain ⟨pre, y, post, rfl, loads, last⟩ := ih split
      refine ⟨x :: pre, y, post, rfl, ?_, last⟩
      rw [tableLoads_other isLoad, loads]

/-- The reads of a loop that is left at `x`. -/
theorem segmentReads_stopped (ready : LoadReady call p s pool) {x : Word × Phdr}
    (split : phdrTable (call.header s.memory) = pre ++ x :: post) (isLoad : x.2.pType = ptLoad)
    (below : SegmentsBelow (2 ^ 23) (tableLoads pre ++ [x.2]))
    (copyable : ∀ phdr ∈ tableLoads pre, Copyable phdr) (refused : ¬ Loadable x.2)
    (room : framesFor (tableLoads pre) + pageCount x.2.pMemsz ≤ pool.free.card) :
    ∃ k, ∀ fuel, k < fuel → segmentReads fuel call p 0 (phdrTable (call.header s.memory)) s =
      pre.flatMap call.turnReads ++ ⟨call.buf + x.1, 4⟩ :: phdrReads (call.buf + x.1) := by
  have segments : call.segments s.memory = tableLoads pre ++ x.2 :: tableLoads post := by
    rw [segments_table, split, tableLoads_append, tableLoads_load isLoad]
  obtain ⟨s₁, s₂, ⟨k, ran⟩, ⟨k', rejected⟩⟩ := loadSegments_rejects ready segments below copyable refused room
  have negative : -enomem ≠ 0 := by decide
  refine ⟨k + k', fun fuel more => ?_⟩
  have turn := rejected fuel (by omega)
  rw [split, segmentReads_append _ (ran fuel (by omega)), Nat.zero_add, segmentReads_rejected isLoad negative turn]

/-- There is only one first segment that cannot be loaded. -/
theorem first_rejected {good good' more more' : List Phdr} {bad bad' : Phdr} (copyable : ∀ phdr ∈ good, Copyable phdr)
    (copyable' : ∀ phdr ∈ good', Copyable phdr) (refused : ¬ Loadable bad) (refused' : ¬ Loadable bad')
    (same : good ++ bad :: more = good' ++ bad' :: more') : good' = good ∧ bad' = bad := by
  have front {good : List Phdr} (more : List Phdr) {bad : Phdr} (copyable : ∀ phdr ∈ good, Copyable phdr)
      (refused : ¬ Loadable bad) : (good ++ bad :: more).takeWhile (fun phdr => decide (Loadable phdr)) = good := by
    rw [List.takeWhile_append_of_pos fun phdr member => decide_eq_true (copyable phdr member).1,
      List.takeWhile_cons_of_neg (by simpa using refused), List.append_nil]
  have fronts := front more' copyable' refused'
  rw [← same, front more copyable refused] at fronts
  subst fronts
  exact ⟨rfl, (List.cons.inj (List.append_cancel_left same)).1.symm⟩

/-- Up to the segment that is rejected the order holds. -/
theorem LoadCall.InOrder.front (order : call.InOrder m pool) {good more : List Phdr} {bad : Phdr}
    (split : call.segments m = good ++ bad :: more) (copyable : ∀ phdr ∈ good, Copyable phdr)
    (refused : ¬ Loadable bad) : SegmentsBelow (2 ^ 23) (good ++ [bad]) := by
  cases order with
  | inl below =>
    have whole := below.mono
    rw [split] at whole
    exact whole.front
  | inr rejected =>
    obtain ⟨good', bad', more', split', below, copyable', refused', _⟩ := rejected
    obtain ⟨rfl, rfl⟩ := first_rejected copyable copyable' refused refused' (split.symm.trans split')
    exact below

section Reads

/-- The reads of a call that has something in its buffer. -/
theorem loadExecutableReads_eq (buffer : ¬ call.buf = 0) (read : ¬ (¬ call.HasData ∧ call.count ≤ 0)) (fuel : Nat) :
    loadExecutableReads fuel call p s = ⟨call.buf + 16, 2⟩ ::
      if ¬ (eType (call.header s.memory) 0 = etExec ∨ eType (call.header s.memory) 0 = etDyn) then []
      else [⟨call.buf + 24, 8⟩, ⟨call.buf + 32, 8⟩, ⟨call.buf + 56, 2⟩] ++
        segmentReads fuel call p 0 (phdrTable (call.header s.memory)) s := by
  rw [loadExecutableReads, if_neg buffer, if_neg read]

/-- Without a buffer, and for a file of another type, the call fails before it has read more than `e_type`; otherwise
it is enough that all that the program headers point to is in the input. -/
theorem staysInside_of_imageInside (inside : call.buf = 0 ∨ call.TypeInside ∧
    (¬ call.Executable s.memory ∨ call.HeaderInside ∧ call.ImageInside s.memory)) : StaysInside call p s := by
  by_cases noBuffer : call.buf = 0
  · constructor
    · refine ⟨0, fun fuel _ => ?_⟩
      rw [loadExecutableReads, if_pos noBuffer]
      exact LoadCall.inside_nil
    · refine fun _ => ⟨-enomem, p, s, by decide, 0, fun fuel _ => ?_⟩
      simp only [loadExecutable, if_pos noBuffer]
  obtain ⟨type, rest⟩ := inside.resolve_left noBuffer
  by_cases unread : ¬ call.HasData ∧ call.count ≤ 0
  · constructor
    · refine ⟨0, fun fuel _ => ?_⟩
      rw [loadExecutableReads, if_neg noBuffer, if_pos unread]
      exact LoadCall.inside_nil
    · refine fun _ => ⟨-enoexec, p, s, by decide, 0, fun fuel _ => ?_⟩
      simp only [loadExecutable, if_neg noBuffer, if_pos unread]
  cases rest with
  | inl other =>
    have refused : ¬ (eType (call.header s.memory) 0 = etExec ∨ eType (call.header s.memory) 0 = etDyn) := other
    constructor
    · refine ⟨0, fun fuel _ => ?_⟩
      rw [loadExecutableReads_eq noBuffer unread, if_pos refused]
      exact type
    · refine fun _ => ⟨-enoexec, p, s, by decide, 0, fun fuel _ => ?_⟩
      simp only [loadExecutable, if_neg noBuffer, if_neg unread, if_pos refused]
  | inr image =>
    obtain ⟨header, image⟩ := image
    refine ⟨⟨0, fun fuel _ => ?_⟩, fun outside => absurd image outside⟩
    rw [loadExecutableReads_eq noBuffer unread]
    refine LoadCall.inside_cons.mpr ⟨(LoadCall.inside_cons.mp type).1, ?_⟩
    by_cases refused : ¬ (eType (call.header s.memory) 0 = etExec ∨ eType (call.header s.memory) 0 = etDyn)
    · rw [if_pos refused]
      exact LoadCall.inside_nil
    · rw [if_neg refused]
      exact LoadCall.inside_append.mpr ⟨header, segmentReads_inside image.turns⟩

theorem staysInside_of_rejectedInside (ready : LoadReady call p s pool) (order : call.InOrder s.memory pool)
    (type : call.TypeInside) (header : call.HeaderInside) (executable : call.Executable s.memory)
    (inside : call.RejectedInside s.memory pool) : StaysInside call p s := by
  obtain ⟨pre, x, post, table, turns, last, isLoad, copyable, refused, room⟩ := inside
  have split : call.segments s.memory = tableLoads pre ++ x.2 :: tableLoads post := by
    rw [segments_table, table, tableLoads_append, tableLoads_load isLoad]
  have below := order.front split copyable refused
  constructor
  · obtain ⟨k, reads⟩ := segmentReads_stopped ready table isLoad below copyable refused room
    have accepted : ¬ ¬ (eType (call.header s.memory) 0 = etExec ∨ eType (call.header s.memory) 0 = etDyn) :=
      fun other => other executable
    refine ⟨k, fun fuel more => ?_⟩
    rw [loadExecutableReads_eq ready.buffer ready.read, if_neg accepted, reads fuel more]
    exact LoadCall.inside_cons.mpr ⟨(LoadCall.inside_cons.mp type).1,
      LoadCall.inside_append.mpr ⟨header, LoadCall.inside_append.mpr ⟨LoadCall.inside_turns.mpr turns, last⟩⟩⟩
  · intro _
    obtain ⟨p', s', returned⟩ := loadExecutable_rejects ready executable split below copyable refused room
    exact ⟨-enomem, p', s', by decide, returned⟩

/-- A call that fails has a segment that is rejected, with those up to it in order. -/
theorem LoadCall.InOrder.rejects (ready : LoadReady call p s pool) (order : call.InOrder s.memory pool)
    (executable : call.Executable s.memory) {ret : Int} {p' : Process} (negative : ret < 0)
    (returned : Returns (fun fuel => loadExecutable fuel call p s) (ret, p', s')) : call.Rejects s.memory pool := by
  cases order with
  | inl below =>
    have failed : ¬ call.Loads s.memory pool := by
      intro loads
      obtain ⟨_, _, zero⟩ := loadExecutable_loads ready below loads
      have same := (Prod.mk.inj (returned.unique zero)).1
      omega
    by_contra other
    exact returned.not_none (loadExecutable_crash ready executable below failed other)
  | inr rejected =>
    obtain ⟨good, bad, more, split, _, copyable, refused, room⟩ := rejected
    exact ⟨good, bad, more, split, copyable, refused, room⟩

theorem inside_of_staysInside (ready : LoadReady call p s pool) (order : call.InOrder s.memory pool) (stays : StaysInside call p s) : call.TypeInside ∧
      (¬ call.Executable s.memory ∨ call.HeaderInside ∧
        (call.ImageInside s.memory ∨ call.RejectedInside s.memory pool)) := by
  obtain ⟨⟨k, reads⟩, rejected⟩ := stays
  have all (fuel : Nat) (more : k < fuel) :=
    loadExecutableReads_eq (p := p) ready.buffer ready.read fuel ▸ reads fuel more
  have type : call.TypeInside :=
    LoadCall.inside_cons.mpr ⟨(LoadCall.inside_cons.mp (all (k + 1) (by omega))).1, LoadCall.inside_nil⟩
  refine ⟨type, ?_⟩
  by_cases executable : call.Executable s.memory
  · right
    have accepted : ¬ ¬ (eType (call.header s.memory) 0 = etExec ∨ eType (call.header s.memory) 0 = etDyn) :=
      fun other => other executable
    have loop (fuel : Nat) (more : k < fuel) : call.HeaderInside ∧
        call.Inside (segmentReads fuel call p 0 (phdrTable (call.header s.memory)) s) := by
      have here := (LoadCall.inside_cons.mp (all fuel more)).2
      rw [if_neg accepted] at here
      exact LoadCall.inside_append.mp here
    refine ⟨(loop (k + 1) (by omega)).1, ?_⟩
    by_cases image : call.ImageInside s.memory
    · exact .inl image
    · right
      obtain ⟨ret, p', s', negative, returned⟩ := rejected image
      -- the call returned, and not 0: one of the segments was rejected
      obtain ⟨good, bad, more, split, copyable, refused, room⟩ := order.rejects ready executable negative returned
      have below := order.front split copyable refused
      rw [segments_table] at split
      obtain ⟨pre, x, post, table, rfl, rfl, isLoad⟩ := tableLoads_split split
      obtain ⟨k', stopped⟩ := segmentReads_stopped ready table isLoad below copyable refused room
      have inside := (loop (k + k' + 1) (by omega)).2
      rw [stopped (k + k' + 1) (by omega)] at inside
      obtain ⟨turns, last⟩ := LoadCall.inside_append.mp inside
      exact ⟨pre, x, post, table, LoadCall.inside_turns.mp turns, last, isLoad, copyable, refused, room⟩
  · exact .inl executable

end Reads

/-- The loader stays in its input when the headers of the file say nothing else; with segments in order below the
stack, or up to the first that is rejected, only then, or if that segment stops it in time. -/
theorem loader_stays_inside (call : LoadCall) (p : Process) (s : AddressSpace) (pool : Pool Word) :
    ((call.buf = 0 ∨ call.TypeInside ∧
      (¬ call.Executable s.memory ∨ call.HeaderInside ∧ call.ImageInside s.memory)) → StaysInside call p s) ∧
    (LoadReady call p s pool → call.InOrder s.memory pool →
      (StaysInside call p s ↔ call.TypeInside ∧ (¬ call.Executable s.memory ∨ call.HeaderInside ∧
        (call.ImageInside s.memory ∨ call.RejectedInside s.memory pool)))) := by
  refine ⟨staysInside_of_imageInside, fun ready order => ⟨inside_of_staysInside ready order, ?_⟩⟩
  rintro ⟨type, other | ⟨header, image | rejected⟩⟩
  · exact staysInside_of_imageInside (.inr ⟨type, .inl other⟩)
  · exact staysInside_of_imageInside (.inr ⟨type, .inr ⟨header, image⟩⟩)
  · by_cases executable : call.Executable s.memory
    · exact staysInside_of_rejectedInside ready order type header executable rejected
    · exact staysInside_of_imageInside (.inr ⟨type, .inl executable⟩)

/- A file of 128 bytes with eight of its bytes at 0x1000, for `memsz` bytes of memory. -/
def farFile (memsz : Word) : List Word :=
  [0x00010102464C457F, 0, 0x0000000100B70002, 0x1000, 0x40, 0, 0x0038004000000000, 1,
    0x600000001, 0x1000, 0x1000, 0, 8, memsz, 8, 0]

def farSpace (memsz : Word) : AddressSpace := fileSpace (farFile memsz)

def farSegment (memsz : Word) : Phdr := ⟨1, 6, 0x1000, 0x1000, 8, memsz, 8⟩

theorem farFile_segments : smallLoad.segments (farSpace 8).memory = [farSegment 8] ∧
    smallLoad.segments (farSpace 0).memory = [farSegment 0] := by
  decide +kernel

theorem farFile_table : phdrTable (smallLoad.header (farSpace 8).memory) = [(0x40, farSegment 8)] ∧
    phdrTable (smallLoad.header (farSpace 0).memory) = [(0x40, farSegment 0)] := by
  decide +kernel

theorem farSegment_below (memsz : Word) (small : memsz ≤ 8) : SegmentsBelow stackLow [farSegment memsz] := by
  refine ⟨List.pairwise_singleton .., List.forall_mem_singleton.mpr ?_⟩
  have start : (farSegment memsz).pVaddr.toNat = 0x1000 := rfl
  have size : (farSegment memsz).pMemsz = memsz := rfl
  unfold stackLow
  rw [start, size]
  bv_omega

theorem smallLoad_buf {i k : Nat} (fits : i + k ≤ 0x80) : smallLoad.Inside [⟨0x900000 + BitVec.ofNat 64 i, k⟩] :=
  LoadCall.inside_cons.mpr ⟨smallLoad.inside_buf fits, LoadCall.inside_nil⟩

theorem smallLoad_header : smallLoad.TypeInside ∧ smallLoad.HeaderInside := by
  refine ⟨smallLoad_buf (by decide : 16 + 2 ≤ 0x80), ?_⟩
  have entry := smallLoad_buf (by decide : 24 + 8 ≤ 0x80)
  have phoff := smallLoad_buf (by decide : 32 + 8 ≤ 0x80)
  have phnum := smallLoad_buf (by decide : 56 + 2 ≤ 0x80)
  exact LoadCall.inside_append.mpr ⟨entry, LoadCall.inside_append.mpr ⟨phoff, phnum⟩⟩

/-- The small file is read inside; and the far one too, when it has no memory and is rejected. -/
theorem loader_stays_inside_small : StaysInside smallLoad smallProcess (smallSpace 8) ∧
    StaysInside smallLoad smallProcess (farSpace 0) := by
  have phdr := smallLoad_buf (by decide : 0x40 + 56 ≤ 0x80)
  constructor
  · have table : phdrTable (smallLoad.header (smallSpace 8).memory) = [(0x40, smallSegment 8)] := by
      decide +kernel
    have range : (smallLoad.fileRange (smallSegment 8)).locations ⊆ smallLoad.input := by
      have base : smallLoad.fileRange (smallSegment 8) = ⟨smallLoad.data + BitVec.ofNat 64 0x78, 8⟩ :=
        congrArg₂ Access.mk (by decide) rfl
      rw [base]
      exact smallLoad.inside_data (by decide)
    have image : smallLoad.ImageInside (smallSpace 8).memory := by
      rw [LoadCall.ImageInside, table]
      exact List.forall_mem_singleton.mpr ⟨phdr, fun _ => LoadCall.inside_cons.mpr ⟨range, LoadCall.inside_nil⟩⟩
    exact (loader_stays_inside smallLoad smallProcess (smallSpace 8) smallPool).1
      (.inr ⟨smallLoad_header.1, .inr ⟨smallLoad_header.2, image⟩⟩)
  · have below := farSegment_below 0 (by decide)
    rw [← farFile_segments.2] at below
    have noFrames : framesFor [] + pageCount 0 = 0 := by decide
    have unloadable : ¬ Loadable (farSegment 0) := by decide
    have rejected : smallLoad.RejectedInside (farSpace 0).memory smallPool := by
      refine ⟨[], (0x40, farSegment 0), [], farFile_table.2, List.forall_mem_nil _,
        phdr_inside phdr, rfl, List.forall_mem_nil _, unloadable, ?_⟩
      exact Nat.le_trans (Nat.le_of_eq noFrames) (Nat.zero_le _)
    exact ((loader_stays_inside smallLoad smallProcess (farSpace 0) smallPool).2
      (fileSpace_ready (farFile 0)) (.inl below)).mpr
      ⟨smallLoad_header.1, .inr ⟨smallLoad_header.2, .inr rejected⟩⟩

/-- The far file is loaded, with bytes that are not its own. -/
theorem bytes_behind_file : LoadReady smallLoad smallProcess (farSpace 8) smallPool ∧
    SegmentsBelow stackLow (smallLoad.segments (farSpace 8).memory) ∧
    (∃ p' s', Returns (fun fuel => loadExecutable fuel smallLoad smallProcess (farSpace 8)) (0, p', s')) ∧
    ¬ smallLoad.ImageInside (farSpace 8).memory ∧ ¬ StaysInside smallLoad smallProcess (farSpace 8) := by
  have segments := farFile_segments.1
  have below := farSegment_below 8 (by decide)
  rw [← segments] at below
  have loads : smallLoad.Loads (farSpace 8).memory smallPool := by
    refine ⟨by decide +kernel, ?_, ?_⟩
    · rw [segments]
      exact List.forall_mem_singleton.mpr ⟨by decide, by decide⟩
    · have one : framesFor [farSegment 8] = 1 := by decide
      rw [segments, one, smallPool_card]
      decide
  have returned := loadExecutable_loads (fileSpace_ready (farFile 8)) below loads
  have outside : ¬ smallLoad.ImageInside (farSpace 8).memory := by
    intro inside
    rw [LoadCall.ImageInside, farFile_table.1] at inside
    have range := (LoadCall.inside_cons.mp ((List.forall_mem_singleton.mp inside).2 rfl)).1
    have byte : (0x801000 : Word) ∈ (smallLoad.fileRange (farSegment 8)).locations := by
      show (0x801000 - 0x801000 : Word).toNat < 8
      decide
    cases range byte with
    | inl data => exact absurd data (by decide : ¬ (0x801000 - 0x800000 : Word).toNat < 0x80)
    | inr copy => exact absurd copy (by decide : ¬ (0x801000 - 0x900000 : Word).toNat < 0x80)
  refine ⟨fileSpace_ready (farFile 8), below, returned, outside, fun stays => ?_⟩
  obtain ⟨p', s', zero⟩ := returned
  obtain ⟨ret, q', t', negative, refused⟩ := stays.rejected outside
  have same := (Prod.mk.inj (zero.unique refused)).1
  omega

end RealmVm
