import RealmVm.Elf.LoadExecutable
import RealmVm.Heap.Kmalloc

/-! `load_executable` where the kernel heap gives its blocks. -/
namespace RealmVm

open Lib

def sizeofMemRegion : Word := 56
def sizeofKernelStruct : Word := 624

/- Whether the functions below come to their `kcalloc`. -/
def kernelVmaAsks (fuel : Nat) (regions : Regions) (regionHead pageCount : Word) : Bool :=
  if (regions regionHead).isMapped = 0 then true
  else
    match searchMmapRegion fuel regions regionHead (pageCount * pageSize4KB) with
    | none => false
    | some target => target ≠ 0 ∧ target ≠ mapFailed

def genericMmapAsks (fuel : Nat) (regions : Regions) (head address size : Word) (flags : CInt) : Bool :=
  if size = 0 ∨ head = 0 ∨ (regions head).isMapped = 0 then false
  else if flags &&& mapFixed ≠ 0 then
    match searchMmapRegionFixed fuel regions head address (pageUp size) with
    | none => false
    | some search => search ≠ mapFailed
  else (searchMmapRegion fuel regions head (pageUp size)).isSome

/-- A block for a region, when one is asked for: `kernel_vma_alloc` asks for a `mem_region_t`, and `generic_mmap` for a
whole `struct kernel_struct`. -/
def regionBlock (fuel : Nat) (size : Word) (asks : Bool) (heap : HeapHistory) : Option (Word × HeapHistory) :=
  if asks then kcalloc fuel heap size 1 else some (0, heap)

/- `load_executable`, whose blocks come from the heap. -/
def loadSegmentsOn (fuel : Nat) (call : LoadCall) (p : Process) :
    List Phdr → HeapHistory → AddressSpace → Option (Int × HeapHistory × AddressSpace)
  | [], heap, s => some (0, heap, s)
  | phdr :: rest, heap, s =>
    if phdr.pType = ptLoad then
      let asks := genericMmapAsks fuel s.regions p.headRegion (pageDown phdr.pVaddr) (pageUp phdr.pMemsz) mapFixed
      match regionBlock fuel sizeofKernelStruct asks heap with
      | none => none
      | some (block, heap) =>
        match loadSegment fuel call p block phdr s with
        | none => none
        | some (ret, s) => if ret ≠ 0 then some (ret, heap, s) else loadSegmentsOn fuel call p rest heap s
    else loadSegmentsOn fuel call p rest heap s

/- From the check of `buf` on. -/
def loadImageOn (fuel : Nat) (call : LoadCall) (p : Process) (heap : HeapHistory) (s : AddressSpace) :
    Option (Int × Process × HeapHistory × AddressSpace) :=
  if call.buf = 0 then some (-enomem, p, heap, s)
  else if ¬ call.HasData ∧ call.count ≤ 0 then some (-enoexec, p, heap, s)
  else
    let hdr := call.header s.memory
    if ¬ (eType hdr 0 = etExec ∨ eType hdr 0 = etDyn) then some (-enoexec, p, heap, s)
    else
      let p := { p with entry := eEntry hdr 0 }
      match loadSegmentsOn fuel call p (phdrs hdr 0) heap s with
      | none => none
      | some (ret, heap, s) =>
        if ret ≠ 0 then some (ret, p, heap, s)
        else
          let p := { p with stackBase := 0x7ff000, stackSize := 0x4000 }
          let asks := genericMmapAsks fuel s.regions p.headRegion (p.stackBase - p.stackSize) p.stackSize mapFixed
          match regionBlock fuel sizeofKernelStruct asks heap with
          | none => none
          | some (block, heap) =>
            match sysMmapUser fuel s p.t p.headRegion call.mmapStart block (p.stackBase - p.stackSize) p.stackSize
              protRw mapFixed with
            | none => none
            | some (address, s) => if address = 0 then some (-enomem, p, heap, s) else some (0, p, heap, s)

def loadExecutableOn (fuel : Nat) (call : LoadCall) (p : Process) (heap : HeapHistory) (s : AddressSpace) :
    Option (Int × Process × HeapHistory × AddressSpace) :=
  match kmalloc fuel heap 0x2000 with
  | none => none
  | some (buf, heap) => loadImageOn fuel { call with buf := buf } p heap s

variable {fuel : Nat} {call : LoadCall} {p p' : Process} {heap heap' : HeapHistory} {s s' : AddressSpace} {ret : Int}

theorem regionBlock_suffix {size : Word} {asks : Bool} {block : Word}
    (returned : regionBlock fuel size asks heap = some (block, heap')) :
    heap.live <:+ heap'.live := by
  unfold regionBlock at returned
  split at returned
  · exact kcalloc_suffix returned
  · cases returned
    exact List.suffix_rfl

theorem loadSegmentsOn_suffix {phdrs : List Phdr}
    (returned : loadSegmentsOn fuel call p phdrs heap s = some (ret, heap', s')) : heap.live <:+ heap'.live := by
  induction phdrs generalizing heap s with
  | nil =>
    cases returned
    exact List.suffix_rfl
  | cons phdr rest ih =>
    simp only [loadSegmentsOn] at returned
    split at returned
    · split at returned
      · cases returned
      · rename_i block after taken
        have here := regionBlock_suffix taken
        split at returned
        · cases returned
        · split at returned
          · cases returned
            exact here
          · exact here.trans (ih returned)
    · exact ih returned

theorem loadImageOn_suffix (returned : loadImageOn fuel call p heap s = some (ret, p', heap', s')) :
    heap.live <:+ heap'.live := by
  simp only [loadImageOn] at returned
  split at returned
  · cases returned
    exact List.suffix_rfl
  · split at returned
    · cases returned
      exact List.suffix_rfl
    · split at returned
      · cases returned
        exact List.suffix_rfl
      · split at returned
        · cases returned
        · rename_i ran
          have loop := loadSegmentsOn_suffix ran
          split at returned
          · cases returned
            exact loop
          · split at returned
            · cases returned
            · rename_i taken
              have stack := loop.trans (regionBlock_suffix taken)
              split at returned
              · cases returned
              · split at returned
                · cases returned
                  exact stack
                · cases returned
                  exact stack

/-- No block that `load_executable` takes is given back, whether it succeeds or fails. -/
theorem loadExecutableOn_suffix (returned : loadExecutableOn fuel call p heap s = some (ret, p', heap', s')) :
    heap.live <:+ heap'.live := by
  unfold loadExecutableOn at returned
  split at returned
  · cases returned
  · rename_i buf after allocated
    exact (kmalloc_suffix allocated).trans (loadImageOn_suffix returned)

/-- The loop looks at one block for each PT_LOAD, from the number of regions asked for on. -/
theorem loadSegments_congr (call : LoadCall) (blocks : Nat → Word) {mapped : Nat} (phdrs : List Phdr)
    (same : ∀ i, mapped ≤ i → i < mapped + (phdrs.filter fun phdr => phdr.pType = ptLoad).length →
      blocks i = call.blocks i) (s : AddressSpace) :
    loadSegments fuel { call with blocks := blocks } p mapped phdrs s = loadSegments fuel call p mapped phdrs s := by
  induction phdrs generalizing mapped s with
  | nil => rfl
  | cons phdr rest ih =>
    cases decEq phdr.pType ptLoad with
    | isTrue isLoad =>
      rw [List.filter_cons_of_pos (by simpa using isLoad), List.length_cons] at same
      have here := same mapped (Nat.le_refl mapped) (by omega)
      have segment : loadSegment fuel { call with blocks := blocks } p (call.blocks mapped) phdr s =
          loadSegment fuel call p (call.blocks mapped) phdr s := rfl
      simp only [loadSegments, if_pos isLoad, here, segment]
      split
      · rfl
      · split
        · rfl
        · exact ih (fun i above below => same i (by omega) (by omega)) _
    | isFalse other =>
      rw [List.filter_cons_of_neg (by simpa using other)] at same
      simp only [loadSegments, if_neg other]
      exact ih same s

/-- The loop on the heap is the loop with some blocks. -/
theorem loadSegmentsOn_refines {phdrs : List Phdr} (mapped : Nat)
    (returned : loadSegmentsOn fuel call p phdrs heap s = some (ret, heap', s')) :
    ∃ blocks, loadSegments fuel { call with blocks := blocks } p mapped phdrs s = some (ret, s') := by
  induction phdrs generalizing heap s mapped with
  | nil =>
    cases returned
    exact ⟨call.blocks, rfl⟩
  | cons phdr rest ih =>
    simp only [loadSegmentsOn] at returned
    simp only [loadSegments]
    split at returned
    · rename_i isLoad
      split at returned
      · cases returned
      · rename_i block after taken
        split at returned
        · cases returned
        · rename_i code t ran
          have segment (blocks : Nat → Word) : loadSegment fuel { call with blocks := blocks } p block phdr s =
              some (code, t) := ran
          split at returned
          · rename_i failed
            cases returned
            refine ⟨fun _ => block, ?_⟩
            simp only [if_pos isLoad, segment, if_pos failed]
          · rename_i succeeded
            obtain ⟨blocks, rest⟩ := ih (mapped + 1) returned
            refine ⟨fun i => if i = mapped then block else blocks i, ?_⟩
            simp only [if_pos isLoad, if_true, segment, if_neg succeeded]
            have same : ∀ i, mapped + 1 ≤ i → (if i = mapped then block else blocks i) = blocks i :=
              fun i above => if_neg (by omega)
            exact (loadSegments_congr { call with blocks := blocks } _ _ (fun i above _ => same i above) t).trans rest
    · rename_i other
      simp only [if_neg other]
      exact ih mapped returned

theorem loadImageOn_refines (returned : loadImageOn fuel call p heap s = some (ret, p', heap', s')) :
    ∃ blocks, loadExecutable fuel { call with blocks := blocks } p s = some (ret, p', s') := by
  have data (blocks : Nat → Word) : { call with blocks := blocks }.HasData = call.HasData := rfl
  have header (blocks : Nat → Word) : { call with blocks := blocks }.header s.memory = call.header s.memory := rfl
  simp only [loadImageOn] at returned
  simp only [loadExecutable, data, header]
  split at returned
  · rename_i null
    cases returned
    exact ⟨call.blocks, if_pos null⟩
  · rename_i proper
    simp only [if_neg proper]
    split at returned
    · rename_i unread
      cases returned
      exact ⟨call.blocks, if_pos unread⟩
    · rename_i readable
      simp only [if_neg readable]
      split at returned
      · rename_i other
        cases returned
        exact ⟨call.blocks, if_pos other⟩
      · rename_i executable
        simp only [if_neg executable]
        split at returned
        · cases returned
        · rename_i code after t ran
          obtain ⟨blocks, loop⟩ := loadSegmentsOn_refines 0 ran
          split at returned
          · rename_i failed
            cases returned
            refine ⟨blocks, ?_⟩
            simp only [loop, if_pos failed]
          · rename_i succeeded
            split at returned
            · cases returned
            · rename_i block rest taken
              -- the block of the stack comes after those of the loop
              let own : Nat → Word := fun i => if i < (loads (call.header s.memory) 0).length then blocks i else block
              have before : ∀ i, 0 ≤ i → i < 0 + (loads (call.header s.memory) 0).length → own i = blocks i :=
                fun i _ below => if_pos (by omega)
              have last : own (loads (call.header s.memory) 0).length = block := if_neg (Nat.lt_irrefl _)
              have loop' := (loadSegments_congr { call with blocks := blocks } own _ before s).trans loop
              refine ⟨own, ?_⟩
              simp only [loop', if_neg succeeded, last]
              cases mapped : sysMmapUser fuel t p.t p.headRegion call.mmapStart block (0x7ff000 - 0x4000) 0x4000 protRw
                mapFixed with
              | none =>
                simp only [mapped] at returned
                cases returned
              | some out =>
                simp only [mapped] at returned ⊢
                split at returned
                · rename_i null
                  cases returned
                  rw [if_pos null]
                · rename_i proper
                  cases returned
                  rw [if_neg proper]

/-- `load_executable` on the heap is `load_executable` with some blocks, so what holds for
every answer of `kmalloc` and `kcalloc` holds with those of the heap. -/
theorem loadExecutableOn_refines (returned : loadExecutableOn fuel call p heap s = some (ret, p', heap', s')) :
    ∃ buf blocks, loadExecutable fuel { call with buf := buf, blocks := blocks } p s = some (ret, p', s') := by
  unfold loadExecutableOn at returned
  split at returned
  · cases returned
  · rename_i buf after allocated
    obtain ⟨blocks, same⟩ := loadImageOn_refines returned
    exact ⟨buf, blocks, same⟩

end RealmVm
