import RealmVm.Exec.HeapBlocks
import RealmVm.Exec.NewProcess
import RealmVm.Fd.Table
import RealmVm.Heap.HeapRuns
import RealmVm.Vma.CreatedSpace
import RealmVm.Vma.FirstFit

/-! `sys_execve`, and what it leaves behind when it fails. -/
namespace RealmVm

open Lib

def sizeofProcess : Word := 528
def sizeofFdTable : Word := 32

/- `kernel_struct` as `sys_execve` sees it, both heaps, and TTBR0_EL1. The processes are in
the order of their list. -/
structure Kernel where
  tables : TableKernel
  heap : HeapHistory
  processes : List UserProcess
  nextPid : CInt
  fds : FdState
  ttbr0 : Word

/- The arguments, the address of `user_binary`, and what the calls find: the start of the area
for `mmap`, TTBR1_EL1, the bits of PAR_EL1 around an address, the bytes of a block past what
was copied there, the result of `sys_read`, and the value of the variable that
`kernel_vma_alloc` may not set. -/
structure ExecveCall where
  argv : StringArray
  envp : StringArray
  userBinary : Word
  behind : Word → Byte
  count : Int
  mmapStart : Word
  ttbr1 : Word
  attributes : Word
  garbage : Word

/-- `load_executable(fd, p, user_binary, 8192)` -/
def ExecveCall.load (call : ExecveCall) : LoadCall where
  data := call.userBinary
  size := 8192
  buf := 0
  behind := call.behind
  count := call.count
  blocks := fun _ => 0
  mmapStart := call.mmapStart
  ttbr1 := call.ttbr1
  attributes := call.attributes

def Kernel.createUserTranslationTable (fuel : Nat) (garbage : Word) (k : Kernel) :
    Option (TranslationTables × Kernel) :=
  match regionBlock fuel sizeofMemRegion (kernelVmaAsks fuel k.tables.regions k.tables.regionHead 8) k.heap with
  | none => none
  | some (block, heap) =>
    (RealmVm.createUserTranslationTable fuel k.tables noTables block block garbage).map fun (t, tables) =>
      (t, { k with tables := tables, heap := heap })

def Kernel.loadExecutable (fuel : Nat) (call : ExecveCall) (p : Process) (k : Kernel) :
    Option (Int × Process × Kernel) :=
  let s : AddressSpace := ⟨k.tables.memory, k.tables.secureFrames, k.tables.regions⟩
  (loadExecutableOn fuel call.load p k.heap s).map fun (ret, p, heap, s) =>
    (ret, p, { k with
      tables := { k.tables with memory := s.memory, secureFrames := s.frames, regions := s.regions }
      heap := heap })

def Kernel.createNewProcess (call : ExecveCall) (p : Process) (k : Kernel) : Option (Int × UserProcess × Kernel) :=
  let p : UserProcess := { p with pid := 0, cmdLine := 0, ctx := ⟨0, fun _ => 0, 0⟩ }
  (RealmVm.createNewProcess k.tables.memory call.ttbr1 p call.argv call.envp).map fun (ret, p, memory) =>
    (ret, p, { k with tables := { k.tables with memory := memory } })

def Kernel.addNewProcess (p : UserProcess) (k : Kernel) : CInt × Kernel :=
  let pid := k.nextPid + 1
  (pid, { k with processes := k.processes ++ [{ p with pid := pid }], nextPid := pid })

/-- An entry that is there already is found before the `kcalloc`. -/
def Kernel.insertFd (fuel : Nat) (pid hostFd kFd : Int) (k : Kernel) : Option Kernel :=
  match k.fds.insertFd fuel pid hostFd kFd 0 with
  | none => none
  | some (code, _) =>
    if code = -eexist then some k
    else
      match kcalloc fuel k.heap sizeofFdTable 1 with
      | none => none
      | some (target, heap) =>
        (k.fds.insertFd fuel pid hostFd kFd target).map fun (_, fds) => { k with fds := fds, heap := heap }

/- `sys_execve` from `add_new_process` on. -/
def Kernel.enterProcess (fuel : Nat) (p : UserProcess) (k : Kernel) : Option (Int × Kernel) :=
  let (pid, k) := k.addNewProcess p
  (k.insertFd fuel pid.toInt 0 0).bind fun k =>
    (k.insertFd fuel pid.toInt 1 1).bind fun k =>
      (k.insertFd fuel pid.toInt 2 2).map fun k => (pid.toInt, k)

/- `sys_execve` from `create_user_translation_table` on, for the record and the region at
`headRegion`, both zeroed. -/
def Kernel.buildProcess (fuel : Nat) (call : ExecveCall) (headRegion : Word) (k : Kernel) : Option (Int × Kernel) :=
  match k.createUserTranslationTable fuel call.garbage with
  | none => none
  | some (t, k) =>
    let k := { k with ttbr0 := t.pgd }
    match k.loadExecutable fuel call ⟨t, headRegion, 0, 0, 0⟩ with
    | none => none
    | some (ret, p, k) =>
      if ret < 0 then some (ret, k)
      else
        match k.createNewProcess call p with
        | none => none
        | some (ret, p, k) => if ret < 0 then some (ret, k) else k.enterProcess fuel p

/-- `none` when the kernel crashes or a loop does not end within `fuel`. -/
def sysExecve (fuel : Nat) (call : ExecveCall) (k : Kernel) : Option (Int × Kernel) :=
  match kcalloc fuel k.heap sizeofProcess 1 with
  | none => none
  | some (process, heap) =>
    if process = 0 then some (-enomem, { k with heap := heap })
    else
      match kcalloc fuel heap sizeofMemRegion 1 with
      | none => none
      | some (region, heap) =>
        if region = 0 then (kfree fuel heap process).map fun heap => (-enomem, { k with heap := heap })
        else
          let tables := { k.tables with regions := Function.update k.tables.regions region noRegion }
          { k with tables := tables, heap := heap }.buildProcess fuel call region

/-- What a failed call has to leave: the processes, the descriptors, the secure frames, the
live blocks of the heaps and TTBR0_EL1. -/
structure Kernel.Unchanged (k k' : Kernel) : Prop where
  processes : k'.processes = k.processes
  fds : k'.fds = k.fds
  frames : freeFrames k'.tables.secureFrames = freeFrames k.tables.secureFrames
  accounting : k'.tables.secureFrames.availableFrameCount = k.tables.secureFrames.availableFrameCount
  blocks : k'.heap.live.Perm k.heap.live
  ttbr0 : k'.ttbr0 = k.ttbr0

/-- The heap has no block for the process, or none for its first region after that. -/
def FirstBlocksRefused (heap : HeapHistory) : Prop :=
  (∃ after, Returns (fun fuel => kcalloc fuel heap sizeofProcess 1) (0, after)) ∨
    ∃ process next after, process ≠ 0 ∧ Returns (fun fuel => kcalloc fuel heap sizeofProcess 1) (process, next) ∧
      Returns (fun fuel => kcalloc fuel next sizeofMemRegion 1) (0, after)

variable {fuel : Nat} {call : ExecveCall} {k k' : Kernel} {ret : Int}

theorem Kernel.createUserTranslationTable_suffix {garbage : Word} {t : TranslationTables}
    (returned : k.createUserTranslationTable fuel garbage = some (t, k')) : k.heap.live <:+ k'.heap.live := by
  unfold Kernel.createUserTranslationTable at returned
  split at returned
  · cases returned
  · rename_i block heap taken
    obtain ⟨_, -, same⟩ := Option.map_eq_some_iff.mp returned
    cases same
    exact regionBlock_suffix taken

theorem Kernel.loadExecutable_suffix {p p' : Process} (returned : k.loadExecutable fuel call p = some (ret, p', k')) :
    k.heap.live <:+ k'.heap.live := by
  obtain ⟨⟨_, _, heap, s⟩, loaded, same⟩ := Option.map_eq_some_iff.mp returned
  cases same
  exact loadExecutableOn_suffix loaded

theorem Kernel.createNewProcess_heap {p : Process} {p' : UserProcess}
    (returned : k.createNewProcess call p = some (ret, p', k')) : k'.heap = k.heap := by
  obtain ⟨_, -, same⟩ := Option.map_eq_some_iff.mp returned
  cases same
  rfl

theorem Kernel.insertFd_suffix {pid hostFd kFd : Int} (returned : k.insertFd fuel pid hostFd kFd = some k') :
    k.heap.live <:+ k'.heap.live := by
  unfold Kernel.insertFd at returned
  split at returned
  · cases returned
  · split at returned
    · cases returned
      exact List.suffix_rfl
    · split at returned
      · cases returned
      · rename_i target heap taken
        obtain ⟨_, -, same⟩ := Option.map_eq_some_iff.mp returned
        cases same
        exact kcalloc_suffix taken

theorem Kernel.enterProcess_suffix {p : UserProcess} (returned : k.enterProcess fuel p = some (ret, k')) :
    k.heap.live <:+ k'.heap.live := by
  obtain ⟨k₁, first, rest⟩ := Option.bind_eq_some_iff.mp returned
  obtain ⟨k₂, second, rest⟩ := Option.bind_eq_some_iff.mp rest
  obtain ⟨k₃, third, same⟩ := Option.map_eq_some_iff.mp rest
  cases same
  have added := Kernel.insertFd_suffix first
  exact (added.trans (Kernel.insertFd_suffix second)).trans (Kernel.insertFd_suffix third)

/-- From the translation tables on, no way out gives a block back. -/
theorem Kernel.buildProcess_suffix {headRegion : Word}
    (returned : k.buildProcess fuel call headRegion = some (ret, k')) : k.heap.live <:+ k'.heap.live := by
  simp only [Kernel.buildProcess] at returned
  split at returned
  · cases returned
  · rename_i t k₁ created
    have tables := Kernel.createUserTranslationTable_suffix created
    split at returned
    · cases returned
    · rename_i code p k₂ loaded
      have segments := Kernel.loadExecutable_suffix loaded
      have image := tables.trans segments
      split at returned
      · cases returned
        exact image
      · split at returned
        · cases returned
        · rename_i code' p' k₃ stacked
          have heap := Kernel.createNewProcess_heap stacked
          split at returned
          · cases returned
            rw [heap]
            exact image
          · have entered := Kernel.enterProcess_suffix returned
            rw [heap] at entered
            exact image.trans entered

/-- With both blocks the call keeps at least these, whatever it returns. -/
theorem blocks_stay {process region : Word} {next after : HeapHistory} (proper : process ≠ 0)
    (first : kcalloc fuel k.heap sizeofProcess 1 = some (process, next)) (found : region ≠ 0)
    (second : kcalloc fuel next sizeofMemRegion 1 = some (region, after))
    (returned : sysExecve fuel call k = some (ret, k')) : k.heap.live.length + 2 ≤ k'.heap.live.length := by
  have one := groupCalloc_live first
  have two := groupCalloc_live second
  rw [if_neg proper] at one
  rw [if_neg found, one] at two
  simp only [sysExecve, first, if_neg proper, second, if_neg found] at returned
  have stay := (Kernel.buildProcess_suffix returned).length_le
  rw [two] at stay
  exact stay

/-- Exactly the first two ways out leave everything as it was. -/
theorem execve_atomic_iff (returned : Returns (fun fuel => sysExecve fuel call k) (ret, k')) (failed : ret < 0) :
    k.Unchanged k' ↔ FirstBlocksRefused k.heap := by
  obtain ⟨n, returned⟩ := returned
  have out := returned (n + 1) (Nat.lt_succ_self n)
  cases first : kcalloc (n + 1) k.heap sizeofProcess 1 with
  | none =>
    simp only [sysExecve, first] at out
    cases out
  | some answer =>
    obtain ⟨process, next⟩ := answer
    have asked := kcalloc_returns first
    cases decEq process 0 with
    | isTrue null =>
      subst null
      simp only [sysExecve, first, if_true] at out
      cases out
      have live := groupCalloc_live first
      rw [if_pos rfl] at live
      exact iff_of_true ⟨rfl, rfl, rfl, rfl, live ▸ List.Perm.refl _, rfl⟩ (Or.inl ⟨next, asked⟩)
    | isFalse proper =>
      cases second : kcalloc (n + 1) next sizeofMemRegion 1 with
      | none =>
        simp only [sysExecve, first, if_neg proper, second] at out
        cases out
      | some answer =>
        obtain ⟨region, after⟩ := answer
        have askedNext := kcalloc_returns second
        cases decEq region 0 with
        | isTrue null =>
          subst null
          simp only [sysExecve, first, if_neg proper, second, if_true] at out
          obtain ⟨heap, freed, same⟩ := Option.map_eq_some_iff.mp out
          cases same
          have unserved := groupCalloc_live second
          rw [if_pos rfl] at unserved
          have live := kfree_last proper first unserved freed
          exact iff_of_true ⟨rfl, rfl, rfl, rfl, live ▸ List.Perm.refl _, rfl⟩
            (Or.inr ⟨process, next, after, proper, asked, askedNext⟩)
        | isFalse found =>
          have stay := blocks_stay proper first found second out
          refine iff_of_false (fun same => ?_) ?_
          · have length := same.blocks.length_eq
            omega
          · rintro (⟨_, refused⟩ | ⟨process', next', _, _, given, refused⟩)
            · exact proper (Prod.mk.inj (asked.unique refused)).1
            · obtain ⟨rfl, rfl⟩ := Prod.mk.inj (asked.unique given)
              exact found (Prod.mk.inj (askedNext.unique refused)).1

/- One argument, no environment. -/
def bareCall : ExecveCall where
  argv := some [⟨[0x70], by decide⟩]
  envp := some []
  userBinary := 0xFFFFF00000090000
  behind := fun _ => 0
  count := 0
  mmapStart := 0x100000
  ttbr1 := 0
  attributes := 0
  garbage := 0

def bareExecve (heap : HeapHistory) : Kernel where
  tables := bareKernel fun _ => 0
  heap := heap
  processes := []
  nextPid := 0
  fds := ⟨0, fun _ => ⟨0, 0, 0, 0⟩, ∅⟩
  ttbr0 := 0

/- A private heap at the end of the address space after `heap_init`. -/
def topHeap : HeapHistory :=
  HeapHistory.init (fun _ => 0) ⟨0xFFFFFFFFFFFF0000, 0xFFFF, 0xFFFFFFFFFFFF0000, 0xFFFFFFFFFFFF0000⟩
    ⟨0xFFFFF00000800000, 0x100000, 0xFFFFF00000800000, 0xFFFFF00000800000⟩

/- One block takes the whole list, and one leaves 0x230 bytes above the break; those are what the process record
needs. -/
def lastBlocks (fuel : Nat) (heap : HeapHistory) : Option (List Word) :=
  (kmalloc fuel heap 0x4FE0).bind fun whole =>
    (kmalloc fuel whole.2 0xDDB0).bind fun grown =>
      (kcalloc fuel grown.2 sizeofProcess 1).map fun process => [whole.1, grown.1, process.1]

theorem topHeap_blocks : lastBlocks 6 topHeap = some [0xFFFFFFFFFFFF0020, 0xFFFFFFFFFFFFFDF0, 0] := by
  decide +kernel

/-- After the two blocks there is none for the process record. -/
theorem execve_atomic_iff_no_block : ∃ first second whole grown k', kmalloc 6 topHeap 0x4FE0 = some (whole, first) ∧
    kmalloc 6 first 0xDDB0 = some (grown, second) ∧ Returns (fun fuel => sysExecve fuel bareCall (bareExecve second))
      (-enomem, k') ∧ (bareExecve second).Unchanged k' := by
  obtain ⟨⟨whole, first⟩, one, rest⟩ := Option.bind_eq_some_iff.mp topHeap_blocks
  obtain ⟨⟨grown, second⟩, two, rest⟩ := Option.bind_eq_some_iff.mp rest
  obtain ⟨⟨process, after⟩, three, same⟩ := Option.map_eq_some_iff.mp rest
  simp only [List.cons.injEq, and_true] at same
  obtain ⟨-, -, rfl⟩ := same
  have none := kcalloc_returns three
  have returned : Returns (fun fuel => sysExecve fuel bareCall (bareExecve second))
      (-enomem, { bareExecve second with heap := after }) := by
    obtain ⟨n, none⟩ := none
    refine ⟨n, fun fuel above => ?_⟩
    have here := none fuel above
    simp only at here
    simp only [sysExecve, bareExecve, here, if_true]
  exact ⟨first, second, whole, grown, _, one, two, returned,
    (execve_atomic_iff returned (by decide)).mpr (Or.inl ⟨after, none⟩)⟩

/- A private heap of 1 MB after `heap_init`. -/
def freshHeap : HeapHistory :=
  HeapHistory.init (fun _ => 0) ⟨0xFFFFF00000600000, 0x100000, 0xFFFFF00000600000, 0xFFFFF00000600000⟩
    ⟨0xFFFFF00000800000, 0x100000, 0xFFFFF00000800000, 0xFFFFF00000800000⟩

/- The blocks of the first three regions and of `buf`. -/
def firstBlocks (fuel : Nat) (heap : HeapHistory) : Option (List Word) :=
  (kcalloc fuel heap sizeofProcess 1).bind fun process =>
    (kcalloc fuel process.2 sizeofMemRegion 1).bind fun region =>
      (kcalloc fuel region.2 sizeofMemRegion 1).bind fun copy =>
        (kmalloc fuel copy.2 0x2000).map fun buf => [process.1, region.1, copy.1, buf.1]

theorem freshHeap_blocks : firstBlocks 6 freshHeap =
    some [0xFFFFF00000600020, 0xFFFFF00000600250, 0xFFFFF000006002A8, 0xFFFFF00000600300] := by
  decide +kernel

/- The bare kernel, with a record for the first region of the process. -/
def recordedTables : TableKernel :=
  { bareKernel (fun _ => 0) with
    regions := Function.update (bareKernel fun _ => 0).regions 0xFFFFF00000600250 noRegion }

/-- Its new tables leave `user_binary` as it is, zero. -/
theorem recordedTables_create : ∃ t s, createUserTranslationTable 6 recordedTables noTables 0xFFFFF000006002A8
      0xFFFFF000006002A8 0 = some (t, s) ∧
    ∀ i < 0x2000, s.memory.kernelByte (0xFFFFF00000090000 + BitVec.ofNat 64 i) = 0 := by
  obtain ⟨p, bare⟩ := bareKernel_ready (fun _ => 0) fun _ _ _ => rfl
  have ready : KernelReady recordedTables p := bare.record (by decide) noRegion
  obtain ⟨pgd, pud, pmd⟩ := bareKernel_tables fun _ => 0
  have frames : (userTables recordedTables noTables).pgd ≠ mapFailed ∧
      (userTables recordedTables noTables).pud ≠ mapFailed ∧ (userTables recordedTables noTables).pmd ≠ mapFailed := by
    refine ⟨?_, ?_, ?_⟩
    · exact ne_of_eq_of_ne pgd (by decide)
    · exact ne_of_eq_of_ne pud (by decide)
    · exact ne_of_eq_of_ne pmd (by decide)
  have room : RoomForPt3 recordedTables.secureFrames := bareSecureFrames_room
  obtain ⟨s, created⟩ : ∃ s, createUserTranslationTable 6 recordedTables noTables 0xFFFFF000006002A8
      0xFFFFF000006002A8 0 = some (userTables recordedTables noTables, s) :=
    creates ready room (by decide) frames.1 frames.2.1 frames.2.2
  refine ⟨_, s, created, fun i small => ?_⟩
  have zero : ∀ l, ∀ i < kernelPages l * 512, entry (⟨fun _ => 0, id⟩ : Memory) bareTables l i = 0 := fun _ _ _ => rfl
  have nothing : Translates recordedTables.memory recordedTables.secureT kernelPages fun _ => none :=
    (zeroed capacity_kernelPages zero).2
  have va : (0xFFFFF00000090000 + BitVec.ofNat 64 i : Word).toNat = 0xFFFFF00000090000 + i := by bv_omega
  have near : distance recordedTables.secureT (0xFFFFF00000090000 + BitVec.ofNat 64 i) < 2 ^ 32 := by
    show (0xFFFFF00000090000 + BitVec.ofNat 64 i - 0xFFFFF00000000000 : Word).toNat < 2 ^ 32
    bv_omega
  have other : lastMapping ((List.range 7).map (tableCall (userTables recordedTables noTables)))
      (0xFFFFF00000090000 + BitVec.ofNat 64 i) = none := by
    rw [lastMapping, Option.map_eq_none_iff, List.find?_eq_none]
    intro c member
    obtain ⟨n, inRange, rfl⟩ := List.mem_map.mp (List.mem_reverse.mp member)
    have few := List.mem_range.mp inRange
    have base : (userTables recordedTables noTables).vaPgd = 0xFFFFF00001600000 := rfl
    have place : (tableCall (userTables recordedTables noTables) n).va =
        0xFFFFF00001600000 + BitVec.ofNat 64 n * pageSize4KB := rfl
    have down := pageDown_toNat (0xFFFFF00000090000 + BitVec.ofNat 64 i)
    unfold pageSize4KB at place
    rw [decide_eq_true_eq, place]
    intro same
    rw [← same, va] at down
    bv_omega
  obtain ⟨pa, word⟩ := created_elsewhere ready room nothing created near other
  have same : s.memory.pa (0xFFFFF00000090000 + BitVec.ofNat 64 i) = 0xFFFFF00000090000 + BitVec.ofNat 64 i := pa
  have elsewhere : Elsewhere recordedTables.secureT kernelPages
      (WordBytes.wordOf (0xFFFFF00000090000 + BitVec.ofNat 64 i)) := by
    intro l n inside equal
    have low := bareTables_low l
    have place := bareTables_laidOut.entryAddress_toNat inside
    have here := WordBytes.wordOf_toNat (0xFFFFF00000090000 + BitVec.ofNat 64 i)
    have equal' : WordBytes.wordOf (0xFFFFF00000090000 + BitVec.ofNat 64 i) =
        entryAddress (bareTables.base l) (BitVec.ofNat 64 n) := equal
    rw [equal', place, va] at here
    omega
  rw [Memory.kernelByte, same, WordBytes.byte, word _ elsewhere]
  show (0 : Word).extractLsb' _ 8 = 0
  simp

/-- A file of zeros is no executable. -/
theorem zeroBinary_load {s : AddressSpace} {p : Process} {heap after : HeapHistory} {buf : Word}
    (zero : ∀ i < 0x2000, s.memory.kernelByte (0xFFFFF00000090000 + BitVec.ofNat 64 i) = 0) (proper : buf ≠ 0)
    (allocated : kmalloc 6 heap 0x2000 = some (buf, after)) :
    loadExecutableOn 6 bareCall.load p heap s = some (-enoexec, p, after, s) := by
  have data : { bareCall.load with buf := buf }.HasData := by
    exact ⟨(by decide : bareCall.userBinary ≠ 0), (by decide : (0 : Word) < 8192)⟩
  have byte : ∀ i : Word, i < 8192 → ({ bareCall.load with buf := buf } : LoadCall).header s.memory i = 0 := by
    intro i small
    have inside : i < ({ bareCall.load with buf := buf } : LoadCall).size := small
    have place : i = BitVec.ofNat 64 i.toNat := by simp
    rw [LoadCall.header, if_pos ⟨data, inside⟩, LoadCall.image, place]
    exact zero i.toNat (by bv_omega)
  have type : eType (({ bareCall.load with buf := buf } : LoadCall).header s.memory) 0 = 0 := by
    have low := byte 16 (by decide)
    have high := byte 17 (by decide)
    have bytes : Bytes.bytesAt (({ bareCall.load with buf := buf } : LoadCall).header s.memory) 16 2 = [0, 0] := by
      show [_, _] = _
      exact congrArg₂ (fun a b => [a, b]) low high
    have value : Bytes.load (({ bareCall.load with buf := buf } : LoadCall).header s.memory) 16 2 = 0 :=
      congrArg Bytes.decode bytes
    exact congrArg (BitVec.ofNat 16) value
  have other : ¬ (eType (({ bareCall.load with buf := buf } : LoadCall).header s.memory) 0 = etExec ∨
      eType (({ bareCall.load with buf := buf } : LoadCall).header s.memory) 0 = etDyn) := by
    rw [type]
    decide
  have readable : ¬ (¬ ({ bareCall.load with buf := buf } : LoadCall).HasData ∧ bareCall.load.count ≤ 0) :=
    fun unread => unread.1 data
  simp only [loadExecutableOn, allocated, loadImageOn, if_neg proper, if_neg readable, if_pos other]

/-- The process, its region and the other blocks stay live after `-ENOEXEC`. -/
theorem bad_image_keeps_blocks : ∃ k', sysExecve 6 bareCall (bareExecve freshHeap) = some (-enoexec, k') ∧
    ¬ (bareExecve freshHeap).Unchanged k' := by
  obtain ⟨⟨process, h₁⟩, first, rest⟩ := Option.bind_eq_some_iff.mp freshHeap_blocks
  obtain ⟨⟨region, h₂⟩, second, rest⟩ := Option.bind_eq_some_iff.mp rest
  obtain ⟨⟨copy, h₃⟩, third, rest⟩ := Option.bind_eq_some_iff.mp rest
  obtain ⟨⟨buf, h₄⟩, fourth, same⟩ := Option.map_eq_some_iff.mp rest
  simp only [List.cons.injEq, and_true] at same
  obtain ⟨rfl, rfl, rfl, rfl⟩ := same
  obtain ⟨t, s, created, zero⟩ := recordedTables_create
  have asks : kernelVmaAsks 6 recordedTables.regions recordedTables.regionHead 8 = true := by decide
  have second' : kcalloc 6 h₁ sizeofMemRegion 1 = some (0xFFFFF00000600250, h₂) := second
  have tables : Kernel.createUserTranslationTable 6 0
      { bareExecve freshHeap with tables := recordedTables, heap := h₂ } =
        some (t, { bareExecve freshHeap with tables := s, heap := h₃ }) := by
    have third' : kcalloc 6 h₂ sizeofMemRegion 1 = some (0xFFFFF000006002A8, h₃) := third
    simp only [Kernel.createUserTranslationTable, asks, regionBlock, if_true, third', created, Option.map_some]
  have image : Kernel.loadExecutable 6 bareCall ⟨t, 0xFFFFF00000600250, 0, 0, 0⟩
      { bareExecve freshHeap with tables := s, heap := h₃, ttbr0 := t.pgd } =
        some (-enoexec, ⟨t, 0xFFFFF00000600250, 0, 0, 0⟩,
          { bareExecve freshHeap with tables := s, heap := h₄, ttbr0 := t.pgd }) := by
    have loaded := zeroBinary_load (p := ⟨t, 0xFFFFF00000600250, 0, 0, 0⟩)
      (s := ⟨s.memory, s.secureFrames, s.regions⟩) zero (by decide) fourth
    simp only at loaded
    simp only [Kernel.loadExecutable, loaded, Option.map_some]
  have negative : -enoexec < 0 := by decide
  have built : Kernel.buildProcess 6 bareCall 0xFFFFF00000600250
      { bareExecve freshHeap with tables := recordedTables, heap := h₂ } =
        some (-enoexec, { bareExecve freshHeap with tables := s, heap := h₄, ttbr0 := t.pgd }) := by
    have garbage : bareCall.garbage = 0 := rfl
    simp only [Kernel.buildProcess, garbage, tables, image, if_pos negative]
  have returned : sysExecve 6 bareCall (bareExecve freshHeap) =
      some (-enoexec, { bareExecve freshHeap with tables := s, heap := h₄, ttbr0 := t.pgd }) := by
    have found : (0xFFFFF00000600020 : Word) ≠ 0 := by decide
    have found' : (0xFFFFF00000600250 : Word) ≠ 0 := by decide
    have first' : kcalloc 6 (bareExecve freshHeap).heap sizeofProcess 1 = some (0xFFFFF00000600020, h₁) := first
    have second' : kcalloc 6 h₁ sizeofMemRegion 1 = some (0xFFFFF00000600250, h₂) := second
    simp only [sysExecve, first', second', if_neg found, if_neg found']
    exact built
  refine ⟨_, returned, fun unchanged => ?_⟩
  have stay := blocks_stay (k := bareExecve freshHeap) (by decide) first (by decide) second returned
  have length := unchanged.blocks.length_eq
  omega

end RealmVm
