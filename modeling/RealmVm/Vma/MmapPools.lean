import RealmVm.Vma.FrameRequests
import RealmVm.Vma.MmapRuns

/-! Which frames back the pages that `generic_mmap` maps, for the three callers together. -/
namespace RealmVm

open Lib

/- The region and the base that `generic_mmap` decides on; `some none` for `MAP_FAILED`. -/
def mmapTarget (fuel : Nat) (regions : Regions) (head mmapStart block address size : Word) (flags : CInt) :
    Option (Option (Word × Word)) :=
  if size = 0 ∨ head = 0 then some none
  else if (regions head).isMapped = 0 then some (some (head, if flags &&& mapFixed ≠ 0 then address else mmapStart))
  else
    (if flags &&& mapFixed ≠ 0 then searchMmapRegionFixed fuel regions head address (pageUp size)
      else searchMmapRegion fuel regions head (pageUp size)).map fun search =>
        if (flags &&& mapFixed ≠ 0 ∧ search = mapFailed) ∨ block = 0 then none
        else some (block, if search = 0 then address else search)

/- The frames of `n` turns of the mapping loop, and the allocator after them. -/
def framesTaken : Nat → KframeAlloc → List Word × KframeAlloc
  | 0, fa => ([], fa)
  | n + 1, fa =>
    let out := kframeAllocateRange fa 1
    let later := framesTaken n out.2
    (out.1 :: later.1, later.2)

/- `page_table_map` for one frame after the other, the first at `count` bytes from the base. -/
def mapFrames (t : TranslationTables) (vaBase : Word) (prot : CInt) : List Word → Word → Memory → Option Memory
  | [], _, m => some m
  | frame :: frames, count, m =>
    match pageTableMap m t (vaBase + count) frame prot 0 with
    | none => none
    | some (ret, m) => if ret ≠ 0 then none else mapFrames t vaBase prot frames (count + pageSize4KB) m

/- A page of a region, the frame it was mapped to, and the region's `is_secure`. -/
structure Backing where
  isSecure : CInt
  va : Word
  frame : Word
deriving DecidableEq

def MmapCaller.isSecure : MmapCaller → CInt
  | .kernelInsecure => 0
  | _ => 1

def MmapCall.target (call : MmapCall) (fuel : Nat) (regions : Regions) (head mmapStart : Word) :
    Option (Option (Word × Word)) :=
  mmapTarget fuel regions head mmapStart call.block call.address call.size call.flags

def MmapCall.pages (call : MmapCall) : Nat := (pageUp call.size / pageSize4KB).toNat

def MmapCall.backing (call : MmapCall) (frames : KframeAlloc) : Option (Word × Word) → List Backing
  | none => []
  | some (_, vaBase) => (framesTaken call.pages frames).1.zipIdx.map fun (frame, i) =>
    ⟨call.caller.isSecure, vaBase + BitVec.ofNat 64 (4096 * i), frame⟩

/- A call, with the tables and the region list that `sys_mmap_user` is given. -/
structure MmapRequest where
  call : MmapCall
  t : TranslationTables
  region : Word

/- Memory, region records and secure frames in one, the insecure frames, and every page
that a region of the run got. -/
structure MmapWorld where
  space : AddressSpace
  insecureFrames : KframeAlloc
  backing : List Backing

section Kernel

/- `kernel_struct.secure_t`, `&kernel_struct.mmap_region_head` and `kernel_struct.mmap_start`. -/
variable (secureT : TranslationTables) (mmapRegionHead mmapStart : Word)

def MmapRequest.tables (r : MmapRequest) : TranslationTables := if r.call.caller = .user then r.t else secureT

def MmapRequest.head (r : MmapRequest) : Word := if r.call.caller = .user then r.region else mmapRegionHead

def poolStep (s : MmapWorld) (r : MmapRequest) (s' : MmapWorld) : Prop :=
  ∃ ret target,
    Returns (fun fuel => r.call.perform fuel s.space (r.tables secureT) (r.head mmapRegionHead) mmapStart)
      (ret, s'.space) ∧
    Returns (fun fuel => r.call.target fuel s.space.regions (r.head mmapRegionHead) mmapStart) target ∧
    s'.insecureFrames = s.insecureFrames ∧ s'.backing = s.backing ++ r.call.backing s.space.frames target

/-- The request is not for insecure memory, or it maps no page: it fails, or `PAGE_UP` of
its size is 0. -/
def MmapRequest.Harmless (s : MmapWorld) (r : MmapRequest) : Prop :=
  r.call.caller ≠ .kernelInsecure ∨ pageUp r.call.size = 0 ∨
    Returns (fun fuel => r.call.target fuel s.space.regions (r.head mmapRegionHead) mmapStart) none

def harmlessStep (s : MmapWorld) (r : MmapRequest) (s' : MmapWorld) : Prop :=
  r.Harmless mmapRegionHead mmapStart s ∧ poolStep secureT mmapRegionHead mmapStart s r s'

end Kernel

/-- The page lies in a frame of the pool that its region names. -/
def Backing.Proper (secure insecure : KframeAlloc) (b : Backing) : Prop :=
  b.frame ∈ if b.isSecure = 0 then arena insecure else arena secure

def MmapWorld.Unmixed (s : MmapWorld) : Prop := ∀ b ∈ s.backing, b.Proper s.space.frames s.insecureFrames

variable {t : TranslationTables} {head mmapStart : Word} {s s' : AddressSpace}

/-- `generic_mmap` either fails at once, or starts the mapping at its target. -/
theorem genericMmap_eq (fuel : Nat) (s : AddressSpace) (t : TranslationTables) (head mmapStart block : Word)
    (isKernel isSecure : CInt) (address size : Word) (prot flags : CInt) :
    genericMmap fuel s t head mmapStart block isKernel isSecure address size prot flags =
      match mmapTarget fuel s.regions head mmapStart block address size flags with
      | none => none
      | some none => some (mapFailed, s)
      | some (some (region, vaBase)) =>
        startMapping fuel
          (if (s.regions head).isMapped = 0 then s
            else { s with regions := Function.update s.regions block noRegion })
          t head region vaBase isKernel isSecure (pageUp size) prot := by
  unfold genericMmap mmapTarget
  by_cases empty : size = 0 ∨ head = 0
  · simp only [if_pos empty]
  · by_cases unmapped : (s.regions head).isMapped = 0
    · simp only [if_neg empty, if_pos unmapped]
    · simp only [if_neg empty, if_neg unmapped]
      cases (if flags &&& mapFixed ≠ 0 then searchMmapRegionFixed fuel s.regions head address (pageUp size)
        else searchMmapRegion fuel s.regions head (pageUp size)) with
      | none => rfl
      | some search =>
        simp only [Option.map_some]
        by_cases failed : flags &&& mapFixed ≠ 0 ∧ search = mapFailed
        · rw [if_pos failed, if_pos (Or.inl failed)]
        · rw [if_neg failed]
          by_cases null : block = 0
          · rw [if_pos null, if_pos (Or.inr null)]
          · rw [if_neg null, if_neg (not_or.mpr ⟨failed, null⟩)]

/-- The mapping loop takes a frame for each page from the allocator and maps it there. -/
theorem mapPages_taken {vaBase : Word} {prot : CInt} {n : Nat} {count : Word}
    (ran : mapPages t vaBase prot n count s = some s') :
    mapFrames t vaBase prot (framesTaken n s.frames).1 count s.memory = some s'.memory ∧
      s'.frames = (framesTaken n s.frames).2 ∧ s'.regions = s.regions ∧
      ∀ frame ∈ (framesTaken n s.frames).1, frame ≠ mapFailed := by
  induction n generalizing count s with
  | zero =>
    obtain rfl := Option.some.inj ran
    exact ⟨rfl, rfl, rfl, List.forall_mem_nil _⟩
  | succ n ih =>
    rw [mapPages] at ran
    split at ran
    · cases ran
    · rename_i given
      split at ran
      · cases ran
      · rename_i ret memory mapped
        split at ran
        · cases ran
        · rename_i zero
          obtain ⟨rest, frames, regions, proper⟩ := ih ran
          refine ⟨?_, frames, regions, ?_⟩
          · simp only [framesTaken, mapFrames, mapped, if_neg zero]
            exact rest
          · exact List.forall_mem_cons.mpr ⟨given, proper⟩

/-- What the allocator keeps track of, it hands out from its own frames. -/
theorem framesTaken_arena {n : Nat} {fa : KframeAlloc} {p : Pool Word} (tracks : Tracks fa p)
    (proper : ∀ frame ∈ (framesTaken n fa).1, frame ≠ mapFailed) :
    (∀ frame ∈ (framesTaken n fa).1, frame ∈ arena fa) ∧ (∃ p', Tracks (framesTaken n fa).2 p') ∧
      arena (framesTaken n fa).2 = arena fa := by
  induction n generalizing fa p with
  | zero => exact ⟨fun _ inside => (nomatch inside), ⟨p, tracks⟩, rfl⟩
  | succ n ih =>
    obtain ⟨given, others⟩ := List.forall_mem_cons.mp proper
    have same : arena (kframeAllocateRange fa 1).2 = arena fa := by
      have shape := kframeAllocateRange_arena fa 1
      unfold arena
      rw [shape.1, shape.2]
    rcases tracks.kframeAllocateRange_one _ rfl with ⟨member, available, after⟩ | ⟨none, _⟩
    · obtain ⟨inside, left, later⟩ := ih after others
      have here : (kframeAllocateRange fa 1).1 ∈ arena fa := by
        rw [← tracks.all_eq]
        exact (Pool.mem_free.mp member).1
      refine ⟨List.forall_mem_cons.mpr ⟨here, fun frame member => ?_⟩, left, later.trans same⟩
      rw [← same]
      exact inside frame member
    · exact absurd (congrArg Prod.fst none) given

theorem startMapping_taken {fuel : Nat} {region vaBase size r : Word} {isKernel isSecure prot : CInt}
    (ran : startMapping fuel s t head region vaBase isKernel isSecure size prot = some (r, s')) :
    (∃ m, mapFrames t vaBase prot (framesTaken (size / pageSize4KB).toNat s.frames).1 0 s.memory = some m) ∧
      s'.frames = (framesTaken (size / pageSize4KB).toNat s.frames).2 ∧
      ∀ frame ∈ (framesTaken (size / pageSize4KB).toNat s.frames).1, frame ≠ mapFailed := by
  unfold startMapping at ran
  split at ran
  · exact nomatch ran
  · rename_i after mapped
    obtain ⟨rest, frames, _, proper⟩ := mapPages_taken mapped
    have kept : s'.frames = after.frames := by
      split at ran
      · exact (congrArg (fun p => p.2.frames) (Option.some.inj ran)).symm
      · split at ran
        · exact nomatch ran
        · exact (congrArg (fun p => p.2.frames) (Option.some.inj ran)).symm
    exact ⟨⟨_, rest⟩, kept.trans frames, proper⟩

/-- What a returning call does to the frames: nothing, or one is taken and mapped for each page. -/
theorem perform_taken {call : MmapCall} {fuel : Nat} {r : Word} {target : Option (Word × Word)}
    (ran : call.perform fuel s t head mmapStart = some (r, s'))
    (aimed : call.target fuel s.regions head mmapStart = some target) :
    match target with
    | none => s' = s
    | some (_, vaBase) =>
      (∃ m, mapFrames t vaBase (call.caller.prot call.prot) (framesTaken call.pages s.frames).1 0 s.memory = some m) ∧
        s'.frames = (framesTaken call.pages s.frames).2 ∧
        ∀ frame ∈ (framesTaken call.pages s.frames).1, frame ≠ mapFailed := by
  obtain ⟨isKernel, isSecure, perform⟩ := call.perform_eq
  rw [perform, genericMmap_eq] at ran
  unfold MmapCall.target at aimed
  rw [aimed] at ran
  cases target with
  | none => exact (congrArg Prod.snd (Option.some.inj ran)).symm
  | some target =>
    have taken := startMapping_taken ran
    split at taken
    · exact taken
    · exact taken

/-- Two allocators that manage different frames. -/
structure MmapWorld.Pools (s : MmapWorld) : Prop where
  tracks : ∃ p, Tracks s.space.frames p
  apart : Disjoint (arena s.space.frames) (arena s.insecureFrames)

section Runs

variable {secureT : TranslationTables} {mmapRegionHead : Word} {w w' w'' : MmapWorld} {r : MmapRequest}

theorem poolStep_unique (first : poolStep secureT mmapRegionHead mmapStart w r w')
    (second : poolStep secureT mmapRegionHead mmapStart w r w'') : w' = w'' := by
  obtain ⟨_, target, ran, aimed, insecure, backing⟩ := first
  obtain ⟨_, target', ran', aimed', insecure', backing'⟩ := second
  obtain rfl := aimed.unique aimed'
  have space := (Prod.mk.inj (ran.unique ran')).2
  cases w'
  cases w''
  simp only at space insecure insecure' backing backing'
  rw [space, insecure, insecure', backing, backing']

/-- The frames of one call: all from the secure pool, whatever was asked for. -/
theorem backing_secure (pools : w.Pools) (step : poolStep secureT mmapRegionHead mmapStart w r w') :
    ∃ target, Returns (fun fuel => r.call.target fuel w.space.regions (r.head mmapRegionHead) mmapStart) target ∧
      w'.backing = w.backing ++ r.call.backing w.space.frames target ∧
      (∀ b ∈ r.call.backing w.space.frames target, b.frame ∈ arena w.space.frames) ∧
      w'.Pools ∧ arena w'.space.frames = arena w.space.frames ∧ w'.insecureFrames = w.insecureFrames := by
  obtain ⟨ret, target, ran, aimed, insecure, backing⟩ := step
  refine ⟨target, aimed, backing, ?_⟩
  have taken : match target with
      | none => w'.space = w.space
      | some _ => w'.space.frames = (framesTaken r.call.pages w.space.frames).2 ∧
          ∀ frame ∈ (framesTaken r.call.pages w.space.frames).1, frame ≠ mapFailed := by
    obtain ⟨n, returns⟩ := ran
    obtain ⟨k, decides⟩ := aimed
    have spec := perform_taken (returns (max n k + 1) (by omega)) (decides (max n k + 1) (by omega))
    cases target with
    | none => exact spec
    | some target => exact spec.2
  obtain ⟨p, tracks⟩ := pools.tracks
  cases target with
  | none =>
    refine ⟨fun _ inside => (nomatch inside), ⟨⟨p, ?_⟩, ?_⟩, ?_, insecure⟩
    · rw [taken]
      exact tracks
    · rw [taken, insecure]
      exact pools.apart
    · rw [taken]
  | some target =>
    obtain ⟨frames, proper⟩ := taken
    obtain ⟨inside, left, same⟩ := framesTaken_arena tracks proper
    have kept : arena w'.space.frames = arena w.space.frames := by rw [frames, same]
    refine ⟨fun b member => ?_, ⟨frames ▸ left, ?_⟩, kept, insecure⟩
    · obtain ⟨⟨frame, i⟩, here, rfl⟩ := List.mem_map.mp member
      exact inside _ (List.fst_mem_of_mem_zipIdx here)
    · rw [kept, insecure]
      exact pools.apart

theorem length_framesTaken (n : Nat) (fa : KframeAlloc) : (framesTaken n fa).1.length = n := by
  induction n generalizing fa with
  | zero => rfl
  | succ n ih => exact congrArg Nat.succ (ih _)

theorem pages_eq_zero_iff (call : MmapCall) : call.pages = 0 ↔ pageUp call.size = 0 := by
  have multiple : (pageUp call.size).toNat % 4096 = 0 := by
    have rounded := Bits.toNat_and_not_mask (call.size + 0xFFF) 12
    change (pageUp call.size).toNat = _ at rounded
    rw [rounded]
    exact Nat.mul_mod_left _ _
  have size : pageSize4KB.toNat = 4096 := rfl
  unfold MmapCall.pages
  rw [BitVec.toNat_udiv, size]
  constructor
  · intro none
    have zero : (0 : Word).toNat = 0 := rfl
    apply BitVec.eq_of_toNat_eq
    rw [zero]
    omega
  · intro none
    rw [none]
    rfl

/-- The new pages lie in the right pool exactly when the call asks for no insecure page. -/
theorem backing_proper_iff (pools : w.Pools) {target : Option (Word × Word)}
    (aimed : Returns (fun fuel => r.call.target fuel w.space.regions (r.head mmapRegionHead) mmapStart) target)
    (secure : ∀ b ∈ r.call.backing w.space.frames target, b.frame ∈ arena w.space.frames) :
    (∀ b ∈ r.call.backing w.space.frames target, b.Proper w.space.frames w.insecureFrames) ↔
      r.Harmless mmapRegionHead mmapStart w := by
  have marked : ∀ b ∈ r.call.backing w.space.frames target, b.isSecure = r.call.caller.isSecure := by
    intro b member
    cases target with
    | none => exact nomatch member
    | some target =>
      obtain ⟨_, _, rfl⟩ := List.mem_map.mp member
      rfl
  by_cases insecure : r.call.caller = .kernelInsecure
  · have zero : r.call.caller.isSecure = 0 := by rw [insecure]; rfl
    have nothing : (∀ b ∈ r.call.backing w.space.frames target, b.Proper w.space.frames w.insecureFrames) ↔
        r.call.backing w.space.frames target = [] := by
      rw [List.eq_nil_iff_forall_not_mem]
      constructor
      · intro proper b member
        have inPool := proper b member
        rw [Backing.Proper, marked b member, zero, if_pos rfl] at inPool
        exact Finset.disjoint_left.mp pools.apart (secure b member) inPool
      · exact fun none b member => absurd member (none b)
    rw [nothing]
    constructor
    · intro empty
      cases target with
      | none => exact Or.inr (Or.inr aimed)
      | some target =>
        have length := congrArg List.length empty
        rw [MmapCall.backing, List.length_map, List.length_zipIdx, length_framesTaken] at length
        exact Or.inr (Or.inl ((pages_eq_zero_iff r.call).mp length))
    · rintro (other | wraps | failed)
      · exact absurd insecure other
      · cases target with
        | none => rfl
        | some target =>
          apply List.eq_nil_of_length_eq_zero
          rw [MmapCall.backing, List.length_map, List.length_zipIdx, length_framesTaken]
          exact (pages_eq_zero_iff r.call).mpr wraps
      · rw [aimed.unique failed]
        rfl
  · have one : r.call.caller.isSecure = 1 := by
      cases caller : r.call.caller with
      | kernelInsecure => exact absurd caller insecure
      | kernel => rfl
      | user => rfl
    refine iff_of_true (fun b member => ?_) (Or.inl insecure)
    have different : (1 : CInt) ≠ 0 := by decide
    rw [Backing.Proper, marked b member, one, if_neg different]
    exact secure b member

/-- One call keeps the pools apart, and the pages unmixed exactly when it is harmless. -/
theorem pool_step (pools : w.Pools) (step : poolStep secureT mmapRegionHead mmapStart w r w') :
    w'.Pools ∧ (w'.Unmixed ↔ w.Unmixed ∧ r.Harmless mmapRegionHead mmapStart w) := by
  obtain ⟨target, aimed, backing, secure, next, same, insecure⟩ := backing_secure pools step
  refine ⟨next, ?_⟩
  have proper : ∀ b : Backing, b.Proper w'.space.frames w'.insecureFrames ↔
      b.Proper w.space.frames w.insecureFrames := by
    intro b
    unfold Backing.Proper
    rw [same, insecure]
  rw [← backing_proper_iff pools aimed secure]
  unfold MmapWorld.Unmixed
  simp only [proper, backing, List.forall_mem_append]

/-- After any run the pages are unmixed exactly when every call of it was harmless. -/
theorem pools_unmixed_iff (secureT : TranslationTables) (mmapRegionHead mmapStart : Word) {start last : MmapWorld}
    (pools : start.Pools) (fresh : start.backing = []) {requests : List MmapRequest}
    (run : Run (poolStep secureT mmapRegionHead mmapStart) start requests last) :
    last.Unmixed ↔ Run (harmlessStep secureT mmapRegionHead mmapStart) start requests last := by
  have clean : start.Unmixed := fun b member => by
    rw [fresh] at member
    exact nomatch member
  clear fresh
  suffices general : last.Unmixed ↔ start.Unmixed ∧
      Run (harmlessStep secureT mmapRegionHead mmapStart) start requests last by
    rw [general]
    exact and_iff_right clean
  clear clean
  induction run with
  | nil s => exact (and_iff_left (.nil s)).symm
  | cons step rest ih =>
    obtain ⟨next, unmixed⟩ := pool_step pools step
    rw [ih next, unmixed, and_assoc]
    refine and_congr_right fun _ => ?_
    constructor
    · rintro ⟨harmless, run⟩
      exact .cons ⟨harmless, step⟩ run
    · intro run
      cases run with
      | cons first run =>
        obtain rfl := poolStep_unique step first.2
        exact ⟨first.1, run⟩

end Runs

/- Two secure frames at 0x40000000, one insecure frame at 0x80000000, nothing mapped yet. -/
def bareInsecureFrames : KframeAlloc := (kframeAllocatorInit bareFrames (fun _ => 0xFF) 1 0x80000000 0x1000).2

def bareWorld : MmapWorld := ⟨bareSpace, bareInsecureFrames, []⟩

/- One page for each caller: `kernel_mmap(0, 1, PROT_RW, 0)` and its siblings. -/
def onePage (caller : MmapCaller) : MmapRequest := ⟨⟨caller, 0, 1, 3, 0, 0x5000⟩, bareTables, bareHead⟩

theorem bareWorld_pools : bareWorld.Pools := by
  have first : arena bareFramesInit = {0x40000000, 0x40001000} := by decide
  have second : arena bareInsecureFrames = {0x80000000} := by decide
  refine ⟨bareSpace_fresh.frames, ?_⟩
  change Disjoint (arena bareFramesInit) (arena bareInsecureFrames)
  rw [first, second]
  decide

theorem onePage_step (caller : MmapCaller) :
    ∃ w, poolStep bareTables bareHead bareMmapStart bareWorld (onePage caller) w ∧
      ¬ Returns (fun fuel => (onePage caller).call.target fuel bareSpace.regions bareHead bareMmapStart) none := by
  have consistent := bareSpace_fresh.consistent
  have chain := (consistent.first rfl).2
  have loose : ¬ (onePage caller).call.Fixed := by cases caller <;> decide
  have allowed : (onePage caller).call.Allowed bareHead ⟨bareSpace, []⟩ :=
    ⟨by cases caller <;> decide, fun fixed => absurd fixed loose, by cases caller <;> decide,
      by cases caller <;> decide, not_mem_alone chain (by cases caller <;> decide)⟩
  have safe : (onePage caller).call.Safe bareTables kernelPages bareMmapStart ⟨bareSpace, []⟩ :=
    ⟨by cases caller <;> decide, Or.inl rfl, by cases caller <;> decide⟩
  obtain ⟨r, after, returns, _, _⟩ :=
    mmap_call capacity_kernelPages (by decide) (by decide) consistent allowed safe
  have tables : (onePage caller).tables bareTables = bareTables := ite_self _
  have head : (onePage caller).head bareHead = bareHead := ite_self _
  have aimed : Returns (fun fuel => (onePage caller).call.target fuel bareSpace.regions bareHead bareMmapStart)
      (some (bareHead, bareMmapStart)) := by
    have proper : ¬ ((1 : Word) = 0 ∨ bareHead = 0) := by decide
    have unmapped : (bareSpace.regions bareHead).isMapped = 0 := rfl
    have anywhere : ¬ (0 : CInt) &&& mapFixed ≠ 0 := by decide
    refine ⟨0, fun fuel _ => ?_⟩
    change mmapTarget fuel bareSpace.regions bareHead bareMmapStart 0x5000 0 1 0 = _
    rw [mmapTarget, if_neg proper, if_pos unmapped, if_neg anywhere]
  refine ⟨⟨after, bareInsecureFrames, (onePage caller).call.backing bareFramesInit (some (bareHead, bareMmapStart))⟩,
    ⟨r, some (bareHead, bareMmapStart), ?_, ?_, rfl, rfl⟩, fun failed => ?_⟩
  · rw [tables, head]
    exact returns
  · rw [head]
    exact aimed
  · exact nomatch aimed.unique failed

/-- A page of `kernel_mmap` comes from the secure frames. -/
theorem pools_unmixed_iff_one_page :
    ∃ w, Run (poolStep bareTables bareHead bareMmapStart) bareWorld [onePage .kernel] w ∧ w.Unmixed := by
  obtain ⟨w, step, _⟩ := onePage_step .kernel
  have harmless : (onePage .kernel).Harmless bareHead bareMmapStart bareWorld := Or.inl (by decide)
  refine ⟨w, .cons step (.nil w), ?_⟩
  exact (pools_unmixed_iff bareTables bareHead bareMmapStart bareWorld_pools rfl (.cons step (.nil w))).mpr
    (.cons ⟨harmless, step⟩ (.nil w))

/-- So does a page of `kernel_mmap_insecure`. -/
theorem insecure_page_in_secure_frame :
    ∃ w, Run (poolStep bareTables bareHead bareMmapStart) bareWorld [onePage .kernelInsecure] w ∧ ¬ w.Unmixed := by
  obtain ⟨w, step, aimed⟩ := onePage_step .kernelInsecure
  have harmful : ¬ (onePage .kernelInsecure).Harmless bareHead bareMmapStart bareWorld := by
    rintro (other | wraps | failed)
    · exact other rfl
    · revert wraps
      decide
    · exact aimed failed
  exact ⟨w, .cons step (.nil w), fun unmixed => harmful ((pool_step bareWorld_pools step).2.mp unmixed).2⟩

end RealmVm
