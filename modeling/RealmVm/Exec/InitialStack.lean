import RealmVm.Elf.LoadRuns
import RealmVm.Elf.StaleFrames
import RealmVm.Exec.StackStores

/-! The stack that `create_new_process` leaves: what the process finds on it, and where it points. -/
namespace RealmVm

open Lib Lib.Bits Lib.Bytes

/- The bytes that the process reads, in the half of the addresses that TTBR0 translates; 0 where nothing is mapped. -/
def userView (m : Memory) (t : TranslationTables) : Word → Byte := fun va =>
  if va.toNat < 2 ^ 48 then (userByte m t va.toNat).getD 0 else 0

/-- The sizes that the call adds up, for one of the arrays. -/
def stringSizes (strings : List CString) : Nat := (strings.map fun s => 8 + s.strlen + 1).sum

/-- The bytes from the stack pointer to the end of the stack. -/
def layoutSize (argv envp : List CString) : Nat :=
  (stringSizes argv + stringSizes envp + (if envp = [] then 8 else 0) + 2 * 8 + 15) / 16 * 16 + 8

/- Address and length of the two tables and of all strings. -/
def stackAreas (p : UserProcess) (argv envp : List CString) (argPtrs envPtrs : List Word) : List (Word × Nat) :=
  (p.ctx.x 1, 8 * (argv.length + 1)) :: (p.ctx.x 2, 8 * (envp.length + 1)) ::
    (argPtrs ++ envPtrs).zip ((argv ++ envp).map fun s => s.strlen + 1)

/-- The stack encodes `argv` and `envp`. -/
structure InitialStack (m : Memory) (p : UserProcess) (argv envp : List CString) (argPtrs envPtrs : List Word) :
    Prop where
  mapped : ∀ n, p.ctx.sp.toNat ≤ n → n < p.stackBase.toNat → (userByte m p.t n).isSome
  count : p.ctx.x 0 = BitVec.ofNat 64 argv.length
  args : TableAt 8 (userView m p.t) (p.ctx.x 1) argPtrs (argv.map CString.copied)
  env : TableAt 8 (userView m p.t) (p.ctx.x 2) envPtrs (envp.map CString.copied)
  apart : (stackAreas p argv envp argPtrs envPtrs).Pairwise Apart
  inside : ∀ a ∈ stackAreas p argv envp argPtrs envPtrs,
    p.ctx.sp.toNat ≤ a.1.toNat ∧ a.1.toNat + a.2 ≤ p.stackBase.toNat

section Sizes

@[simp] theorem stringSizes_cons (s : CString) (strings : List CString) :
    stringSizes (s :: strings) = 8 + s.strlen + 1 + stringSizes strings := rfl

/-- Each string has its pointer and its bytes. -/
theorem stringSizes_eq (strings : List CString) :
    stringSizes strings = 8 * strings.length + totalLength (strings.map CString.copied) := by
  induction strings with
  | nil => rfl
  | cons s rest ih =>
    simp only [stringSizes_cons, List.length_cons, List.map_cons, totalLength_cons, CString.length_copied, ih]
    omega

theorem addStringSizes_eq (total : CInt) (strings : List CString) :
    addStringSizes total strings = total + BitVec.ofNat 32 (stringSizes strings) := by
  induction strings generalizing total with
  | nil => exact (BitVec.add_zero total).symm
  | cons s rest ih =>
    have first : addStringSizes total (s :: rest) = addStringSizes (total + BitVec.ofNat 32 (8 + s.strlen + 1)) rest :=
      rfl
    rw [first, ih, BitVec.add_assoc, ← BitVec.ofNat_add, stringSizes_cons]

/-- With counts and sizes that an `int` can hold, the sum is that of the lengths. -/
theorem totalCount_eq (argv envp : List CString) (few : argv.length < 2 ^ 31) (few' : envp.length < 2 ^ 31) :
    totalCount (some argv) (some envp) (BitVec.ofNat 32 argv.length) (BitVec.ofNat 32 envp.length) =
      BitVec.ofNat 32 (stringSizes argv + stringSizes envp + (if envp = [] then 8 else 0) + 2 * 8) := by
  have empty : BitVec.ofNat 32 envp.length = 0 ↔ envp = [] := by
    rw [← List.length_eq_zero_iff]
    constructor
    · intro zero
      have number := congrArg BitVec.toNat zero
      rw [BitVec.toNat_ofNat, Nat.mod_eq_of_lt (by omega)] at number
      exact number
    · intro zero
      rw [zero]
      rfl
  have sixteen : (2 * 8 : CInt) = BitVec.ofNat 32 (2 * 8) := rfl
  simp only [totalCount, upTo_length argv few, upTo_length envp few', addStringSizes_eq, empty, sixteen]
  cases envp with
  | nil =>
    simp only [if_true]
    bv_omega
  | cons s rest =>
    simp only [reduceCtorEq, if_false]
    bv_omega

/-- `(total_count + 15) & ~(0x0F)` -/
theorem space_eq {total : Nat} (small : total + 15 < 2 ^ 31) :
    BitVec.signExtend 64 ((BitVec.ofNat 32 total + 15) &&& ~~~0x0F) = BitVec.ofNat 64 ((total + 15) / 16 * 16) := by
  have rounded := toNat_and_not_mask (BitVec.ofNat 32 total + 15) 4
  have number : (BitVec.ofNat 32 total + 15).toNat = total + 15 := by bv_omega
  have sixteen : (2 : Nat) ^ 4 = 16 := rfl
  rw [number, sixteen] at rounded
  have mask : (BitVec.ofNat 32 (16 - 1)) = (0x0F : CInt) := rfl
  rw [mask] at rounded
  have whole : (BitVec.ofNat 32 total + 15) &&& ~~~(0x0F : CInt) = BitVec.ofNat 32 ((total + 15) / 16 * 16) := by
    apply BitVec.eq_of_toNat_eq
    rw [rounded, BitVec.toNat_ofNat, Nat.mod_eq_of_lt (by omega)]
  rw [whole]
  exact signExtend_count (by omega)

end Sizes

section Loaded

variable {call : LoadCall} {p p' : Process} {s s' : AddressSpace} {pool : Pool Word}

/-- `load_executable` leaves such a stack. -/
theorem loadExecutable_stackReady (ready : LoadReady call p s pool)
    (below : SegmentsBelow stackLow (call.segments s.memory))
    (returned : Returns (fun fuel => loadExecutable fuel call p s) (0, p', s')) :
    (∃ pages, StackReady s'.memory p' pages) ∧ p'.stackBase = 0x7ff000 ∧ p'.stackSize = 0x4000 := by
  have loads := loads_of_returns ready below returned
  obtain ⟨s₁, pool₁, pages₁, ran, loaded, fill, ends, room⟩ := ready.loads_segments below loads
  obtain ⟨s₂, pool₂, pages, again, stack, mapped, _⟩ :=
    loadExecutable_stackPages ready loads.executable rfl ran loaded fill ends room
  cases returned.unique again
  have own := stack.own (ready.withEntry _).start
  have backed := stack.backed
  have bounds : (0x7ff000 : Word).toNat = 0x7ff000 ∧ (0x4000 : Word).toNat = 0x4000 := by decide
  refine ⟨⟨pages, ?_⟩, rfl, rfl⟩
  constructor
  · exact ready.start.lower
  · exact backed
  · exact own
  · simp only [bounds.1]
    decide
  · simp only [bounds.1, bounds.2]
    decide
  · simp only [bounds.1, bounds.2]
    intro n low high
    obtain ⟨f, page⟩ := mapped (n / 4096) (by unfold stackLow; omega) (by unfold stackLow; omega)
    have writable : protW &&& protRw ≠ 0 := by decide
    exact ⟨(f, protRw), page, writable⟩

/- The process as it is before the call, and the string "a". -/
def bareUser (p : Process) : UserProcess := { p with pid := 0, cmdLine := 0, ctx := ⟨0, fun _ => 0, 0⟩ }

theorem argA_noZero : (0 : Byte) ∉ [0x61] := by decide

def argA : CString := ⟨[0x61], argA_noZero⟩

/-- With the small file there is such a process. -/
theorem small_stackReady : ∃ p s pages, Returns (fun fuel => loadExecutable fuel smallLoad smallProcess (smallSpace 8))
    (0, p, s) ∧ StackReady s.memory p pages ∧ p.stackBase = 0x7ff000 ∧ p.stackSize = 0x4000 := by
  have segments := smallFile_segments.1
  have ready := smallSpace_ready 8
  have frames := (smallSegment_order 8 (by decide)).2
  have below : SegmentsBelow stackLow (smallLoad.segments (smallSpace 8).memory) := by
    rw [segments]
    exact ⟨List.pairwise_singleton .., List.forall_mem_singleton.mpr (by decide)⟩
  have loads : smallLoad.Loads (smallSpace 8).memory smallPool := by
    constructor
    · decide +kernel
    · rw [segments]
      exact List.forall_mem_singleton.mpr ⟨by decide, by decide⟩
    · rw [segments]
      exact frames
  obtain ⟨p, s, returned⟩ := loadExecutable_loads ready below loads
  obtain ⟨⟨pages, stack⟩, base, size⟩ := loadExecutable_stackReady ready below returned
  exact ⟨p, s, pages, returned, stack, base, size⟩

end Loaded

section Encodes

variable {m m' : Memory} {p p' : UserProcess} {pages : PageMap} {argv envp : List CString} {base : Word}

/-- Both views of the process are the same. -/
theorem Backed.userView_eq {t : TranslationTables} (backed : Backed m t pages) (lower : t.startVa = 0) :
    userView m t = pageView m pages := by
  funext va
  by_cases near : va.toNat < 2 ^ 48
  · rw [userView, if_pos near, backed.userByte_eq lower near, pageView]
  · rw [userView, if_neg near, pageView, pageByte]
    cases found : pages (va.toNat / 4096) with
    | none => rfl
    | some x =>
      have low := (backed.frames _ x found).1
      omega

/-- All that the call stores, by its place from the stack pointer on. -/
def allStores (base : Word) (argv envp : List CString) : List (Nat × List Byte) :=
  stackStores base argv envp ++ [(0, encode 4 (BitVec.ofNat 32 argv.length : CInt).toNat)]

/-- On a stack that has room for them the call stores them all. -/
theorem createNewProcess_spec (ready : StackReady m p.toProcess pages) (ttbr1 : Word) (some : argv ≠ [])
    (fits : layoutSize argv envp ≤ p.stackSize.toNat) :
    ∃ p' m', createNewProcess m ttbr1 p (Option.some argv) (Option.some envp) = Option.some (0, p', m') ∧
      p'.toProcess = p.toProcess ∧ p'.ctx.sp.toNat + layoutSize argv envp = p.stackBase.toNat ∧
      p'.ctx.x 0 = BitVec.ofNat 64 argv.length ∧ p'.ctx.x 1 = p'.ctx.sp + BitVec.ofNat 64 8 ∧
      p'.ctx.x 2 = p'.ctx.sp + BitVec.ofNat 64 (8 + 8 * (argv.length + 1)) ∧
      Stores m m' p.t pages p'.ctx.sp (allStores p'.ctx.sp argv envp) := by
  have top := ready.top
  have room := ready.room
  have sizes := stringSizes_eq argv
  have sizes' := stringSizes_eq envp
  have positive : 0 < argv.length := List.length_pos_iff.mpr some
  obtain ⟨total, count⟩ : ∃ total, total = stringSizes argv + stringSizes envp + (if envp = [] then 8 else 0) + 2 * 8 :=
    ⟨_, rfl⟩
  have layout : layoutSize argv envp = (total + 15) / 16 * 16 + 8 := by rw [layoutSize, ← count]
  have small : total + 15 < 2 ^ 31 := by omega
  have few : argv.length < 2 ^ 31 := by omega
  have few' : envp.length < 2 ^ 31 := by omega
  have counted := totalCount_eq argv envp few few'
  rw [← count] at counted
  have going : ¬ (BitVec.ofNat 32 argv.length : CInt).sle 0 := by
    rw [BitVec.sle_iff_toInt_le, toInt_count few]
    show ¬ (argv.length : Int) ≤ 0
    omega
  have space : BitVec.signExtend 64 ((BitVec.ofNat 32 total + 15) &&& ~~~0x0F) =
      BitVec.ofNat 64 ((total + 15) / 16 * 16) :=
    space_eq small
  obtain ⟨sp, pointer⟩ : ∃ sp, sp = p.stackBase - BitVec.ofNat 64 ((total + 15) / 16 * 16) - 8 := ⟨_, rfl⟩
  have place : sp.toNat + layoutSize argv envp = p.stackBase.toNat := by
    rw [pointer, layout]
    bv_omega
  have ptr : p.stackBase - BitVec.ofNat 64 ((total + 15) / 16 * 16) = sp + 8 := by
    rw [pointer]
    exact (BitVec.sub_add_cancel _ _).symm
  have low : p.stackBase.toNat - p.stackSize.toNat ≤ sp.toNat := by omega
  have high : sp.toNat + stringsPlace argv envp + totalLength (argv.map CString.copied) +
      totalLength (envp.map CString.copied) ≤ p.stackBase.toNat := by
    unfold stringsPlace
    omega
  obtain ⟨m₁, tables, stored⟩ := storeTables_spec ready ttbr1 argv envp ready.backed (by omega) low high
  have width : (encode 4 (BitVec.ofNat 32 argv.length : CInt).toNat).length = 4 := length_encode 4 _
  have inside : sp.toNat + 0 + (encode 4 (BitVec.ofNat 32 argv.length : CInt).toNat).length ≤ p.stackBase.toNat := by
    omega
  obtain ⟨m₂, counter, last⟩ := storeBytes_at ready ttbr1 _ stored.backed low inside
  have start : sp + BitVec.ofNat 64 0 = sp := BitVec.add_zero sp
  have back : sp + 8 - 8 = sp := BitVec.add_sub_cancel sp 8
  have second : stringSlot (sp + 8) (BitVec.ofNat 32 argv.length + 1) =
      sp + BitVec.ofNat 64 (8 + 8 * (argv.length + 1)) := by
    have next : BitVec.ofNat 32 argv.length + 1 = BitVec.ofNat 32 (argv.length + 1) := (BitVec.ofNat_add ..).symm
    rw [next, stringSlot_at sp (by omega)]
  have widened := signExtend_count few
  rw [start] at counter
  refine ⟨{ p with
    ctx := ⟨p.entry, Function.update (Function.update (Function.update p.ctx.x 0 (BitVec.ofNat 64 argv.length)) 1
      (sp + 8)) 2 (sp + BitVec.ofNat 64 (8 + 8 * (argv.length + 1))), sp⟩
    cmdLine := sp + 8 }, m₂, ?_, rfl, place, rfl, rfl, rfl, stored.append last⟩
  simp only [createNewProcess, checkAndGetCount, if_neg going, counted, space, ptr, tables, back, counter,
    widened, second]

/-- The stores lie between the stack pointer and the end of the layout. -/
theorem allStores_inside (base : Word) (argv envp : List CString) {s : Nat × List Byte}
    (member : s ∈ allStores base argv envp) : s.1 + s.2.length ≤ layoutSize argv envp := by
  have sizes := stringSizes_eq argv
  have sizes' := stringSizes_eq envp
  have length : (argv.map CString.copied).length = argv.length := List.length_map ..
  have length' : (envp.map CString.copied).length = envp.length := List.length_map ..
  unfold layoutSize
  rcases List.mem_append.mp member with tables | last
  · rcases List.mem_append.mp tables with first | second
    · have inside := tableStores_inside first
      rw [length, stringsPlace] at inside
      omega
    · have inside := tableStores_inside second
      rw [length', stringsPlace] at inside
      omega
  · obtain rfl := List.mem_singleton.mp last
    simp only [length_encode]
    omega

/-- No two of them meet. -/
theorem allStores_apart (base : Word) (argv envp : List CString) :
    (allStores base argv envp).Pairwise fun s t => AreasApart (s.1, s.2.length) (t.1, t.2.length) := by
  have length : (argv.map CString.copied).length = argv.length := List.length_map ..
  have length' : (envp.map CString.copied).length = envp.length := List.length_map ..
  refine List.pairwise_append.mpr ⟨List.pairwise_append.mpr ⟨?_, ?_, ?_⟩, List.pairwise_singleton .., ?_⟩
  · apply tableStores_apart
    rw [length, stringsPlace]
    omega
  · apply tableStores_apart
    rw [length', stringsPlace]
    omega
  · intro s first t second
    have inside := tableStores_inside first
    have inside' := tableStores_inside second
    rw [length, stringsPlace] at inside
    rw [length', stringsPlace] at inside'
    unfold AreasApart
    simp only
    omega
  · intro s tables t last
    obtain rfl := List.mem_singleton.mp last
    right
    simp only [length_encode]
    rcases List.mem_append.mp tables with first | second
    · have inside := tableStores_inside first
      rw [length, stringsPlace] at inside
      omega
    · have inside := tableStores_inside second
      rw [length', stringsPlace] at inside
      omega

/-- What is stored apart is there afterwards. -/
theorem Stores.read {t : TranslationTables} {stores : List (Nat × List Byte)} (stored : Stores m m' t pages base stores)
    (apart : stores.Pairwise fun s t => AreasApart (s.1, s.2.length) (t.1, t.2.length))
    (fits : ∀ s ∈ stores, s.1 + s.2.length ≤ 2 ^ 64) :
    ∀ s ∈ stores, bytesAt (pageView m' pages) (base + BitVec.ofNat 64 s.1) s.2.length = s.2 := by
  intro s member
  rw [stored.view]
  apply bytesAt_storeAll _ (List.mem_map_of_mem member)
  · have inside := fits s member
    simp only
    omega
  · rw [List.pairwise_map]
    apply apart.imp_of_mem
    intro a b first second order
    exact span_apart base order (fits a first) (fits b second)

/-- The tables and the strings by their places. -/
def areaPlaces (argv envp : List CString) : List (Nat × Nat) :=
  (8, 8 * (argv.length + 1)) :: (8 + 8 * (argv.length + 1), 8 * (envp.length + 1)) ::
    itemAreas (stringsPlace argv envp) ((argv ++ envp).map CString.copied)

/-- The strings lie behind the tables. -/
theorem strings_inside {a : Nat × Nat}
    (member : a ∈ itemAreas (stringsPlace argv envp) ((argv ++ envp).map CString.copied)) :
    stringsPlace argv envp ≤ a.1 ∧ a.1 + a.2 ≤ layoutSize argv envp := by
  have inside := itemAreas_inside member
  have sizes := stringSizes_eq argv
  have sizes' := stringSizes_eq envp
  have total : totalLength ((argv ++ envp).map CString.copied) =
      totalLength (argv.map CString.copied) + totalLength (envp.map CString.copied) := by
    rw [List.map_append, totalLength, List.map_append, List.sum_append]
    rfl
  rw [total] at inside
  refine ⟨inside.1, ?_⟩
  unfold stringsPlace at inside
  unfold layoutSize
  omega

theorem areaPlaces_inside {a : Nat × Nat} (member : a ∈ areaPlaces argv envp) : a.1 + a.2 ≤ layoutSize argv envp := by
  have sizes := stringSizes_eq argv
  have sizes' := stringSizes_eq envp
  rcases List.mem_cons.mp member with rfl | member
  · simp only [layoutSize]
    omega
  · rcases List.mem_cons.mp member with rfl | member
    · simp only [layoutSize]
      omega
    · exact (strings_inside member).2

theorem areaPlaces_apart (argv envp : List CString) : (areaPlaces argv envp).Pairwise AreasApart := by
  have behind : ∀ a ∈ itemAreas (stringsPlace argv envp) ((argv ++ envp).map CString.copied),
      8 + 8 * (argv.length + 1) + 8 * (envp.length + 1) ≤ a.1 := by
    intro a member
    have first := (strings_inside member).1
    unfold stringsPlace at first
    omega
  refine .cons (fun a member => ?_) (.cons (fun a member => ?_) (itemAreas_apart _ _))
  · left
    rcases List.mem_cons.mp member with rfl | member
    · exact Nat.le_refl _
    · have first := behind a member
      simp only
      omega
  · exact .inl (behind a member)

/-- The pointers of both tables. -/
def argPtrs (base : Word) (argv envp : List CString) : List Word :=
  (itemAreas (stringsPlace argv envp) (argv.map CString.copied)).map fun a => base + BitVec.ofNat 64 a.1

def envPtrs (base : Word) (argv envp : List CString) : List Word :=
  (itemAreas (stringsPlace argv envp + totalLength (argv.map CString.copied)) (envp.map CString.copied)).map
    fun a => base + BitVec.ofNat 64 a.1

theorem stackAreas_eq (envp : List CString) (first : p.ctx.x 1 = base + BitVec.ofNat 64 8)
    (second : p.ctx.x 2 = base + BitVec.ofNat 64 (8 + 8 * (argv.length + 1))) :
    stackAreas p argv envp (argPtrs base argv envp) (envPtrs base argv envp) =
      (areaPlaces argv envp).map fun a => (base + BitVec.ofNat 64 a.1, a.2) := by
  have pointers : argPtrs base argv envp ++ envPtrs base argv envp =
      (itemAreas (stringsPlace argv envp) ((argv ++ envp).map CString.copied)).map
        fun a => base + BitVec.ofNat 64 a.1 := by
    rw [List.map_append, itemAreas_append, List.map_append]
    rfl
  have lengths : (argv ++ envp).map (fun s => s.strlen + 1) =
      ((argv ++ envp).map CString.copied).map List.length := by
    rw [List.map_map]
    apply List.map_congr_left
    intro s _
    exact s.length_copied.symm
  rw [stackAreas, areaPlaces, first, second, pointers, lengths, ← itemAreas_zip]
  rfl

/-- With room for the whole layout, the stack encodes the arguments and the environment. -/
theorem createNewProcess_encodes (ready : StackReady m p.toProcess pages) (ttbr1 : Word) (some : argv ≠ [])
    (fits : layoutSize argv envp ≤ p.stackSize.toNat) :
    ∃ p' m' argPtrs envPtrs, createNewProcess m ttbr1 p (Option.some argv) (Option.some envp) =
      Option.some (0, p', m') ∧ InitialStack m' p' argv envp argPtrs envPtrs := by
  obtain ⟨p', m', returned, same, place, count, first, second, stored⟩ := createNewProcess_spec ready ttbr1 some fits
  have top := ready.top
  have room := ready.room
  have tables : p'.t = p.t := congrArg Process.t same
  have base : p'.stackBase = p.stackBase := congrArg Process.stackBase same
  have backed : Backed m' p'.t pages := tables ▸ stored.backed
  have lower : p'.t.startVa = 0 := tables ▸ ready.lower
  have view := backed.userView_eq lower
  have reads := stored.read (allStores_apart _ argv envp) fun s member =>
    Nat.le_trans (allStores_inside _ argv envp member) (by omega)
  have width : (2 : Nat) ^ 64 = 256 ^ 8 := rfl
  obtain ⟨both, _⟩ := List.forall_mem_append.mp reads
  obtain ⟨one, two⟩ := List.forall_mem_append.mp both
  have areas := stackAreas_eq envp first second
  have address (a : Nat × Nat) (member : a ∈ areaPlaces argv envp) :
      (p'.ctx.sp + BitVec.ofNat 64 a.1).toNat = p'.ctx.sp.toNat + a.1 := by
    have inside := areaPlaces_inside member
    bv_omega
  refine ⟨p', m', argPtrs p'.ctx.sp argv envp, envPtrs p'.ctx.sp argv envp, returned, ?_, count, ?_, ?_, ?_, ?_⟩
  · intro n low high
    rw [base] at high
    obtain ⟨x, page, _⟩ := ready.mapped n (by omega) high
    rw [backed.userByte_eq lower (by omega), pageByte, page]
    rfl
  · rw [view, first]
    exact tableStores_read width one
  · rw [view, second]
    exact tableStores_read width two
  · rw [areas, List.pairwise_map]
    apply (areaPlaces_apart argv envp).imp_of_mem
    intro a b here there order
    unfold Apart
    rw [address a here, address b there]
    unfold AreasApart at order
    omega
  · rw [areas]
    intro a member
    obtain ⟨place', here, rfl⟩ := List.mem_map.mp member
    have inside := areaPlaces_inside here
    rw [address place' here, base]
    omega

/-- One argument and one string in the environment. -/
theorem createNewProcess_encodes_small : ∃ p s p' m' argPtrs envPtrs,
    Returns (fun fuel => loadExecutable fuel smallLoad smallProcess (smallSpace 8)) (0, p, s) ∧
      createNewProcess s.memory smallLoad.ttbr1 (bareUser p) (some [argA]) (some [argA]) = some (0, p', m') ∧
      InitialStack m' p' [argA] [argA] argPtrs envPtrs := by
  obtain ⟨p, s, pages, loaded, ready, base, size⟩ := small_stackReady
  have user : StackReady s.memory (bareUser p).toProcess pages := ready
  have room : (bareUser p).stackSize.toNat = 0x4000 := congrArg BitVec.toNat size
  have fits : layoutSize [argA] [argA] ≤ (bareUser p).stackSize.toNat := room ▸ by decide
  obtain ⟨p', m', argPtrs, envPtrs, returned, stack⟩ :=
    createNewProcess_encodes user smallLoad.ttbr1 (List.cons_ne_nil argA []) fits
  exact ⟨p, s, p', m', argPtrs, envPtrs, loaded, returned, stack⟩

end Encodes

section Usable

/-- What is stored in memory, the process has in its stack. -/
def StoredInStack (m m' : Memory) (ttbr1 : Word) (p : Process) : Prop :=
  ∀ a, WordBytes.byte m'.word a ≠ WordBytes.byte m.word a → ∃ va : Word,
    p.stackBase.toNat - p.stackSize.toNat ≤ va.toNat ∧ va.toNat < p.stackBase.toNat ∧
      Mmu.translate ⟨m.word, p.t.pgd, ttbr1⟩ va = some a

/-- The call refuses and stores nothing, or it leaves a stack pointer that EL0 may use, with nothing stored
elsewhere. -/
def StackUsable (m : Memory) (ttbr1 : Word) (p : UserProcess) (argv envp : StringArray) : Prop :=
  ∃ ret p' m', createNewProcess m ttbr1 p argv envp = some (ret, p', m') ∧
    (ret < 0 ∧ m' = m ∨ p'.ctx.sp.toNat % 16 = 0 ∧ StoredInStack m m' ttbr1 p.toProcess)

/-- No array, an empty one, or one with more strings than an `int` counts. -/
def NoArguments (argv : StringArray) : Prop :=
  argv.strings.length % 2 ^ 32 = 0 ∨ 2 ^ 31 ≤ argv.strings.length % 2 ^ 32

instance (argv : StringArray) : Decidable (NoArguments argv) := inferInstanceAs (Decidable (_ ∨ _))

variable {m m' : Memory} {ttbr1 : Word} {p p' : UserProcess} {argv envp : StringArray} {ret : Int}

theorem checkAndGetCount_le_iff : (checkAndGetCount argv).sle 0 ↔ NoArguments argv := by
  cases argv with
  | none => simp [checkAndGetCount, NoArguments, StringArray.strings, einval]
  | some strings =>
    have number : (checkAndGetCount (some strings)).toNat = strings.length % 2 ^ 32 := BitVec.toNat_ofNat ..
    have zero : (0 : CInt).toInt = 0 := rfl
    rw [BitVec.sle_iff_toInt_le, NoArguments, StringArray.strings, Option.getD_some, BitVec.toInt, number, zero]
    omega

theorem signExtend_rounded (x : CInt) : (BitVec.signExtend 64 (x &&& ~~~0x0F)).toNat % 16 = 0 := by
  have rounded : (x &&& ~~~0x0F).toNat = x.toNat / 16 * 16 := toNat_and_not_mask x 4
  rw [BitVec.toNat_signExtend, BitVec.toNat_setWidth, rounded]
  split <;> omega

/-- A call that goes on returns 0. Its two steps below the rounded size leave the pointer 8 below a multiple of 16. -/
theorem createNewProcess_sp (returned : createNewProcess m ttbr1 p argv envp = some (ret, p', m'))
    (arguments : ¬ NoArguments argv) :
    ret = 0 ∧ ∃ space : Word, space.toNat % 16 = 0 ∧ p'.ctx.sp = p.stackBase - space - 8 := by
  rw [createNewProcess, if_neg (fun low => arguments (checkAndGetCount_le_iff.mp low))] at returned
  obtain ⟨space, same⟩ : ∃ space, space = BitVec.signExtend 64
      ((totalCount argv envp (checkAndGetCount argv) (checkAndGetCount envp) + 15) &&& ~~~0x0F) := ⟨_, rfl⟩
  simp only [← same] at returned
  cases tables : m.storeTables p.t.pgd ttbr1 (p.stackBase - space) argv envp (checkAndGetCount argv)
      (checkAndGetCount envp) with
  | none =>
    rw [tables] at returned
    cases returned
  | some m₁ =>
    rw [tables] at returned
    cases counter : m₁.storeBytes p.t.pgd ttbr1 (p.stackBase - space - 8)
        (encode 4 (checkAndGetCount argv).toNat) with
    | none =>
      simp only [counter] at returned
      cases returned
    | some m₂ =>
      simp only [counter] at returned
      cases returned
      exact ⟨rfl, space, same ▸ signExtend_rounded _, rfl⟩

/-- Only where it refuses does the call leave a usable stack: the stack pointer is never aligned. -/
theorem stackUsable_iff (aligned : p.stackBase.toNat % 16 = 0) :
    StackUsable m ttbr1 p argv envp ↔ NoArguments argv := by
  constructor
  · rintro ⟨ret, p', m', returned, usable⟩
    by_contra arguments
    obtain ⟨rfl, space, rounded, pointer⟩ := createNewProcess_sp returned arguments
    rcases usable with refused | usable
    · exact absurd refused.1 (by decide)
    · have sp := usable.1
      rw [pointer] at sp
      bv_omega
  · intro none
    refine ⟨-einval, p, m, ?_, .inl ⟨by decide, rfl⟩⟩
    rw [createNewProcess, if_pos (checkAndGetCount_le_iff.mpr none)]

theorem stackUsable_refused : StackUsable ⟨fun _ => 0, id⟩ 0
    (bareUser ⟨smallTables, 0x80C00, 0x1000, 0x7ff000, 0x4000⟩) none none :=
  (stackUsable_iff (by decide)).mpr (by decide)

/-- One argument and no environment, on the stack of a loaded process: it returns 0, and the pointer is not aligned. -/
theorem stack_pointer_misaligned : ∃ p s p' m',
    Returns (fun fuel => loadExecutable fuel smallLoad smallProcess (smallSpace 8)) (0, p, s) ∧
      createNewProcess s.memory smallLoad.ttbr1 (bareUser p) (some [argA]) (some []) = some (0, p', m') ∧
      p'.ctx.sp.toNat % 16 = 8 ∧ ¬ StackUsable s.memory smallLoad.ttbr1 (bareUser p) (some [argA]) (some []) := by
  obtain ⟨p, s, pages, loaded, ready, base, size⟩ := small_stackReady
  have user : StackReady s.memory (bareUser p).toProcess pages := ready
  have layout : layoutSize [argA] [] = 56 := by decide
  have room : (bareUser p).stackSize.toNat = 0x4000 := congrArg BitVec.toNat size
  have top : (bareUser p).stackBase.toNat = 0x7ff000 := congrArg BitVec.toNat base
  have fits : layoutSize [argA] [] ≤ (bareUser p).stackSize.toNat := layout ▸ room ▸ by decide
  obtain ⟨p', m', returned, _, place, _⟩ :=
    createNewProcess_spec user smallLoad.ttbr1 (List.cons_ne_nil argA []) fits
  have pointer : p'.ctx.sp.toNat + 56 = 0x7ff000 := layout ▸ top ▸ place
  refine ⟨p, s, p', m', loaded, returned, by omega, ?_⟩
  rintro ⟨ret, p'', m'', again, usable⟩
  rw [returned] at again
  cases again
  rcases usable with refused | usable
  · exact absurd refused.1 (by decide)
  · have aligned := usable.1
    omega

end Usable

end RealmVm
