import RealmVm.Elf.StaleFrames
import RealmVm.Lib.Run
import RealmVm.Vma.MmapPools

/-! Several processes over one memory and one frame allocator. Whatever they map and store, in any
order, no frame is in two of their pages, and none of them sees the stores of another. -/
namespace RealmVm

open Lib

variable {ι : Type}

/- `block` is what `kcalloc` returns for the region of a call. `store` is a store of one byte by the
process or by the kernel on its behalf, `protect` the call of `page_table_map_user` with the
physical address of a page that is there already, with which `load_executable` takes write access back. -/
inductive ProcessAct (ι : Type) where
  | mmap (i : ι) (block address size : Word) (prot flags : CInt)
  | store (i : ι) (el : El) (va : Word) (b : Byte)
  | copyToUser (i : ι) (dst src count : Word)
  | protect (i : ι) (va : Word) (prot : CInt)

def ProcessAct.owner : ProcessAct ι → ι
  | .mmap i _ _ _ _ _ => i
  | .store i _ _ _ => i
  | .copyToUser i _ _ _ => i
  | .protect i _ _ => i

/-- The act puts bytes into pages. -/
def ProcessAct.Writes : ProcessAct ι → Prop
  | .store _ _ _ _ => True
  | .copyToUser _ _ _ _ => True
  | _ => False

/- Only the first 8 MB have level-3 tables. -/
def InWindow (size : Word) (target : Option (Word × Word)) : Prop :=
  ∀ region vaBase, target = some (region, vaBase) →
    vaBase.toNat % 4096 = 0 ∧ vaBase.toNat + 4096 * (pageUp size / pageSize4KB).toNat ≤ 2 ^ 23

section Step

/- The tables and the list of regions of each process; what `mmap_start`, TTBR1 and the attributes in PAR_EL1 hold. -/
variable (t : ι → TranslationTables) (head : ι → Word) (mmapStart ttbr1 attributes : Word)

/-- One act that the kernel comes back from, with the tables of the process in TTBR0. -/
inductive ProcessStep : AddressSpace → ProcessAct ι → AddressSpace → Prop where
  | mmap {s s' : AddressSpace} {i : ι} {block address size ret : Word} {prot flags : CInt}
      {target : Option (Word × Word)} :
      Returns (fun fuel => sysMmapUser fuel s (t i) (head i) mmapStart block address size prot flags) (ret, s') →
      Returns (fun fuel => mmapTarget fuel s.regions (head i) mmapStart block address size flags) target →
      InWindow size target → ProcessStep s (.mmap i block address size prot flags) s'
  | store {s : AddressSpace} {i : ι} {el : El} {va a : Word} {b : Byte} : va.toNat < 2 ^ 48 →
      Mmu.permits ⟨s.memory.word, (t i).pgd, ttbr1⟩ el true va = true →
      Mmu.translate ⟨s.memory.word, (t i).pgd, ttbr1⟩ va = some a →
      ProcessStep s (.store i el va b)
        { s with memory := { s.memory with word := WordBytes.setByte s.memory.word a b } }
  | copyToUser {s : AddressSpace} {i : ι} {dst src count ret : Word} {memory : Memory} : dst.toNat < 2 ^ 48 →
      s.memory.copyToUser (t i).pgd ttbr1 dst src count = some (ret, memory) →
      ProcessStep s (.copyToUser i dst src count) { s with memory := memory }
  | protect {s : AddressSpace} {i : ι} {va : Word} {prot ret : CInt} {memory : Memory} : va.toNat < 2 ^ 48 →
      va.toNat % 4096 = 0 →
      Mmu.permits ⟨s.memory.word, (t i).pgd, ttbr1⟩ .el1 false va = true →
      pageTableMapUser s.memory (t i) va
        (getPhysicalAddress ⟨Mmu.parEl1 ⟨s.memory.word, (t i).pgd, ttbr1⟩ attributes, 0⟩ va) prot =
          some (ret, memory) →
      ProcessStep s (.protect i va prot) { s with memory := memory }

/-- No process has a page yet. Their tables are apart from each other and from the frames. -/
structure FreshProcesses (s : AddressSpace) (pool : Pool Word) : Prop where
  lower : ∀ i, (t i).startVa = 0
  laid : ∀ i, LaidOut s.memory (t i) userPages
  empty : ∀ i, NoValidEntry s.memory (t i)
  writable : ∀ i l, l ≠ .pt3 → ∀ n < userPages l * 512, (entry s.memory (t i) l n).getLsbD 62 = false
  apart : ∀ i j, i ≠ j → ∀ l k, ((t i).base l).toNat + userPages l * 4096 ≤ ((t j).base k).toNat ∨
    ((t j).base k).toNat + userPages k * 4096 ≤ ((t i).base l).toNat
  tracks : Tracks s.frames pool
  physical : s.frames.frameStart.toNat + s.frames.frameCount.toNat * 4096 ≤ 2 ^ 48
  frames : ∀ f ∈ pool.free, ∀ i l,
    f.toNat + 4096 ≤ ((t i).base l).toNat ∨ ((t i).base l).toNat + userPages l * 4096 ≤ f.toNat

/-- The pages of all processes together: each has a frame of its own, which is not free any more. -/
structure Separated (pool₀ : Pool Word) (s₀ s : AddressSpace) (pool : Pool Word) (pages : ι → PageMap) : Prop where
  backed : ∀ i, Backed s.memory (t i) (pages i)
  tracks : Tracks s.frames pool
  arena : s.frames.frameStart = s₀.frames.frameStart ∧ s.frames.frameCount = s₀.frames.frameCount
  free : pool.free ⊆ pool₀.free
  given : ∀ i q x, pages i q = some x → x.1 ∈ pool₀.free ∧ x.1 ∉ pool.free
  distinct : ∀ i j q r x y, pages i q = some x → pages j r = some y → x.1 = y.1 → i = j ∧ q = r

/-- Every frame that is free or holds a page of `j` has the content it had in `m`. -/
def Untouched (m : Memory) (j : ι) (s : AddressSpace) (pool : Pool Word) (pages : ι → PageMap) : Prop :=
  ∀ f, (f ∈ pool.free ∨ ∃ q x, pages j q = some x ∧ x.1 = f) → ∀ a, InFrame f a → s.memory.word a = m.word a

end Step

section Kept

variable {t : ι → TranslationTables} {head : ι → Word} {mmapStart ttbr1 attributes : Word} {s₀ s s' : AddressSpace}
  {pool₀ pool pool' : Pool Word} {pages : ι → PageMap} {m : Memory} {i j : ι}

theorem FreshProcesses.frame (fresh : FreshProcesses t s₀ pool₀) {f : Word} (free : f ∈ pool₀.free) :
    f.toNat % 4096 = 0 ∧ f.toNat + 4096 ≤ 2 ^ 48 :=
  frame_spec fresh.tracks fresh.physical free

/-- No frame holds an entry of a table. -/
theorem FreshProcesses.frame_elsewhere (fresh : FreshProcesses t s₀ pool₀) {f a : Word} (free : f ∈ pool₀.free)
    (inside : InFrame f a) (i : ι) : Elsewhere (t i) userPages a := by
  intro l n small same
  have place := (fresh.laid i).entryAddress_toNat small
  have apart := fresh.frames f free i l
  rw [← same] at place
  unfold InFrame at inside
  omega

theorem FreshProcesses.entry_elsewhere (fresh : FreshProcesses t s₀ pool₀) (other : i ≠ j) {l : Level} {n : Nat}
    (small : n < userPages l * 512) :
    Elsewhere (t i) userPages (entryAddress ((t j).base l) (BitVec.ofNat 64 n)) := by
  intro k p inside same
  have first := (fresh.laid j).entryAddress_toNat small
  have second := (fresh.laid i).entryAddress_toNat inside
  have apart := fresh.apart i j other k l
  rw [same] at first
  omega

theorem FreshProcesses.frames_apart (fresh : FreshProcesses t s₀ pool₀) {f g a : Word} (first : f ∈ pool₀.free)
    (second : g ∈ pool₀.free) (inF : InFrame f a) (inG : InFrame g a) : f = g := by
  have alignedF := (fresh.frame first).1
  have alignedG := (fresh.frame second).1
  unfold InFrame at inF inG
  apply BitVec.eq_of_toNat_eq
  omega

theorem FreshProcesses.separated (fresh : FreshProcesses t s₀ pool₀) :
    Separated t pool₀ s₀ s₀ pool₀ fun _ _ => none :=
  ⟨fun i => Backed.empty (fresh.laid i) (fresh.empty i) (fresh.writable i), fresh.tracks, ⟨rfl, rfl⟩,
    Finset.Subset.refl _, fun _ _ x page => (Option.some_ne_none x page.symm).elim,
    fun _ _ _ _ x _ page => (Option.some_ne_none x page.symm).elim⟩

/-- What a process finds at an address lies in one of the frames. -/
theorem Separated.translated (fresh : FreshProcesses t s₀ pool₀) (separated : Separated t pool₀ s₀ s pool pages)
    {va a : Word} (lower : va.toNat < 2 ^ 48) (found : walk s.memory.word (t i).pgd va = some a) :
    ∃ x, pages i (pageNumber va) = some x ∧ InFrame x.1 a ∧ x.1 ∈ pool₀.free := by
  rw [(separated.backed i).walk_eq (fresh.lower i) lower] at found
  obtain ⟨x, page, rfl⟩ := Option.map_eq_some_iff.mp found
  obtain ⟨_, aligned, output⟩ := (separated.backed i).frames _ x page
  have place : (x.1 + BitVec.ofNat 64 (va.toNat % 4096)).toNat = x.1.toNat + va.toNat % 4096 := by bv_omega
  refine ⟨x, page, ?_, (separated.given i _ x page).1⟩
  unfold InFrame
  omega

theorem Mmu.translate_lower (separated : Separated t pool₀ s₀ s pool pages) {va : Word} (lower : va.toNat < 2 ^ 48) :
    Mmu.translate ⟨s.memory.word, (t i).pgd, ttbr1⟩ va = walk s.memory.word (t i).pgd va := by
  rw [Mmu.translate, (separated.backed i).root ttbr1 lower, Option.bind_some]

/-- `generic_mmap` for a process, once it has decided on a base: the pages from there on get frames. -/
theorem startMapping_backed {fuel : Nat} {u : TranslationTables} {own : PageMap} {region first vaBase size r : Word}
    {prot : CInt} (start : u.startVa = 0) (backed : Backed s.memory u own) (tracks : Tracks s.frames pool)
    (physical : s.frames.frameStart.toNat + s.frames.frameCount.toNat * 4096 ≤ 2 ^ 48)
    (aligned : vaBase.toNat % 4096 = 0)
    (inside : vaBase.toNat + 4096 * (size / pageSize4KB).toNat ≤ 2 ^ 23)
    (ran : startMapping fuel s u first region vaBase 0 1 size (Wrapper.user.flags prot) = some (r, s')) :
    ∃ pool' own', PagesAdded u prot (pageNumber vaBase) (size / pageSize4KB).toNat (s.memory, s.frames)
      (s'.memory, s'.frames) pool pool' own own' := by
  have zero : BitVec.ofNat 64 (4096 * 0) = (0 : Word) := rfl
  unfold startMapping at ran
  split at ran
  · cases ran
  · rename_i after mapped
    have enough : (size / pageSize4KB).toNat ≤ pool.free.card := by
      by_contra few
      rw [mapPages_none (size / pageSize4KB).toNat 0 (by exact tracks) (Nat.lt_of_not_le few)] at mapped
      cases mapped
    obtain ⟨s₁, pool', own', looped, _, added⟩ := mapPages_backed start aligned prot (size / pageSize4KB).toNat 0
      (s := { s with regions := s.regions.record region vaBase 0 1 size (Wrapper.user.flags prot) }) backed tracks
      physical enough (by rw [Nat.zero_add]; exact inside)
    rw [zero, mapped] at looped
    obtain rfl := Option.some.inj looped
    have kept : s'.memory = after.memory ∧ s'.frames = after.frames := by
      split at ran
      · obtain ⟨_, rfl⟩ := Prod.mk.inj (Option.some.inj ran)
        exact ⟨rfl, rfl⟩
      · split at ran
        · cases ran
        · obtain ⟨_, rfl⟩ := Prod.mk.inj (Option.some.inj ran)
          exact ⟨rfl, rfl⟩
    rw [kept.1, kept.2]
    exact ⟨pool', own', added⟩

/-- A call of `sys_mmap_user` that returns has done nothing, or has added pages. -/
theorem sysMmapUser_added {u : TranslationTables} {own : PageMap} {first block address size ret : Word}
    {prot flags : CInt} {target : Option (Word × Word)} (start : u.startVa = 0) (backed : Backed s.memory u own)
    (tracks : Tracks s.frames pool)
    (physical : s.frames.frameStart.toNat + s.frames.frameCount.toNat * 4096 ≤ 2 ^ 48)
    (ran : Returns (fun fuel => sysMmapUser fuel s u first mmapStart block address size prot flags) (ret, s'))
    (aimed : Returns (fun fuel => mmapTarget fuel s.regions first mmapStart block address size flags) target)
    (window : InWindow size target) :
    s' = s ∨ ∃ base n pool' own', PagesAdded u prot base n (s.memory, s.frames) (s'.memory, s'.frames) pool pool'
      own own' := by
  obtain ⟨n, returns⟩ := ran
  obtain ⟨k, decides⟩ := aimed
  have result := returns (max n k + 1) (by omega)
  have found := decides (max n k + 1) (by omega)
  simp only [sysMmapUser, genericMmap_eq, found] at result
  cases target with
  | none => exact Or.inl (Prod.mk.inj (Option.some.inj result)).2.symm
  | some place =>
    obtain ⟨region, vaBase⟩ := place
    obtain ⟨aligned, inside⟩ := window region vaBase rfl
    simp only at result
    right
    split at result
    · obtain ⟨pool', own', added⟩ := startMapping_backed start backed tracks physical aligned inside result
      exact ⟨_, _, pool', own', added⟩
    · obtain ⟨pool', own', added⟩ := startMapping_backed
        (s := { s with regions := Function.update s.regions block noRegion }) start backed tracks physical
        aligned inside result
      exact ⟨_, _, pool', own', added⟩

/-- A store to a page of a process. -/
theorem Separated.write (fresh : FreshProcesses t s₀ pool₀) (separated : Separated t pool₀ s₀ s pool pages)
    {va a : Word} (lower : va.toNat < 2 ^ 48) (found : walk s.memory.word (t i).pgd va = some a) (b : Byte) :
    Separated t pool₀ s₀ { s with memory := { s.memory with word := WordBytes.setByte s.memory.word a b } } pool pages ∧
      ∀ j, j ≠ i → Untouched m j s pool pages →
        Untouched m j { s with memory := { s.memory with word := WordBytes.setByte s.memory.word a b } } pool
            pages := by
  obtain ⟨x, page, inside, known⟩ := separated.translated fresh lower found
  have within := inFrame_wordOf (fresh.frame known).1 inside
  constructor
  · refine ⟨fun j => ?_, separated.tracks, separated.arena, separated.free, separated.given, separated.distinct⟩
    refine (separated.backed j).of_entries rfl fun l k small => ?_
    exact WordBytes.setByte_elsewhere (fresh.frame_elsewhere known within j l k small)
  · intro j other untouched f old c inF
    rw [← untouched f old c inF]
    refine WordBytes.setByte_elsewhere fun same => ?_
    -- the frame of the store is neither free nor a page of `j`
    have free : f ∈ pool₀.free := by
      rcases old with free | ⟨q, y, pageY, rfl⟩
      · exact separated.free free
      · exact (separated.given j q y pageY).1
    have equal := fresh.frames_apart free known inF (same ▸ within)
    rcases old with free | ⟨q, y, pageY, rfl⟩
    · exact (separated.given i _ x page).2 (equal ▸ free)
    · exact other (separated.distinct j i q _ y x pageY page equal).1

theorem Mmu.lower_of_permits {mmu : Mmu} {el : El} {write : Bool} {va : Word}
    (permitted : mmu.permits el write va = true) (near : va.toNat ≤ 2 ^ 48) : va.toNat < 2 ^ 48 := by
  cases Nat.lt_or_eq_of_le near with
  | inl below => exact below
  | inr first =>
    -- the first address behind the lower half is in neither half
    have equal : va = 0x1000000000000 := BitVec.eq_of_toNat_eq first
    have none : mmu.base va = none := by
      rw [equal, Mmu.base, if_neg (by decide), if_neg (by decide)]
    rw [Mmu.permits, none] at permitted
    cases permitted

/-- The copy of the kernel is a row of such stores. -/
theorem Separated.copied (fresh : FreshProcesses t s₀ pool₀) {dst src : Word} (n c : Nat) {s : AddressSpace}
    {memory : Memory} (separated : Separated t pool₀ s₀ s pool pages) (near : dst.toNat + c ≤ 2 ^ 48)
    (ran : s.memory.copyBytes (t i).pgd ttbr1 dst src n c = some memory) :
    Separated t pool₀ s₀ { s with memory := memory } pool pages ∧
      ∀ j, j ≠ i → Untouched m j s pool pages → Untouched m j { s with memory := memory } pool pages := by
  induction n generalizing c s with
  | zero =>
    obtain rfl := Option.some.inj ran
    exact ⟨separated, fun j _ untouched => untouched⟩
  | succ n ih =>
    have place : (dst + BitVec.ofNat 64 c).toNat = dst.toNat + c := by bv_omega
    rw [Memory.copyBytes] at ran
    simp only at ran
    split at ran
    · rename_i permitted
      have lower := Mmu.lower_of_permits permitted (place ▸ near)
      rw [Mmu.translate_lower separated lower] at ran
      cases found : walk s.memory.word (t i).pgd (dst + BitVec.ofNat 64 c) with
      | none =>
        rw [found] at ran
        cases ran
      | some a =>
        rw [found] at ran
        obtain ⟨written, others⟩ := separated.write fresh lower found (s.memory.kernelByte (src + BitVec.ofNat 64 c))
        obtain ⟨after, later⟩ := ih (c + 1) written (by omega) ran
        exact ⟨after, fun j other untouched => later j other (others j other untouched)⟩
    · cases ran

variable [DecidableEq ι]

/-- More pages for one process. -/
theorem Separated.added {prot : CInt} {base n : Nat} {own : PageMap} (fresh : FreshProcesses t s₀ pool₀)
    (separated : Separated t pool₀ s₀ s pool pages)
    (added : PagesAdded (t i) prot base n (s.memory, s.frames) (s'.memory, s'.frames) pool pool' (pages i) own) :
    Separated t pool₀ s₀ s' pool' (Function.update pages i own) ∧
      ∀ j, Untouched m j s pool pages → Untouched m j s' pool' (Function.update pages i own) := by
  have newOrOld (q : Nat) {x : Word × CInt} (page : own q = some x) :
      (base ≤ q ∧ q < base + n ∧ x.1 ∈ pool.free ∧ x.1 ∉ pool'.free ∧ x.2 = prot) ∨ pages i q = some x := by
    by_cases new : base ≤ q ∧ q < base + n
    · obtain ⟨f, found, free, taken⟩ := added.new q new.1 new.2
      obtain rfl := Option.some.inj (page.symm.trans found)
      exact Or.inl ⟨new.1, new.2, free, taken, rfl⟩
    · exact Or.inr (added.others q new ▸ page)
  -- a page of any process is one of the new ones, or it was there before
  have origin (j : ι) (q : Nat) {x : Word × CInt} (page : Function.update pages i own j q = some x) :
      (j = i ∧ base ≤ q ∧ q < base + n ∧ x.1 ∈ pool.free ∧ x.1 ∉ pool'.free ∧ x.2 = prot ∧ own q = some x) ∨
        pages j q = some x := by
    cases decEq j i with
    | isTrue same =>
      subst same
      rw [Function.update_self] at page
      exact (newOrOld q page).imp_left fun new =>
        ⟨rfl, new.1, new.2.1, new.2.2.1, new.2.2.2.1, new.2.2.2.2, page⟩
    | isFalse other =>
      rw [Function.update_of_ne other] at page
      exact Or.inr page
  have words (f a : Word) (known : f ∈ pool₀.free) (inside : InFrame f a) : s'.memory.word a = s.memory.word a :=
    added.word a (fresh.frame_elsewhere known inside i)
  constructor
  · constructor
    · intro j
      cases decEq j i with
      | isTrue same =>
        subst same
        rw [Function.update_self]
        exact added.backed
      | isFalse other =>
        rw [Function.update_of_ne other]
        refine (separated.backed j).of_entries added.pa fun l k small => ?_
        exact added.word _ (fresh.entry_elsewhere (Ne.symm other) small)
    · exact added.tracks
    · exact ⟨added.arena.1.trans separated.arena.1, added.arena.2.trans separated.arena.2⟩
    · exact added.free.trans separated.free
    · intro j q x page
      cases origin j q page with
      | inl new => exact ⟨separated.free new.2.2.2.1, new.2.2.2.2.1⟩
      | inr old =>
        have given := separated.given j q x old
        exact ⟨given.1, fun free => given.2 (added.free free)⟩
    · intro j k q r x y pageQ pageR same
      cases origin j q pageQ with
      | inl newQ =>
        obtain ⟨rfl, lowQ, highQ, freeQ, _, protQ, ownQ⟩ := newQ
        cases origin k r pageR with
        | inl newR =>
          obtain ⟨rfl, lowR, highR, _, _, protR, ownR⟩ := newR
          have equal : y = x := Prod.ext same.symm (protR.trans protQ.symm)
          obtain ⟨f, v⟩ := x
          obtain rfl : v = prot := protQ
          exact ⟨rfl, added.distinct q r f ⟨lowQ, highQ⟩ ⟨lowR, highR⟩ ownQ (equal ▸ ownR)⟩
        | inr oldR => exact absurd (same ▸ freeQ) (separated.given k r y oldR).2
      | inr oldQ =>
        cases origin k r pageR with
        | inl newR => exact absurd (same ▸ newR.2.2.2.1) (separated.given j q x oldQ).2
        | inr oldR => exact separated.distinct j k q r x y oldQ oldR same
  · intro j untouched f known a inside
    rcases known with free | ⟨q, x, page, rfl⟩
    · rw [words f a (separated.free (added.free free)) inside]
      exact untouched f (Or.inl (added.free free)) a inside
    · cases origin j q page with
      | inl new =>
        rw [words x.1 a (separated.free new.2.2.2.1) inside]
        exact untouched x.1 (Or.inl new.2.2.2.1) a inside
      | inr old =>
        rw [words x.1 a (separated.given j q x old).1 inside]
        exact untouched x.1 (Or.inr ⟨q, x, old, rfl⟩) a inside

/-- Another protection for a page that is there. -/
theorem Separated.protected (fresh : FreshProcesses t s₀ pool₀) (separated : Separated t pool₀ s₀ s pool pages)
    {va : Word} {prot ret : CInt} {memory : Memory} (lower : va.toNat < 2 ^ 48) (aligned : va.toNat % 4096 = 0)
    (readable : Mmu.permits ⟨s.memory.word, (t i).pgd, ttbr1⟩ .el1 false va = true)
    (mapped : pageTableMapUser s.memory (t i) va
      (getPhysicalAddress ⟨Mmu.parEl1 ⟨s.memory.word, (t i).pgd, ttbr1⟩ attributes, 0⟩ va) prot = some (ret, memory)) :
    ∃ pages', Separated t pool₀ s₀ { s with memory := memory } pool pages' ∧
      (∀ j, j ≠ i → pages' j = pages j) ∧
      ∀ j, Untouched m j s pool pages → Untouched m j { s with memory := memory } pool pages' := by
  have backed := separated.backed i
  obtain ⟨x, page⟩ : ∃ x, pages i (pageNumber va) = some x := by
    cases page : pages i (pageNumber va) with
    | some x => exact ⟨x, rfl⟩
    | none =>
      have leaf := backed.walkLeaf_eq (fresh.lower i) lower
      rw [page, Option.map_none] at leaf
      simp only [Mmu.permits, backed.root ttbr1 lower, leaf] at readable
      cases readable
  obtain ⟨small, frameAligned, output⟩ := backed.frames _ x page
  have near : va.toNat < 2 ^ 23 := by
    unfold pageNumber at small
    omega
  have translated : Mmu.translate ⟨s.memory.word, (t i).pgd, ttbr1⟩ va = some x.1 := by
    rw [Mmu.translate_lower separated lower, backed.walk_eq (fresh.lower i) lower, page, aligned]
    exact congrArg some (BitVec.add_zero x.1)
  rw [getPhysicalAddress_page readable translated aligned frameAligned output] at mapped
  obtain ⟨called, backed', pa, word⟩ := backed.map (fresh.lower i) prot near frameAligned output
  obtain ⟨_, rfl⟩ := Prod.mk.inj (Option.some.inj (mapped.symm.trans called))
  -- no page changes its frame
  have frame (j : ι) (q : Nat) {y : Word × CInt}
      (found : Function.update pages i (Function.update (pages i) (pageNumber va) (some (x.1, prot))) j q = some y) :
      ∃ z, pages j q = some z ∧ z.1 = y.1 := by
    cases decEq j i with
    | isFalse other =>
      rw [Function.update_of_ne other] at found
      exact ⟨y, found, rfl⟩
    | isTrue same =>
      subst same
      rw [Function.update_self] at found
      cases decEq q (pageNumber va) with
      | isTrue here =>
        subst here
        rw [Function.update_self] at found
        obtain rfl := Option.some.inj found
        exact ⟨x, page, rfl⟩
      | isFalse other =>
        rw [Function.update_of_ne other] at found
        exact ⟨y, found, rfl⟩
  refine ⟨Function.update pages i (Function.update (pages i) (pageNumber va) (some (x.1, prot))), ?_,
    fun j other => Function.update_of_ne other _ _, ?_⟩
  · constructor
    · intro j
      cases decEq j i with
      | isTrue same =>
        subst same
        rw [Function.update_self]
        exact backed'
      | isFalse other =>
        rw [Function.update_of_ne other]
        exact (separated.backed j).of_entries pa fun l k inside => word _ (fresh.entry_elsewhere (Ne.symm other) inside)
    · exact separated.tracks
    · exact separated.arena
    · exact separated.free
    · intro j q y found
      obtain ⟨z, old, same⟩ := frame j q found
      exact same ▸ separated.given j q z old
    · intro j k q r y z foundY foundZ same
      obtain ⟨y', oldY, sameY⟩ := frame j q foundY
      obtain ⟨z', oldZ, sameZ⟩ := frame k r foundZ
      exact separated.distinct j k q r y' z' oldY oldZ (sameY.trans (same.trans sameZ.symm))
  · intro j untouched f known a inside
    have old : f ∈ pool.free ∨ ∃ q y, pages j q = some y ∧ y.1 = f := by
      refine known.imp_right fun found => ?_
      obtain ⟨q, y, there, equal⟩ := found
      obtain ⟨z, before, same⟩ := frame j q there
      exact ⟨q, z, before, same.trans equal⟩
    have free : f ∈ pool₀.free := by
      rcases old with free | ⟨q, y, before, rfl⟩
      · exact separated.free free
      · exact (separated.given j q y before).1
    exact (word a (fresh.frame_elsewhere free inside i)).trans (untouched f old a inside)

/-- What one act preserves. -/
theorem Separated.step {act : ProcessAct ι} (fresh : FreshProcesses t s₀ pool₀)
    (separated : Separated t pool₀ s₀ s pool pages) (step : ProcessStep t head mmapStart ttbr1 attributes s act s') :
    ∃ pool' pages', Separated t pool₀ s₀ s' pool' pages' ∧ (∀ j, act.owner ≠ j → pages' j = pages j) ∧
      ∀ j, (act.owner = j → ¬ act.Writes) → Untouched m j s pool pages → Untouched m j s' pool' pages' := by
  cases step with
  | mmap ran aimed window =>
    rename_i i _ _ _ _ _ _ _
    have physical : s.frames.frameStart.toNat + s.frames.frameCount.toNat * 4096 ≤ 2 ^ 48 := by
      rw [separated.arena.1, separated.arena.2]
      exact fresh.physical
    rcases sysMmapUser_added (fresh.lower i) (separated.backed i) separated.tracks physical ran aimed window with
      rfl | ⟨base, n, pool', own, added⟩
    · exact ⟨pool, pages, separated, fun _ _ => rfl, fun _ _ untouched => untouched⟩
    · obtain ⟨after, untouched⟩ := separated.added fresh added
      exact ⟨pool', _, after, fun j other => Function.update_of_ne (Ne.symm other) _ _, fun j _ => untouched j⟩
  | store lower permitted found =>
    rw [Mmu.translate_lower separated lower] at found
    obtain ⟨after, untouched⟩ := separated.write fresh lower found _
    exact ⟨pool, pages, after, fun _ _ => rfl, fun j silent => untouched j fun same => silent same.symm trivial⟩
  | copyToUser lower ran =>
    unfold Memory.copyToUser at ran
    split at ran
    · obtain ⟨_, rfl⟩ := Prod.mk.inj (Option.some.inj ran)
      exact ⟨pool, pages, separated, fun _ _ => rfl, fun _ _ untouched => untouched⟩
    · obtain ⟨memory, copied, same⟩ := Option.map_eq_some_iff.mp ran
      obtain ⟨_, rfl⟩ := Prod.mk.inj same
      obtain ⟨after, untouched⟩ := separated.copied fresh _ 0 (by omega) copied
      exact ⟨pool, pages, after, fun _ _ => rfl, fun j silent => untouched j fun same => silent same.symm trivial⟩
  | protect lower aligned readable mapped =>
    obtain ⟨pages', after, others, untouched⟩ := separated.protected fresh lower aligned readable mapped
    exact ⟨pool, pages', after, fun j other => others j (Ne.symm other), fun j _ => untouched j⟩

/-- What any acts preserve. -/
theorem Separated.run {acts : List (ProcessAct ι)} (fresh : FreshProcesses t s₀ pool₀)
    (separated : Separated t pool₀ s₀ s pool pages)
    (run : Run (ProcessStep t head mmapStart ttbr1 attributes) s acts s') :
    ∃ pool' pages', Separated t pool₀ s₀ s' pool' pages' ∧
      (∀ j, (∀ act ∈ acts, act.owner ≠ j) → pages' j = pages j) ∧
      ∀ j, (∀ act ∈ acts, act.owner = j → ¬ act.Writes) → Untouched m j s pool pages →
          Untouched m j s' pool' pages' := by
  induction run generalizing pool pages with
  | nil => exact ⟨pool, pages, separated, fun _ _ => rfl, fun _ _ untouched => untouched⟩
  | cons head _ ih =>
    obtain ⟨pool₁, pages₁, first, same₁, untouched₁⟩ := separated.step (m := m) fresh head
    obtain ⟨pool₂, pages₂, rest, same₂, untouched₂⟩ := ih first
    refine ⟨pool₂, pages₂, rest, ?_, ?_⟩
    · intro j others
      obtain ⟨here, later⟩ := List.forall_mem_cons.mp others
      exact (same₂ j later).trans (same₁ j here)
    · intro j silent untouched
      obtain ⟨here, later⟩ := List.forall_mem_cons.mp silent
      exact untouched₂ j later (untouched₁ j here untouched)

/-- After any acts of any processes in any order, a frame is behind one page of one process, and the
tables are behind none. -/
theorem processes_share_no_frame {acts : List (ProcessAct ι)} (fresh : FreshProcesses t s₀ pool₀)
    (run : Run (ProcessStep t head mmapStart ttbr1 attributes) s₀ acts s) :
    (∀ i j va va' a a', va.toNat < 2 ^ 48 → va'.toNat < 2 ^ 48 → walk s.memory.word (t i).pgd va = some a →
      walk s.memory.word (t j).pgd va' = some a' → a.toNat / 4096 = a'.toNat / 4096 →
        i = j ∧ pageNumber va = pageNumber va') ∧
    ∀ i va a, va.toNat < 2 ^ 48 → walk s.memory.word (t i).pgd va = some a →
      ∀ j, Elsewhere (t j) userPages (WordBytes.wordOf a) := by
  obtain ⟨pool, pages, separated, _⟩ := fresh.separated.run (m := s₀.memory) fresh run
  constructor
  · intro i j va va' a a' lower lower' found found' same
    obtain ⟨x, page, inside, known⟩ := separated.translated fresh lower found
    obtain ⟨y, page', inside', known'⟩ := separated.translated fresh lower' found'
    have alignedX := (fresh.frame known).1
    have alignedY := (fresh.frame known').1
    have frame : x.1 = y.1 := by
      unfold InFrame at inside inside'
      apply BitVec.eq_of_toNat_eq
      omega
    exact separated.distinct i j _ _ x y page page' frame
  · intro i va a lower found j
    obtain ⟨x, _, inside, known⟩ := separated.translated fresh lower found
    exact fresh.frame_elsewhere known (inFrame_wordOf (fresh.frame known).1 inside) j

/-- While process `j` writes nothing itself, every byte it comes to see is what was there before,
also in the pages that it gets in between. While it does nothing at all, it sees the same pages. -/
theorem other_processes_unseen {acts later : List (ProcessAct ι)} (fresh : FreshProcesses t s₀ pool₀)
    (before : Run (ProcessStep t head mmapStart ttbr1 attributes) s₀ acts s)
    (run : Run (ProcessStep t head mmapStart ttbr1 attributes) s later s')
    (silent : ∀ act ∈ later, act.owner = j → ¬ act.Writes) :
    (∀ va a, va.toNat < 2 ^ 48 → walk s'.memory.word (t j).pgd va = some a →
      WordBytes.byte s'.memory.word a = WordBytes.byte s.memory.word a) ∧
    ((∀ act ∈ later, act.owner ≠ j) → ∀ va : Word, va.toNat < 2 ^ 48 →
      walkLeaf s'.memory.word (t j).pgd va = walkLeaf s.memory.word (t j).pgd va) := by
  obtain ⟨pool, pages, separated, _⟩ := fresh.separated.run (m := s₀.memory) fresh before
  obtain ⟨pool', pages', separated', same, untouched⟩ := separated.run (m := s.memory) fresh run
  have content := untouched j silent fun _ _ _ _ => rfl
  constructor
  · intro va a lower found
    obtain ⟨x, page, inside, known⟩ := separated'.translated fresh lower found
    apply WordBytes.byte_congr
    exact content x.1 (Or.inr ⟨_, x, page, rfl⟩) _ (inFrame_wordOf (fresh.frame known).1 inside)
  · intro others va lower
    rw [(separated'.backed j).walkLeaf_eq (fresh.lower j) lower, (separated.backed j).walkLeaf_eq (fresh.lower j) lower,
      same j others]

end Kept

section Example

/-- The first request of a process. -/
theorem sysMmapUser_first {s : AddressSpace} {pool : Pool Word} {own : PageMap} (u : TranslationTables)
    (first address size : Word) (start : u.startVa = 0) (proper : first ≠ 0) (nonempty : size ≠ 0)
    (unmapped : (s.regions first).isMapped = 0) (backed : Backed s.memory u own) (tracks : Tracks s.frames pool)
    (physical : s.frames.frameStart.toNat + s.frames.frameCount.toNat * 4096 ≤ 2 ^ 48)
    (enough : (pageUp size / pageSize4KB).toNat ≤ pool.free.card) (aligned : address.toNat % 4096 = 0)
    (inside : address.toNat + 4096 * (pageUp size / pageSize4KB).toNat ≤ 2 ^ 23) (mmapStart block : Word)
    (prot : CInt) :
    ∃ s' pool' own',
      Returns (fun fuel => sysMmapUser fuel s u first mmapStart block address size prot mapFixed) (address, s') ∧
      Returns (fun fuel => mmapTarget fuel s.regions first mmapStart block address size mapFixed)
        (some (first, address)) ∧
      s'.regions = s.regions.record first address 0 1 (pageUp size) (Wrapper.user.flags prot) ∧
      PagesAdded u prot (pageNumber address) (pageUp size / pageSize4KB).toNat (s.memory, s.frames)
        (s'.memory, s'.frames) pool pool' own own' := by
  have fixed : mapFixed &&& mapFixed ≠ 0 := by decide
  have zero : BitVec.ofNat 64 (4096 * 0) = (0 : Word) := rfl
  obtain ⟨s', pool', own', ran, same, added⟩ := mapPages_backed start aligned prot (pageUp size / pageSize4KB).toNat 0
    (s := { s with regions := s.regions.record first address 0 1 (pageUp size) (Wrapper.user.flags prot) })
    backed tracks
    physical enough (by rw [Nat.zero_add]; exact inside)
  rw [zero] at ran
  refine ⟨s', pool', own', ⟨0, fun fuel _ => ?_⟩, ⟨0, fun fuel _ => ?_⟩, same, added⟩
  · exact genericMmap_first proper nonempty unmapped (if_pos fixed).symm ran same fuel
  · simp only [mmapTarget, nonempty, proper, or_self, if_false, if_pos unmapped, if_pos fixed]

/- Two processes with nothing mapped, their tables one behind the other. -/
def twoTables : Bool → TranslationTables
  | false => smallTables
  | true => ⟨0x8000, 0x9000, 0xA000, 0xB000, 0, 0, 0x8000, 0x9000, 0xA000, 0xB000⟩

def twoHeads : Bool → Word
  | false => 0x80C00
  | true => 0x80D00

def twoProcesses : AddressSpace := ⟨⟨fun _ => 0, id⟩, bareSecureFrames, fun _ => noRegion⟩

theorem twoTables_low (i : Bool) (l : Level) : ((twoTables i).base l).toNat + userPages l * 4096 ≤ 0xF000 := by
  cases i <;> cases l <;> decide

theorem twoProcesses_fresh : FreshProcesses twoTables twoProcesses smallPool where
  lower i := by cases i <;> rfl
  laid i := by
    cases i with
    | false => exact smallTables_laidOut _
    | true =>
      constructor
      · intro l
        cases l <;> rfl
      · intro l
        cases l <;> decide
      · intro l l'
        cases l <;> cases l' <;> decide
      · intro l n _
        cases l <;> rfl
  empty i l n _ := by
    have none : entry twoProcesses.memory (twoTables i) l n = 0 := rfl
    rw [none]
    decide
  writable i l _ n _ := by
    have none : entry twoProcesses.memory (twoTables i) l n = 0 := rfl
    rw [none]
    decide
  apart i j := by
    cases i <;> cases j
    · exact fun other => absurd rfl other
    · exact fun _ l k => by cases l <;> cases k <;> decide
    · exact fun _ l k => by cases l <;> cases k <;> decide
    · exact fun other => absurd rfl other
  tracks := smallPool_tracks
  physical := by decide
  frames f free i l := by
    have high := smallPool_high free
    have low := twoTables_low i l
    right
    omega

/-- Each of them maps a page at 0x1000, and the first stores a byte there. -/
theorem twoProcesses_run : ∃ acts s, 2 ≤ acts.length ∧
    Run (ProcessStep twoTables twoHeads 0x1000 0 0) twoProcesses acts s ∧
    ∃ later s', later = [ProcessAct.store false .el1 0x1000 7] ∧
      Run (ProcessStep twoTables twoHeads 0x1000 0 0) s later s' := by
  have fresh := twoProcesses_fresh
  have pages : (pageUp 1 / pageSize4KB).toNat = 1 := by decide
  have target (first : Word) : InWindow 1 (some (first, 0x1000)) := by
    intro region vaBase same
    obtain ⟨rfl, rfl⟩ := Prod.mk.inj (Option.some.inj same)
    rw [pages]
    decide
  obtain ⟨s₁, pool₁, own₁, ran₁, aimed₁, regions₁, added₁⟩ := sysMmapUser_first (s := twoProcesses)
    (twoTables false) (twoHeads false) 0x1000 1 rfl (by decide) (by decide) rfl
    (fresh.separated.backed false) smallPool_tracks fresh.physical (by rw [pages, smallPool_card]; decide) (by decide)
    (by rw [pages]; decide) 0x1000 0 protRw
  rw [pages] at added₁
  obtain ⟨separated₁, _⟩ := fresh.separated.added (m := twoProcesses.memory) fresh added₁
  have unmapped : (s₁.regions (twoHeads true)).isMapped = 0 := by
    rw [regions₁]
    rfl
  have left := added₁.card
  rw [smallPool_card] at left
  have arena : s₁.frames.frameStart.toNat + s₁.frames.frameCount.toNat * 4096 ≤ 2 ^ 48 := by
    rw [separated₁.arena.1, separated₁.arena.2]
    exact fresh.physical
  obtain ⟨s₂, pool₂, own₂, ran₂, aimed₂, _, added₂⟩ := sysMmapUser_first (s := s₁)
    (twoTables true) (twoHeads true) 0x1000 1 rfl (by decide) (by decide) unmapped
    (separated₁.backed true) separated₁.tracks arena (by rw [pages]; omega) (by decide)
    (by rw [pages]; decide) 0x1000 0 protRw
  rw [pages] at added₂
  obtain ⟨separated₂, _⟩ := separated₁.added (m := twoProcesses.memory) fresh added₂
  obtain ⟨f, page, _⟩ := added₁.new 1 (by decide) (by decide)
  have kept : Function.update (Function.update (fun _ _ => none) false own₁) true own₂ false (pageNumber 0x1000) =
      some (f, protRw) := by
    rw [Function.update_of_ne (by decide), Function.update_self]
    exact page
  have found : Mmu.translate ⟨s₂.memory.word, (twoTables false).pgd, 0⟩ 0x1000 =
      some (f + BitVec.ofNat 64 ((0x1000 : Word).toNat % 4096)) := by
    rw [(separated₂.backed false).translate_eq rfl 0 (by decide), kept]
    rfl
  have permitted : Mmu.permits ⟨s₂.memory.word, (twoTables false).pgd, 0⟩ .el1 true 0x1000 = true :=
    (separated₂.backed false).permits rfl 0 (by decide) kept fun _ => (by decide : protW &&& protRw ≠ 0)
  exact ⟨[.mmap false 0 0x1000 1 protRw mapFixed, .mmap true 0 0x1000 1 protRw mapFixed], s₂, Nat.le_refl 2,
    .cons (.mmap (i := false) ran₁ aimed₁ (target _))
    (.cons (.mmap (i := true) ran₂ aimed₂ (target _)) (.nil s₂)), _, _, rfl,
    .cons (.store (by decide) permitted found) (.nil _)⟩

theorem processes_share_no_frame_two : ∃ acts s, 2 ≤ acts.length ∧
    Run (ProcessStep twoTables twoHeads 0x1000 0 0) twoProcesses acts s ∧
    ∀ va va' a a', va.toNat < 2 ^ 48 → va'.toNat < 2 ^ 48 → walk s.memory.word (twoTables false).pgd va = some a →
      walk s.memory.word (twoTables true).pgd va' = some a' → a.toNat / 4096 ≠ a'.toNat / 4096 := by
  obtain ⟨acts, s, long, run, _⟩ := twoProcesses_run
  refine ⟨acts, s, long, run, fun va va' a a' lower lower' found found' same => ?_⟩
  have equal := (processes_share_no_frame twoProcesses_fresh run).1 false true va va' a a' lower lower' found
    found' same
  cases equal.1

theorem other_processes_unseen_two : ∃ acts later s s', 2 ≤ acts.length ∧ later = [.store false .el1 0x1000 7] ∧
    Run (ProcessStep twoTables twoHeads 0x1000 0 0) twoProcesses acts s ∧
    Run (ProcessStep twoTables twoHeads 0x1000 0 0) s later s' ∧
    ∀ va a, va.toNat < 2 ^ 48 → walk s'.memory.word (twoTables true).pgd va = some a →
      WordBytes.byte s'.memory.word a = WordBytes.byte s.memory.word a := by
  obtain ⟨acts, s, long, before, later, s', rfl, run⟩ := twoProcesses_run
  refine ⟨acts, _, s, s', long, rfl, before, run, ?_⟩
  refine (other_processes_unseen (j := true) twoProcesses_fresh before run ?_).1
  exact List.forall_mem_singleton.mpr fun same => (Bool.false_ne_true same).elim

end Example

end RealmVm
