import RealmVm.Vma.Regions
import RealmVm.Vma.Translation
import RealmVm.Vma.FrameOwnership

/-! `generic_mmap`: it chooses a base, maps the pages one by one and records the region. -/
namespace RealmVm

open Lib

def mapFixed : CInt := 1

/- The secure frames, the tables behind `t`, and the regions of the list behind `head`. -/
structure AddressSpace where
  memory : Memory
  frames : KframeAlloc
  regions : Regions

/-- The mapping loop with `n` pages left, at `count` bytes from the base. Both branches of
`is_secure` take secure frames. `none` when `crash()` is called. -/
def mapPages (t : TranslationTables) (vaBase : Word) (prot : CInt) : Nat → Word → AddressSpace → Option AddressSpace
  | 0, _, s => some s
  | n + 1, count, s =>
    let out := kframeAllocateRange s.frames 1
    if out.1 = mapFailed then none
    else
      match pageTableMap s.memory t (vaBase + count) out.1 prot 0 with
      | none => none
      | some (ret, memory) =>
        if ret ≠ 0 then none
        else mapPages t vaBase prot n (count + pageSize4KB) { s with memory := memory, frames := out.2 }

def Regions.record (regions : Regions) (region vaBase : Word) (isKernel isSecure : CInt) (size : Word)
    (prot : CInt) : Regions :=
  Function.update regions region
    { regions region with
      isKernel := isKernel
      isSecure := isSecure
      vaSize := size
      perm := prot
      vaBase := vaBase
      isMapped := 1 }

/- From the label `start_mapping` on, with the base that the next lines choose. -/
def startMapping (fuel : Nat) (s : AddressSpace) (t : TranslationTables) (head region vaBase : Word)
    (isKernel isSecure : CInt) (size : Word) (prot : CInt) : Option (Word × AddressSpace) :=
  match mapPages t vaBase prot (size / pageSize4KB).toNat 0
      { s with regions := s.regions.record region vaBase isKernel isSecure size prot } with
  | none => none
  | some s =>
    if region = head then some ((s.regions region).vaBase, s)
    else
      -- the result of the insertion is not looked at
      match mmapRegionInsert fuel s.regions (s.regions.next head) region with
      | none => none
      | some (_, first, regions) =>
        some ((regions region).vaBase, { s with regions := regions.setNext head first })

/- A block as `kcalloc` returns it. -/
def noRegion : MemRegion := ⟨0, 0, 0, 0, 0, 0, 0⟩

/-- `block` is the pointer that `kcalloc` returns. `none` when `crash()` is called or the
fuel for the list runs out. -/
def genericMmap (fuel : Nat) (s : AddressSpace) (t : TranslationTables) (head mmapStart block : Word)
    (isKernel isSecure : CInt) (address size : Word) (prot flags : CInt) : Option (Word × AddressSpace) :=
  if size = 0 ∨ head = 0 then some (mapFailed, s)
  else
    let size := pageUp size
    let fixed := flags &&& mapFixed ≠ 0
    if (s.regions head).isMapped = 0 then
      startMapping fuel s t head head (if fixed then address else mmapStart) isKernel isSecure size prot
    else
      let search :=
        if fixed then searchMmapRegionFixed fuel s.regions head address size
        else searchMmapRegion fuel s.regions head size
      match search with
      | none => none
      | some search =>
        if fixed ∧ search = mapFailed then some (mapFailed, s)
        else if block = 0 then some (mapFailed, s)
        else
          let s := { s with regions := Function.update s.regions block noRegion }
          startMapping fuel s t head block (if search = 0 then address else search) isKernel isSecure size prot

/- What the tables hold: in the first gigabyte the descriptors of `f`, after it nothing. -/
structure Holding (m : Memory) (t : TranslationTables) (pages : Level → Nat) (f : Nat → Option Word) : Prop where
  laid : LaidOut m t pages
  linked : Linked m t pages
  translates : Translates m t pages f

/-- The part of the window that the level-3 tables describe and mapping does not lose. -/
def mappable (pages : Level → Nat) : Nat := min (2 ^ 30) (pages .pt3 * 2 ^ 21)

section Loop

variable {t : TranslationTables} {pages : Level → Nat} {vaBase : Word} {prot : CInt}

theorem distance_add {count : Nat} (inside : distance t vaBase + count < 2 ^ 64) :
    distance t (vaBase + BitVec.ofNat 64 count) = distance t vaBase + count := by
  unfold distance at inside ⊢
  bv_omega

theorem distance_aligned (start : t.startVa.toNat % 2 ^ 30 = 0) (aligned : vaBase.toNat % 4096 = 0) :
    distance t vaBase % 4096 = 0 := by
  unfold distance
  bv_omega

/-- A request for one frame, when there is one. -/
theorem frame_available {fa : KframeAlloc} {p : Pool Word} (tracks : Tracks fa p) (some : 0 < p.free.card) :
    (kframeAllocateRange fa 1).1 ≠ mapFailed ∧
      ∃ p', Tracks (kframeAllocateRange fa 1).2 p' ∧ p'.free.card + 1 = p.free.card := by
  obtain ⟨member, available, after⟩ | ⟨_, none⟩ := tracks.kframeAllocateRange_one _ rfl
  · refine ⟨fun failed => ?_, _, after, ?_⟩
    · have inside := (Pool.mem_free.mp member).1
      rw [tracks.all_eq, mem_arena, failed] at inside
      obtain ⟨k, hk, same⟩ := inside
      exact tracks.fits.frameAddress_ne_failed hk same
    · have card := p.card_free_take _ available
      rwa [Finset.card_singleton] at card
  · simp [none] at some

/-- One turn of the loop. -/
theorem mapPages_succ (start : t.startVa.toNat % 2 ^ 30 = 0) (n c : Nat) {s : AddressSpace}
    (given : (kframeAllocateRange s.frames 1).1 ≠ mapFailed)
    (near : distance t (vaBase + BitVec.ofNat 64 (4096 * c)) < 2 ^ 39) :
    mapPages t vaBase prot (n + 1) (BitVec.ofNat 64 (4096 * c)) s =
      mapPages t vaBase prot n (BitVec.ofNat 64 (4096 * (c + 1)))
        { s with
          memory := mapEntries s.memory t (vaBase + BitVec.ofNat 64 (4096 * c))
            (kframeAllocateRange s.frames 1).1 prot 0
          frames := (kframeAllocateRange s.frames 1).2 } := by
  have advance : BitVec.ofNat 64 (4096 * c) + pageSize4KB = BitVec.ofNat 64 (4096 * (c + 1)) := by
    unfold pageSize4KB
    bv_omega
  rw [mapPages]
  simp only [if_neg given, pageTableMap_eq s.memory start _ _ _ _ near, ne_eq, not_true_eq_false, if_false, advance]

/-- With enough frames the loop comes to its end. -/
theorem mapPages_returns (start : t.startVa.toNat % 2 ^ 30 = 0) (n c : Nat) {s : AddressSpace} {p : Pool Word}
    (tracks : Tracks s.frames p) (enough : n ≤ p.free.card)
    (near : distance t vaBase + 4096 * (c + n) ≤ 2 ^ 39) :
    ∃ s', mapPages t vaBase prot n (BitVec.ofNat 64 (4096 * c)) s = some s' ∧ s'.regions = s.regions := by
  induction n generalizing c s p with
  | zero => exact ⟨s, rfl, rfl⟩
  | succ n ih =>
    obtain ⟨given, p', after, card⟩ := frame_available tracks (by omega)
    have place : distance t (vaBase + BitVec.ofNat 64 (4096 * c)) = distance t vaBase + 4096 * c :=
      distance_add (by omega)
    obtain ⟨s', ran, same⟩ := ih (c + 1) (s := { s with memory := _, frames := _ }) after (by omega) (by omega)
    exact ⟨s', (mapPages_succ start n c given (by omega)).trans ran, same⟩

/-- Without enough frames the loop ends in `crash()`. -/
theorem mapPages_none (n : Nat) (count : Word) {s : AddressSpace} {p : Pool Word} (tracks : Tracks s.frames p)
    (few : p.free.card < n) : mapPages t vaBase prot n count s = none := by
  induction n generalizing count s p with
  | zero => omega
  | succ n ih =>
    rcases tracks.kframeAllocateRange_one _ rfl with ⟨_, available, after⟩ | ⟨failed, _⟩
    · have card := p.card_free_take _ available
      rw [Finset.card_singleton] at card
      cases decEq (kframeAllocateRange s.frames 1).1 mapFailed with
      | isTrue failed => simp only [mapPages, if_pos failed]
      | isFalse given =>
        cases called : pageTableMap s.memory t (vaBase + count) (kframeAllocateRange s.frames 1).1 prot 0 with
        | none => simp only [mapPages, if_neg given, called]
        | some out =>
          have later := ih (count + pageSize4KB) (s := { s with memory := out.2, frames := _ }) after (by omega)
          simp only [mapPages, if_neg given, called, later, ite_self]
    · simp only [mapPages, failed, if_true]

/-- In the mappable part of the window it maps its pages and no others. -/
theorem mapPages_spec (capacity : Capacity pages) (start : t.startVa.toNat % 2 ^ 30 = 0)
    (aligned : vaBase.toNat % 4096 = 0) (plain : PlainFlags prot) (n c : Nat) {s : AddressSpace}
    {f : Nat → Option Word} {p : Pool Word} (holding : Holding s.memory t pages f) (tracks : Tracks s.frames p)
    (enough : n ≤ p.free.card) (inside : distance t vaBase + 4096 * (c + n) ≤ mappable pages) :
    ∃ s' f', mapPages t vaBase prot n (BitVec.ofNat 64 (4096 * c)) s = some s' ∧ s'.regions = s.regions ∧
      Holding s'.memory t pages f' ∧ (∃ p', Tracks s'.frames p' ∧ p'.free.card + n = p.free.card) ∧
      (∀ q, distance t vaBase / 4096 + c ≤ q → q < distance t vaBase / 4096 + c + n → (f' q).isSome) ∧
      ∀ q, ¬ (distance t vaBase / 4096 + c ≤ q ∧ q < distance t vaBase / 4096 + c + n) → f' q = f q := by
  induction n generalizing c s f p with
  | zero => exact ⟨s, f, rfl, rfl, holding, ⟨p, tracks, rfl⟩, fun q low high => by omega, fun q _ => rfl⟩
  | succ n ih =>
    have multiple := distance_aligned start aligned
    unfold mappable at inside
    obtain ⟨given, p', after, card⟩ := frame_available tracks (by omega)
    have place : distance t (vaBase + BitVec.ofNat 64 (4096 * c)) = distance t vaBase + 4096 * c :=
      distance_add (by omega)
    have page : distance t (vaBase + BitVec.ofNat 64 (4096 * c)) / 2 ^ 12 = distance t vaBase / 4096 + c := by
      rw [place]
      omega
    have mapped := mapEntries_spec holding.laid capacity (vaBase + BitVec.ofNat 64 (4096 * c))
      (kframeAllocateRange s.frames 1).1 prot 0 (by omega)
    have next : Holding (mapEntries s.memory t (vaBase + BitVec.ofNat 64 (4096 * c))
        (kframeAllocateRange s.frames 1).1 prot 0) t pages _ :=
      ⟨holding.laid.of_pa mapped.pa_eq, holding.linked.step holding.laid capacity start (by omega) mapped,
        holding.translates.step holding.laid capacity start plain (by omega) mapped⟩
    obtain ⟨s', f', ran, regions, held, frames, filled, kept⟩ :=
      ih (c + 1) (s := { s with memory := _, frames := _ }) next after (by omega) (by unfold mappable; omega)
    obtain ⟨last, afterwards, left⟩ := frames
    refine ⟨s', f', (mapPages_succ start n c given (by omega)).trans ran, regions, held,
      ⟨last, afterwards, by omega⟩, ?_, ?_⟩
    · intro q low high
      cases Nat.eq_or_lt_of_le low with
      | inl own =>
        rw [kept q (by omega), page, own, Function.update_self]
        rfl
      | inr later => exact filled q (by omega) (by omega)
    · intro q outside
      rw [kept q (by omega), page, Function.update_of_ne (by omega)]

end Loop

section Outcome

variable {t : TranslationTables} {head mmapStart block address size vaBase : Word} {isKernel isSecure prot flags : CInt}
  {s s' : AddressSpace}

/-- The first call makes the head the region of the range. -/
theorem genericMmap_first (proper : head ≠ 0) (nonempty : size ≠ 0) (unmapped : (s.regions head).isMapped = 0)
    (base : vaBase = if flags &&& mapFixed ≠ 0 then address else mmapStart)
    (ran : mapPages t vaBase prot (pageUp size / pageSize4KB).toNat 0
      { s with regions := s.regions.record head vaBase isKernel isSecure (pageUp size) prot } = some s')
    (same : s'.regions = s.regions.record head vaBase isKernel isSecure (pageUp size) prot) (fuel : Nat) :
    genericMmap fuel s t head mmapStart block isKernel isSecure address size prot flags = some (vaBase, s') := by
  have here : (s'.regions head).vaBase = vaBase := by
    rw [same, Regions.record, Function.update_self]
  simp only [genericMmap, nonempty, proper, or_self, if_false, if_pos unmapped, ← base, startMapping, ran, if_true,
    here]

/-- A later call, when the search finds nothing, maps the address it was given and inserts a region. -/
theorem genericMmap_inserted {first : Word} {regions linked : Regions} (nonempty : size ≠ 0) (proper : head ≠ 0)
    (mapped : (s.regions head).isMapped ≠ 0) (other : block ≠ head) (heap : block ≠ 0) {fuel : Nat}
    (search : (if flags &&& mapFixed ≠ 0 then searchMmapRegionFixed fuel s.regions head address (pageUp size)
      else searchMmapRegion fuel s.regions head (pageUp size)) = some 0)
    (recorded : regions =
      Regions.record (Function.update s.regions block noRegion) block address isKernel isSecure (pageUp size) prot)
    (ran : mapPages t address prot (pageUp size / pageSize4KB).toNat 0 { s with regions := regions } = some s')
    (same : s'.regions = regions)
    (inserted : mmapRegionInsert fuel regions (regions.next head) block = some (1, first, linked))
    (back : (linked block).vaBase = address) :
    genericMmap fuel s t head mmapStart block isKernel isSecure address size prot flags =
      some (address, { s' with regions := linked.setNext head first }) := by
  have notFailed : (0 : Word) ≠ mapFailed := by decide
  simp only [genericMmap, nonempty, proper, or_self, if_false, if_neg mapped, search, notFailed, and_false, heap,
    startMapping, if_true, ← recorded, ran, other, same, inserted, back]

/-- A later call above all regions, when the search finds nothing, puts a region behind the last. -/
theorem genericMmap_next {pre : List Word} {last : Word} (nonempty : size ≠ 0)
    (mapped : (s.regions head).isMapped ≠ 0) (chain : RegionChain s.regions head (pre ++ [last]))
    (fresh : block ∉ pre ++ [last]) (heap : block ≠ 0) (fuel : Nat) (enough : pre.length < fuel)
    (search : (if flags &&& mapFixed ≠ 0 then searchMmapRegionFixed fuel s.regions head address (pageUp size)
      else searchMmapRegion fuel s.regions head (pageUp size)) = some 0)
    (below : Below s.regions (pre ++ [last]) address)
    (fits : address.toNat + (pageUp size).toNat < 2 ^ 64) (regions : Regions)
    (recorded : regions =
      Regions.record (Function.update s.regions block noRegion) block address isKernel isSecure (pageUp size) prot)
    (ran : mapPages t address prot (pageUp size / pageSize4KB).toNat 0 { s with regions := regions } = some s')
    (same : s'.regions = regions) :
    genericMmap fuel s t head mmapStart block isKernel isSecure address size prot flags =
      some (address, { s' with regions := regions.setNext last block }) := by
  have older : ∀ p ∈ pre ++ [last], regions p = s.regions p := by
    intro p hp
    have other : p ≠ block := fun eq => fresh (eq ▸ hp)
    rw [recorded, Regions.record, Function.update_of_ne other, Function.update_of_ne other]
  have new : (regions block).vaBase = address ∧ (regions block).vaSize = pageUp size := by
    rw [recorded, Regions.record, Function.update_self]
    exact ⟨rfl, rfl⟩
  have chain' : RegionChain regions head (pre ++ [last]) :=
    chain.frame fun p hp => congrArg MemRegion.next (older p hp)
  have below' : Below regions (pre ++ [last]) (regions block).vaBase := by
    intro p hp
    rw [older p hp, new.1]
    exact below p hp
  obtain ⟨first, linked, inserted, relinked⟩ :=
    mmapRegionInsert_past chain' below' (by rw [new.1, new.2]; exact fits) enough
  have proper : head ≠ 0 := by
    intro null
    have nothing := (null ▸ chain : RegionChain s.regions 0 (pre ++ [last])).empty_iff.mp rfl
    simp at nothing
  have other : block ≠ head := by
    rintro rfl
    cases pre with
    | nil => exact fresh (chain.head_eq ▸ List.mem_cons_self)
    | cons q rest => exact fresh (chain.head_eq ▸ List.mem_cons_self)
  have back : (linked block).vaBase = address := by
    have members := (setNext_members linked head first block).1
    rw [relinked, (setNext_members regions last block block).1, new.1] at members
    exact members.symm
  rw [← relinked]
  exact genericMmap_inserted nonempty proper mapped other heap search recorded ran same inserted back

end Outcome

end RealmVm
