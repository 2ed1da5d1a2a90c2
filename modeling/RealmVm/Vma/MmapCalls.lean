import RealmVm.Vma.Mmap
import RealmVm.Vma.RegionLists

/-! One call of `generic_mmap` by its three callers: what it has to achieve, and when it does. -/
namespace RealmVm

open Lib

/- The three functions that call `generic_mmap`. -/
inductive MmapCaller where
  | kernel | kernelInsecure | user
deriving DecidableEq

/- `block` is what `kcalloc` returns for the region of this call. -/
structure MmapCall where
  caller : MmapCaller
  address : Word
  size : Word
  prot : CInt
  flags : CInt
  block : Word
deriving DecidableEq

def MmapCaller.prot (prot : CInt) : MmapCaller → CInt
  | .user => permToPt prot ||| ptUser
  | _ => permToPt prot ||| ptKernel

def MmapCall.perform (call : MmapCall) (fuel : Nat) (s : AddressSpace) (t : TranslationTables)
    (head mmapStart : Word) : Option (Word × AddressSpace) :=
  let mmap (isKernel isSecure : CInt) :=
    genericMmap fuel s t head mmapStart call.block isKernel isSecure call.address call.size
      (call.caller.prot call.prot) call.flags
  match call.caller with
  | .kernel => mmap 1 1
  | .kernelInsecure => mmap 1 0
  | .user => mmap 0 1

/-- The least multiple of the page size that is not below the size. -/
def MmapCall.length (call : MmapCall) : Nat := (call.size.toNat + 4095) / 4096 * 4096

def MmapCall.Fixed (call : MmapCall) : Prop := call.flags &&& mapFixed ≠ 0

instance (call : MmapCall) : Decidable call.Fixed := inferInstanceAs (Decidable (_ ≠ _))

/- The ranges that were returned, in the order of the calls. -/
structure MmapHistory where
  space : AddressSpace
  ranges : List (Word × Nat)

def Regions.rangeOf (regions : Regions) (p : Word) : Word × Nat := ((regions p).vaBase, (regions p).vaSize.toNat)

/-- Bases and sizes of the mapped regions among `ptrs`. -/
def described (regions : Regions) (ptrs : List Word) : List (Word × Nat) :=
  (ptrs.filter fun p => (regions p).isMapped ≠ 0).map regions.rangeOf

def Lists (regions : Regions) (head : Word) (ranges : List (Word × Nat)) : Prop :=
  ∃ ptrs, RegionChain regions head ptrs ∧ described regions ptrs = ranges

def EndsBefore (q r : Word × Nat) : Prop := q.1.toNat + q.2 ≤ r.1.toNat

def Apart (q r : Word × Nat) : Prop := q.1.toNat + q.2 ≤ r.1.toNat ∨ r.1.toNat + r.2 ≤ q.1.toNat

instance (q r : Word × Nat) : Decidable (EndsBefore q r) := inferInstanceAs (Decidable (_ ≤ _))

instance (q r : Word × Nat) : Decidable (Apart q r) := inferInstanceAs (Decidable (_ ∨ _))

/-- The call has a size, a fixed request is a page-aligned range that overlaps no earlier
one, there are frames for its pages, and `kcalloc` returns a block that is no region. -/
structure MmapCall.Allowed (call : MmapCall) (head : Word) (s : MmapHistory) : Prop where
  size : 0 < call.size.toNat
  fixed : call.Fixed → call.address.toNat % 4096 = 0 ∧ call.address.toNat + call.length ≤ 2 ^ 64 ∧
    ∀ q ∈ s.ranges, Apart q (call.address, call.length)
  frames : call.length ≤ 4096 * s.space.frames.availableFrameCount.toNat
  heap : call.block ≠ 0 ∧ ∀ ptrs, RegionChain s.space.regions head ptrs → call.block ∉ ptrs

/-- What a call has to achieve. -/
structure Mmapped (t : TranslationTables) (pages : Level → Nat) (head : Word) (s : MmapHistory)
    (call : MmapCall) (r : Word) (after : AddressSpace) : Prop where
  aligned : r.toNat % 4096 = 0
  fixed : call.Fixed → r = call.address
  fresh : ∀ q ∈ s.ranges, Apart q (r, call.length)
  mapped : ∀ va, r.toNat ≤ va.toNat → va.toNat < r.toNat + call.length →
    (walk after.memory.word t.pgd va).isSome
  kept : ∀ va, distance t va < pages .pt3 * 2 ^ 21 → ¬ (r.toNat ≤ va.toNat ∧ va.toNat < r.toNat + call.length) →
    walk after.memory.word t.pgd va = walk s.space.memory.word t.pgd va
  frames : after.frames.availableFrameCount.toNat + call.length / 4096 = s.space.frames.availableFrameCount.toNat
  listed : ∃ below above, Lists s.space.regions head (below ++ above) ∧
    Lists after.regions head (below ++ (r, call.length) :: above)

/-- Where the call goes when it does not take a region's pointer for an address. -/
def MmapCall.base (call : MmapCall) (mmapStart : Word) (s : MmapHistory) : Word :=
  if s.ranges = [] ∧ ¬ call.Fixed then mmapStart else call.address

/-- The range overlaps no earlier one, and all but the uppermost of those after the first are too small for the
search. Directly in front of the uppermost it has another one in front of itself and a gap behind. -/
structure MmapCall.FitsIn (call : MmapCall) (first : Word × Nat) (rest : List (Word × Nat)) (last : Word × Nat) :
    Prop where
  uppermost : last ∈ rest ∧ ∀ q ∈ rest, q = last ∨ EndsBefore q last
  apart : ∀ q ∈ first :: rest, Apart q (call.address, call.length)
  small : first.2 < call.length ∧ ∀ q ∈ rest, q = last ∨ q.2 < call.length
  front : call.address.toNat + call.length ≤ last.1.toNat →
    (∀ q ∈ rest, q = last ∨ EndsBefore q (call.address, call.length)) →
    (∃ q ∈ rest, q ≠ last) ∧ call.address.toNat + call.length ≠ last.1.toNat

/-- The searches find nothing and the address is good: it is the first call, or the range is page-aligned and, for a
fixed request, above all others, for another one in a place where it fits in. The range lies where mapping works, and
its size does not wrap. -/
structure MmapCall.Safe (call : MmapCall) (t : TranslationTables) (pages : Level → Nat) (mmapStart : Word)
    (s : MmapHistory) : Prop where
  rounds : call.size.toNat ≤ 2 ^ 64 - 4096
  place : s.ranges = [] ∨ (call.address.toNat % 4096 = 0 ∧ call.address.toNat + call.length < 2 ^ 64 ∧
    ((call.Fixed ∧ ∀ q ∈ s.ranges, EndsBefore q (call.address, call.length)) ∨
      (¬ call.Fixed ∧ ∃ first rest last, s.ranges = first :: rest ∧ call.FitsIn first rest last)))
  window : distance t (call.base mmapStart s) + call.length ≤ mappable pages

/-- The head describes the first range that was returned, and the list behind it the others in order. -/
structure Consistent (t : TranslationTables) (pages : Level → Nat) (head : Word) (s : MmapHistory) : Prop where
  tables : ∃ f, Holding s.space.memory t pages f
  frames : ∃ p, Tracks s.space.frames p
  list : ∃ ptrs, RegionChain s.space.regions head (head :: ptrs) ∧
    (s.ranges = [] ∧ (s.space.regions head).isMapped = 0 ∧ ptrs = [] ∨
      (∀ p ∈ head :: ptrs, (s.space.regions p).isMapped ≠ 0) ∧ RegionsInOrder s.space.regions ptrs ∧
        ∃ rest, s.ranges = s.space.regions.rangeOf head :: rest ∧ (ptrs.map s.space.regions.rangeOf).Perm rest)

/-- The regions of the list are among `known`. -/
def RegionsWithin (regions : Regions) (head : Word) (known : List Word) : Prop :=
  ∀ ptrs, RegionChain regions head ptrs → ∀ p ∈ ptrs, p ∈ known

variable {t : TranslationTables} {pages : Level → Nat} {head mmapStart : Word}

theorem MmapCaller.plain (caller : MmapCaller) (prot : CInt) : PlainFlags (caller.prot prot) := by
  cases caller with
  | user => exact plain_user prot
  | kernel => exact plain_kernel prot
  | kernelInsecure => exact plain_kernel prot

theorem Holding.walk_eq {m : Memory} {f : Nat → Option Word} (holding : Holding m t pages f)
    (capacity : Capacity pages) (start : t.startVa.toNat % 2 ^ 30 = 0) {va : Word}
    (near : distance t va < pages .pt3 * 2 ^ 21) :
    walk m.word t.pgd va =
      if distance t va < 2 ^ 30 then (f (distance t va / 4096)).map fun d => Leaf.address ⟨d, 12⟩ va else none := by
  unfold walk
  split
  · rename_i low
    rw [holding.translates.walkLeaf_eq holding.linked capacity start low near, Option.map_map]
    rfl
  · rename_i far
    rw [holding.linked.walkLeaf_beyond capacity start (Nat.le_of_not_lt far) near]
    rfl

/-- The pages of a range in the window, by their distance from its start. -/
theorem mem_range_iff (start : t.startVa.toNat % 2 ^ 30 = 0) {base va : Word} {n : Nat}
    (aligned : base.toNat % 4096 = 0) (inside : distance t base + 4096 * n ≤ 2 ^ 30) :
    (base.toNat ≤ va.toNat ∧ va.toNat < base.toNat + 4096 * n) ↔
      distance t base / 4096 ≤ distance t va / 4096 ∧ distance t va / 4096 < distance t base / 4096 + n := by
  have multiple := distance_aligned start aligned
  have close : ∀ x : Word, distance t x < 2 ^ 30 → distance t x = x.toNat - t.startVa.toNat ∧
      t.startVa.toNat ≤ x.toNat := by
    intro x near
    unfold distance at near ⊢
    bv_omega
  have whole : t.startVa.toNat + 2 ^ 30 ≤ 2 ^ 64 := by
    have bound := t.startVa.isLt
    omega
  constructor
  · rintro ⟨low, high⟩
    obtain ⟨exact, above⟩ := close base (by omega)
    have place : distance t va = va.toNat - t.startVa.toNat := by
      unfold distance
      bv_omega
    omega
  · rintro ⟨low, high⟩
    obtain ⟨exact, above⟩ := close base (by omega)
    obtain ⟨exact', above'⟩ := close va (by omega)
    omega

/-- What the loop did to the tables, seen by the walk. -/
theorem walk_mapped (capacity : Capacity pages) (start : t.startVa.toNat % 2 ^ 30 = 0) {base : Word} {n : Nat}
    (aligned : base.toNat % 4096 = 0) (inside : distance t base + 4096 * n ≤ mappable pages) {m m' : Memory}
    {f f' : Nat → Option Word} (before : Holding m t pages f) (after : Holding m' t pages f')
    (filled : ∀ q, distance t base / 4096 ≤ q → q < distance t base / 4096 + n → (f' q).isSome)
    (kept : ∀ q, ¬ (distance t base / 4096 ≤ q ∧ q < distance t base / 4096 + n) → f' q = f q) :
    (∀ va : Word, base.toNat ≤ va.toNat → va.toNat < base.toNat + 4096 * n → (walk m'.word t.pgd va).isSome) ∧
      ∀ va : Word, distance t va < pages .pt3 * 2 ^ 21 →
        ¬ (base.toNat ≤ va.toNat ∧ va.toNat < base.toNat + 4096 * n) →
        walk m'.word t.pgd va = walk m.word t.pgd va := by
  have multiple := distance_aligned start aligned
  unfold mappable at inside
  constructor
  · intro va low high
    obtain ⟨from_, to_⟩ := (mem_range_iff start aligned (by omega)).mp ⟨low, high⟩
    rw [after.walk_eq capacity start (by omega), if_pos (by omega), Option.isSome_map]
    exact filled _ from_ to_
  · intro va near outside
    have page := kept _ (mt (mem_range_iff start aligned (by omega)).mpr outside)
    rw [after.walk_eq capacity start near, before.walk_eq capacity start near, page]

theorem MmapCall.perform_eq (call : MmapCall) : ∃ isKernel isSecure, ∀ fuel s t head mmapStart,
    call.perform fuel s t head mmapStart =
      genericMmap fuel s t head mmapStart call.block isKernel isSecure call.address call.size
        (call.caller.prot call.prot) call.flags := by
  unfold MmapCall.perform
  cases call.caller with
  | kernel => exact ⟨1, 1, fun _ _ _ _ _ => rfl⟩
  | kernelInsecure => exact ⟨1, 0, fun _ _ _ _ _ => rfl⟩
  | user => exact ⟨0, 1, fun _ _ _ _ _ => rfl⟩

theorem described_all {regions : Regions} {ptrs : List Word} (mapped : ∀ p ∈ ptrs, (regions p).isMapped ≠ 0) :
    described regions ptrs = ptrs.map regions.rangeOf := by
  have all : ptrs.filter (fun p => (regions p).isMapped ≠ 0) = ptrs :=
    List.filter_eq_self.mpr fun p hp => decide_eq_true (mapped p hp)
  rw [described, all]

theorem MmapCall.count (call : MmapCall) (rounds : call.size.toNat ≤ 2 ^ 64 - 4096) :
    (pageUp call.size / pageSize4KB).toNat = call.length / 4096 := by
  rw [pageUp_count call.size (by omega)]
  unfold MmapCall.length
  omega

/-- There is a frame for every page. -/
theorem MmapCall.Allowed.enough {s : MmapHistory} {call : MmapCall} (allowed : call.Allowed head s) {p : Pool Word}
    (tracks : Tracks s.space.frames p) : call.length / 4096 ≤ p.free.card := by
  have frames := allowed.frames
  rw [tracks.counted] at frames
  omega

/-- The pages of a call, for a base in the window. -/
theorem mmap_pages (capacity : Capacity pages) (start : t.startVa.toNat % 2 ^ 30 = 0) {s : MmapHistory}
    (consistent : Consistent t pages head s) {call : MmapCall} (allowed : call.Allowed head s) {base : Word}
    (aligned : base.toNat % 4096 = 0) (rounds : call.size.toNat ≤ 2 ^ 64 - 4096)
    (inside : distance t base + call.length ≤ mappable pages) (regions : Regions) :
    ∃ s', mapPages t base (call.caller.prot call.prot) (pageUp call.size / pageSize4KB).toNat 0
        { s.space with regions := regions } = some s' ∧ s'.regions = regions ∧
      (∃ f, Holding s'.memory t pages f) ∧ (∃ p, Tracks s'.frames p) ∧
      s'.frames.availableFrameCount.toNat + call.length / 4096 = s.space.frames.availableFrameCount.toNat ∧
      (∀ va : Word, base.toNat ≤ va.toNat → va.toNat < base.toNat + call.length →
        (walk s'.memory.word t.pgd va).isSome) ∧
      ∀ va : Word, distance t va < pages .pt3 * 2 ^ 21 →
        ¬ (base.toNat ≤ va.toNat ∧ va.toNat < base.toNat + call.length) →
        walk s'.memory.word t.pgd va = walk s.space.memory.word t.pgd va := by
  obtain ⟨⟨f, holding⟩, ⟨p, tracks⟩, _⟩ := consistent
  have whole : call.length = 4096 * (call.length / 4096) := by
    unfold MmapCall.length
    omega
  have enough := allowed.enough tracks
  rw [call.count rounds]
  generalize call.length / 4096 = n at whole enough
  rw [whole] at inside ⊢
  obtain ⟨s', f', ran, same, after, ⟨p', tracks', left⟩, filled, kept⟩ :=
    mapPages_spec capacity start aligned (call.caller.plain call.prot) n 0
      (s := { s.space with regions := regions }) holding tracks enough (by rw [Nat.zero_add]; exact inside)
  have walks := walk_mapped capacity start aligned inside holding after filled kept
  refine ⟨s', ran, same, ⟨f', after⟩, ⟨p', tracks'⟩, ?_, walks⟩
  rw [tracks'.counted, left, tracks.counted]

theorem Consistent.first {s : MmapHistory} (consistent : Consistent t pages head s) (none : s.ranges = []) :
    (s.space.regions head).isMapped = 0 ∧ RegionChain s.space.regions head [head] := by
  obtain ⟨_, _, ptrs, chain, state⟩ := consistent
  rcases state with ⟨_, unmapped, rfl⟩ | ⟨_, _, rest, ranges, _⟩
  · exact ⟨unmapped, chain⟩
  · rw [none] at ranges
    cases ranges

theorem Consistent.later {s : MmapHistory} (consistent : Consistent t pages head s) (some : s.ranges ≠ []) :
    ∃ ptrs, RegionChain s.space.regions head (head :: ptrs) ∧
      (∀ p ∈ head :: ptrs, (s.space.regions p).isMapped ≠ 0) ∧ RegionsInOrder s.space.regions ptrs ∧
      ∃ rest, s.ranges = s.space.regions.rangeOf head :: rest ∧ (ptrs.map s.space.regions.rangeOf).Perm rest := by
  obtain ⟨_, _, ptrs, chain, state⟩ := consistent
  exact ⟨ptrs, chain, state.resolve_left fun none => some none.1⟩

/-- An unmapped head alone lists nothing. -/
theorem lists_nothing {regions : Regions} (unmapped : (regions head).isMapped = 0)
    (chain : RegionChain regions head [head]) : Lists regions head [] := by
  refine ⟨[head], chain, ?_⟩
  rw [described, List.filter_cons_of_neg (by simp [unmapped])]
  rfl

/-- A consistent history lists the ranges that were returned. -/
theorem Consistent.lists {s : MmapHistory} (consistent : Consistent t pages head s) :
    ∃ listed, Lists s.space.regions head listed ∧ listed.Perm s.ranges := by
  cases Classical.em (s.ranges = []) with
  | inl none =>
    obtain ⟨unmapped, chain⟩ := consistent.first none
    exact ⟨[], lists_nothing unmapped chain, none ▸ List.Perm.refl _⟩
  | inr some =>
    obtain ⟨ptrs, chain, mapped, _, rest, ranges, perm⟩ := consistent.later some
    exact ⟨_, ⟨head :: ptrs, chain, described_all mapped⟩, ranges ▸ perm.cons _⟩

theorem mmap_first (capacity : Capacity pages) (start : t.startVa.toNat % 2 ^ 30 = 0)
    (kernelStart : mmapStart.toNat % 4096 = 0) {s : MmapHistory} (consistent : Consistent t pages head s)
    {call : MmapCall} (allowed : call.Allowed head s) (safe : call.Safe t pages mmapStart s)
    (none : s.ranges = []) :
    ∃ r after, Returns (fun fuel => call.perform fuel s.space t head mmapStart) (r, after) ∧
      Mmapped t pages head s call r after ∧ Consistent t pages head ⟨after, s.ranges ++ [(r, call.length)]⟩ ∧
      RegionsWithin after.regions head [head] := by
  obtain ⟨unmapped, chain⟩ := consistent.first none
  obtain ⟨isKernel, isSecure, perform⟩ := call.perform_eq
  have base : call.base mmapStart s = if call.flags &&& mapFixed ≠ 0 then call.address else mmapStart := by
    unfold MmapCall.base MmapCall.Fixed
    split <;> simp_all
  have aligned : (call.base mmapStart s).toNat % 4096 = 0 := by
    rw [base]
    split
    · rename_i fixed
      exact (allowed.fixed fixed).1
    · exact kernelStart
  have rounded : (pageUp call.size).toNat = call.length := pageUp_toNat _ (by have := safe.rounds; omega)
  have positive := allowed.size
  have nonempty : call.size ≠ 0 := by bv_omega
  have proper : head ≠ 0 := fun null => chain.proper (null ▸ List.mem_cons_self)
  have inside := safe.window
  generalize call.base mmapStart s = r at base aligned inside
  obtain ⟨after, ran, same, tables, frames, taken, mapped, kept⟩ :=
    mmap_pages capacity start consistent allowed aligned safe.rounds inside
      (s.space.regions.record head r isKernel isSecure (pageUp call.size) (call.caller.prot call.prot))
  have returns : ∀ fuel, call.perform fuel s.space t head mmapStart = some (r, after) := by
    intro fuel
    rw [perform]
    exact genericMmap_first proper nonempty unmapped base ran same fuel
  have here : after.regions head = { s.space.regions head with
      isKernel := isKernel
      isSecure := isSecure
      vaSize := pageUp call.size
      perm := call.caller.prot call.prot
      vaBase := r
      isMapped := 1 } := by
    rw [same, Regions.record, Function.update_self]
  have chain' : RegionChain after.regions head [head] := by
    refine chain.frame fun p hp => ?_
    obtain rfl := List.mem_singleton.mp hp
    show (after.regions p).next = (s.space.regions p).next
    rw [here]
  have nowMapped : (after.regions head).isMapped ≠ 0 := by
    rw [here]
    exact (by decide : (1 : CInt) ≠ 0)
  have listed : described after.regions [head] = [(r, call.length)] := by
    rw [described_all (List.forall_mem_singleton.mpr nowMapped), List.map_singleton, Regions.rangeOf, here, ← rounded]
  refine ⟨r, after, ⟨0, fun fuel _ => returns fuel⟩, ?_, ?_, fun ptrs other p hp => other.unique chain' ▸ hp⟩
  · refine ⟨aligned, fun fixed => ?_, fun q hq => ?_, mapped, kept, taken, [], [], lists_nothing unmapped chain,
      [head], chain', listed⟩
    · exact base.trans (if_pos fixed)
    · rw [none] at hq
      cases hq
  · refine ⟨tables, frames, [], chain', Or.inr ⟨List.forall_mem_singleton.mpr nowMapped, List.Pairwise.nil, [], ?_,
      List.Perm.refl _⟩⟩
    rw [none, List.nil_append, Regions.rangeOf, here, ← rounded]

section Recorded

variable {old regions : Regions} {ptrs pre : List Word} {last block base size : Word} {isKernel isSecure prot : CInt}
  (recorded : regions = Regions.record (Function.update old block noRegion) block base isKernel isSecure size prot)
include recorded

/-- The block of a later call holds the new region, and the others are as they were. -/
theorem recorded_regions : (∀ p, p ≠ block → regions p = old p) ∧
    regions block = ⟨base, size, prot, 1, isKernel, isSecure, 0⟩ := by
  constructor
  · intro p other
    rw [recorded, Regions.record, Function.update_of_ne other, Function.update_of_ne other]
  · rw [recorded, Regions.record, Function.update_self, Function.update_self]
    rfl

/-- The region of a later call, behind the others. -/
theorem recorded_list (chain : RegionChain old head (pre ++ [last]))
    (mapped : ∀ p ∈ pre ++ [last], (old p).isMapped ≠ 0) (fresh : block ∉ pre ++ [last]) (heap : block ≠ 0) :
    RegionChain (regions.setNext last block) head (pre ++ [last, block]) ∧
      ∀ p ∈ pre ++ [last, block], (regions.setNext last block p).isMapped ≠ 0 := by
  obtain ⟨older, new⟩ := recorded_regions recorded
  have apart : ∀ p ∈ pre ++ [last], p ≠ block := fun p hp same => fresh (same ▸ hp)
  constructor
  · have kept : RegionChain regions head (pre ++ last :: []) :=
      chain.frame fun p hp => congrArg MemRegion.next (older p (apart p hp))
    have other : block ≠ last := fun same => fresh (same ▸ by simp)
    have final : regions.next last = 0 := kept.next_last
    have nothing : regions.next block = 0 := congrArg MemRegion.next new
    rw [RegionChain, setNext_next]
    refine kept.insertAfter fresh heap ?_ (Function.update_self ..) fun p hp => ?_
    · rw [Function.update_of_ne other, final, nothing]
    · exact Function.update_of_ne (kept.apart hp) ..
  · intro p hp
    rw [(setNext_members regions last block p).2.2]
    cases List.mem_append.mp (List.append_assoc pre [last] [block] ▸ hp) with
    | inl before => exact older p (apart p before) ▸ mapped p before
    | inr own =>
      obtain rfl := List.mem_singleton.mp own
      rw [new]
      exact (by decide : (1 : CInt) ≠ 0)

variable (chain : RegionChain old head (head :: ptrs)) (fresh : block ∉ head :: ptrs)
include chain fresh

/-- The insertion into the list behind the first region. -/
theorem recorded_inserted (heap : block ≠ 0) (apart : ∀ p ∈ ptrs, Apart (old.rangeOf p) (base, size.toNat))
    (sorted : RegionsInOrder old ptrs) (positive : 0 < size.toNat)
    (fits : base.toNat + size.toNat < 2 ^ 64)
    (front : ∀ inner last, ptrs = inner ++ [last] → base.toNat + size.toNat ≤ (old last).vaBase.toNat →
      (∀ p ∈ inner, EndsBefore (old.rangeOf p) (base, size.toNat)) →
      inner ≠ [] ∧ base.toNat + size.toNat ≠ (old last).vaBase.toNat) :
    ∃ below above, ptrs = below ++ above ∧ Inserted regions (regions.next head) block below above ∧
      RegionsInOrder regions (below ++ block :: above) := by
  obtain ⟨older, new⟩ := recorded_regions recorded
  have same : ∀ p ∈ head :: ptrs, regions p = old p := fun p hp => older p fun equal => fresh (equal ▸ hp)
  have behind : RegionChain regions (regions.next head) ptrs :=
    (chain.frame fun p hp => congrArg MemRegion.next (same p hp)).tail
  have alone : (regions block).next = 0 := by rw [new]
  cases List.eq_nil_or_concat' ptrs with
  | inl none =>
    subst none
    have null : regions.next head = 0 := behind.empty_iff.mpr rfl
    refine ⟨[], [], rfl, ⟨block, regions, ⟨0, fun fuel _ => ?_⟩, ⟨⟨rfl, alone⟩, ?_⟩, sameButLinks_refl regions⟩,
      List.pairwise_singleton _ _⟩
    · simp only [mmapRegionInsert, null, if_true]
    · exact fun zero => heap (List.mem_singleton.mp zero).symm
  | inr some =>
    obtain ⟨inner, last, rfl⟩ := some
    have limit : (regions block).limit = base.toNat + size.toNat ∧ (regions block).vaBase = base := by
      rw [new]
      exact ⟨rfl, rfl⟩
    have inside : ∀ p ∈ inner ++ [last], regions p = old p := fun p hp => same p (List.mem_cons_of_mem head hp)
    have ordered : RegionsInOrder regions (inner ++ [last]) := by
      refine List.Pairwise.imp_of_mem (fun hp hq ends => ?_) sorted
      rw [inside _ hp, inside _ hq]
      exact ends
    have separate : ∀ p ∈ inner ++ [last], ¬ (regions p).Overlap (regions block) := by
      rintro p hp ⟨left, right⟩
      have sides := apart p hp
      rw [limit.1, inside p hp] at left
      rw [limit.2, inside p hp] at right
      exact sides.elim (fun below => absurd right (Nat.not_lt.mpr below))
        fun above => absurd left (Nat.not_lt.mpr above)
    have nonempty : (regions block).vaSize ≠ 0 := by
      rw [new]
      exact fun zero => by bv_omega
    refine inserts_apart behind ordered (fun hb => fresh (List.mem_cons_of_mem head hb)) heap alone nonempty
      ⟨fun p hp _ gap => ?_, fun above lower => ?_, fun overlaps => ?_⟩ separate
    · -- the end of the new region does not wrap
      rw [← range_toNat (limit.1 ▸ fits)]
      exact Nat.le_of_lt gap
    · rw [limit.1, inside last (by simp)] at above ⊢
      refine front inner last rfl above fun p hp => ?_
      have ends := lower p hp
      rw [limit.2, inside p (List.mem_append_left _ hp)] at ends
      exact ends
    · obtain ⟨p, hp, overlap⟩ := overlaps
      exact absurd overlap (separate p hp)

/-- The list with the new region, linked to the first one. -/
theorem inserted_list (mapped : ∀ p ∈ head :: ptrs, (old p).isMapped ≠ 0) {below above : List Word}
    (split : ptrs = below ++ above) (inserted : Inserted regions (regions.next head) block below above)
    (ordered : RegionsInOrder regions (below ++ block :: above)) :
    ∃ start linked, Returns (fun fuel => mmapRegionInsert fuel regions (regions.next head) block) (1, start, linked) ∧
      (linked block).vaBase = base ∧
      RegionChain (linked.setNext head start) head (head :: (below ++ block :: above)) ∧
      (∀ p ∈ head :: (below ++ block :: above), (linked.setNext head start p).isMapped ≠ 0) ∧
      RegionsInOrder (linked.setNext head start) (below ++ block :: above) ∧
      (linked.setNext head start).rangeOf head = old.rangeOf head ∧
      (below ++ block :: above).map (linked.setNext head start).rangeOf =
        below.map old.rangeOf ++ (base, size.toNat) :: above.map old.rangeOf := by
  obtain ⟨start, linked, returns, list, same⟩ := inserted
  obtain ⟨older, new⟩ := recorded_regions recorded
  have final := sameButLinks_setNext same head start
  have notHead : head ∉ below ++ block :: above := by
    have once := (List.nodup_cons.mp chain.nodup).1
    rw [split] at once
    simp only [List.mem_append, List.mem_cons, not_or] at once fresh ⊢
    exact ⟨once.1, Ne.symm fresh.1, once.2⟩
  have kept : ∀ p ∈ head :: (below ++ above), regions p = old p := by
    intro p hp
    exact older p fun equal => fresh (split ▸ equal ▸ hp)
  have range : ∀ p, (linked.setNext head start).rangeOf p = regions.rangeOf p := by
    intro p
    rw [Regions.rangeOf, final p, Regions.rangeOf]
  have known : ∀ l : List Word, (∀ p ∈ l, p ∈ head :: (below ++ above)) →
      l.map (linked.setNext head start).rangeOf = l.map old.rangeOf := by
    intro l inside
    refine List.map_congr_left fun p hp => ?_
    rw [range, Regions.rangeOf, kept p (inside p hp), Regions.rangeOf]
  refine ⟨start, linked, returns, ?_, linkFirst_chain list notHead ?_, fun p hp => ?_, ?_, ?_, ?_⟩
  · rw [same block, new]
  · exact fun null => chain.proper (null ▸ List.mem_cons_self)
  · rw [final p]
    cases decEq p block with
    | isTrue own =>
      rw [own, new]
      exact (by decide : (1 : CInt) ≠ 0)
    | isFalse other =>
      have before : p ∈ head :: (below ++ above) := by
        simp only [List.mem_cons, List.mem_append] at hp ⊢
        tauto
      rw [kept p before]
      exact mapped p (split ▸ before)
  · refine List.Pairwise.imp (fun {p q} ends => ?_) ordered
    rw [final p, final q]
    exact ends
  · rw [range, Regions.rangeOf, kept head List.mem_cons_self, Regions.rangeOf]
  · have front := known below fun p hp => List.mem_cons_of_mem head (List.mem_append_left above hp)
    have back := known above fun p hp => List.mem_cons_of_mem head (List.mem_append_right below hp)
    rw [List.map_append, front, List.map_cons, back, range block, Regions.rangeOf, new]

end Recorded

/-- The last region of the list describes the uppermost range. -/
theorem last_uppermost {regions : Regions} {inner : List Word} {back : Word} {rest : List (Word × Nat)}
    {last : Word × Nat} (sorted : RegionsInOrder regions (inner ++ [back]))
    (perm : ((inner ++ [back]).map regions.rangeOf).Perm rest)
    (uppermost : last ∈ rest ∧ ∀ q ∈ rest, q = last ∨ EndsBefore q last) : regions.rangeOf back = last := by
  have known : regions.rangeOf back ∈ rest := perm.mem_iff.mp (List.mem_map_of_mem (by simp))
  obtain ⟨p, hp, same⟩ := List.mem_map.mp (perm.mem_iff.mpr uppermost.1)
  cases List.mem_append.mp hp with
  | inr own => exact List.mem_singleton.mp own ▸ same
  | inl before =>
    refine (uppermost.2 _ known).elim id fun ends => ?_
    -- each of the two ends in front of the other, so both are empty
    have below := sorted.split.1 p before
    subst same
    unfold EndsBefore Regions.rangeOf at ends
    unfold MemRegion.limit at below
    dsimp only at ends
    have sameBase : (regions back).vaBase = (regions p).vaBase := BitVec.eq_of_toNat_eq (by omega)
    have sameSize : (regions back).vaSize.toNat = (regions p).vaSize.toNat := by omega
    rw [Regions.rangeOf, Regions.rangeOf, sameBase, sameSize]

section Place

variable {s : MmapHistory} {call : MmapCall} {ptrs : List Word}
  (chain : RegionChain s.space.regions head (head :: ptrs)) (rounded : (pageUp call.size).toNat = call.length)
  (positive : 0 < call.length)
include chain rounded positive

/-- Above all others the search of a fixed request finds nothing. -/
theorem fixed_finds_nothing (fits : call.address.toNat + call.length < 2 ^ 64)
    (above : ∀ p ∈ head :: ptrs, EndsBefore (s.space.regions.rangeOf p) (call.address, call.length)) {fuel : Nat}
    (enough : ptrs.length < fuel) :
    searchMmapRegionFixed fuel s.space.regions head call.address (pageUp call.size) = some 0 := by
  rw [← rounded] at positive fits
  exact searchMmapRegionFixed_past chain above positive fits enough

/-- What the search of a request that fits in finds, and which region is the last. -/
theorem loose_finds_nothing {rest : List (Word × Nat)} {last : Word × Nat}
    (sorted : RegionsInOrder s.space.regions ptrs) (perm : (ptrs.map s.space.regions.rangeOf).Perm rest)
    (fitsIn : call.FitsIn (s.space.regions.rangeOf head) rest last) :
    ∃ inner back, ptrs = inner ++ [back] ∧ s.space.regions.rangeOf back = last ∧
      ∀ fuel, ptrs.length < fuel → searchMmapRegion fuel s.space.regions head (pageUp call.size) = some 0 := by
  cases List.eq_nil_or_concat' ptrs with
  | inl none =>
    subst none
    exact absurd fitsIn.uppermost.1 (perm.nil_eq ▸ List.not_mem_nil)
  | inr some =>
    obtain ⟨inner, back, rfl⟩ := some
    have final := last_uppermost sorted perm fitsIn.uppermost
    refine ⟨inner, back, rfl, final, fun fuel enough => ?_⟩
    refine searchMmapRegion_none chain (fun p hp => ?_) (by simpa using enough)
    have small : (s.space.regions.rangeOf p).2 < call.length := by
      cases List.mem_cons.mp hp with
      | inl here => exact here ▸ fitsIn.small.1
      | inr before =>
        have known := perm.mem_iff.mp (List.mem_map_of_mem (List.mem_append_left [back] before))
        refine (fitsIn.small.2 _ known).elim (fun same => ?_) id
        -- the range of the last region in front of itself is empty
        have below := sorted.split.1 p before
        rw [← final] at same
        obtain ⟨sameBase, sameSize⟩ := Prod.mk.inj same
        unfold MemRegion.limit at below
        show (s.space.regions p).vaSize.toNat < call.length
        rw [sameBase] at below
        omega
    rw [← rounded] at small
    exact small

end Place

/-- The conditions of the insertion, for a request that fits in. -/
theorem loose_front {s : MmapHistory} {call : MmapCall} {ptrs inner : List Word} {back : Word}
    {first last : Word × Nat} {rest : List (Word × Nat)} (perm : (ptrs.map s.space.regions.rangeOf).Perm rest)
    (fitsIn : call.FitsIn first rest last) (split : ptrs = inner ++ [back])
    (final : s.space.regions.rangeOf back = last)
    (low : call.address.toNat + call.length ≤ (s.space.regions back).vaBase.toNat)
    (below : ∀ p ∈ inner, EndsBefore (s.space.regions.rangeOf p) (call.address, call.length)) :
    inner ≠ [] ∧ call.address.toNat + call.length ≠ (s.space.regions back).vaBase.toNat := by
  subst split final
  obtain ⟨⟨q, known, other⟩, gap⟩ := fitsIn.front low fun q known => by
    obtain ⟨p, hp, rfl⟩ := List.mem_map.mp (perm.mem_iff.mpr known)
    cases List.mem_append.mp hp with
    | inl before => exact Or.inr (below p before)
    | inr own => exact Or.inl (List.mem_singleton.mp own ▸ rfl)
  refine ⟨fun none => ?_, gap⟩
  subst none
  obtain ⟨p, hp, rfl⟩ := List.mem_map.mp (perm.mem_iff.mpr known)
  exact other (List.mem_singleton.mp hp ▸ rfl)

theorem mmap_next (capacity : Capacity pages) (start : t.startVa.toNat % 2 ^ 30 = 0)
    {s : MmapHistory} (consistent : Consistent t pages head s)
    {call : MmapCall} (allowed : call.Allowed head s) (safe : call.Safe t pages mmapStart s)
    (some : s.ranges ≠ []) :
    ∃ r after, Returns (fun fuel => call.perform fuel s.space t head mmapStart) (r, after) ∧
      Mmapped t pages head s call r after ∧ Consistent t pages head ⟨after, s.ranges ++ [(r, call.length)]⟩ ∧
      ∀ known, RegionsWithin s.space.regions head known → RegionsWithin after.regions head (call.block :: known) := by
  obtain ⟨ptrs, chain, mapped, sorted, rest, ranges, perm⟩ := consistent.later some
  obtain ⟨isKernel, isSecure, perform⟩ := call.perform_eq
  obtain ⟨aligned, fits, place⟩ := safe.place.resolve_left some
  have rounded : (pageUp call.size).toNat = call.length := pageUp_toNat _ (by have := safe.rounds; omega)
  have nonempty : call.size ≠ 0 := by
    have positive := allowed.size
    bv_omega
  have positive : 0 < call.length := by
    have size := allowed.size
    unfold MmapCall.length
    omega
  have inside := safe.window
  rw [MmapCall.base, if_neg (fun h => some h.1)] at inside
  have fresh := allowed.heap.2 _ chain
  have other : call.block ≠ head := fun same => fresh (same ▸ List.mem_cons_self)
  have proper : head ≠ 0 := fun null => chain.proper (null ▸ List.mem_cons_self)
  have returned : ∀ p ∈ head :: ptrs, s.space.regions.rangeOf p ∈ s.ranges := by
    rw [ranges]
    exact List.forall_mem_cons.mpr ⟨List.mem_cons_self, fun p hp =>
      List.mem_cons_of_mem _ (perm.mem_iff.mp (List.mem_map_of_mem hp))⟩
  -- where the range goes, no search finds a region and the insertion finds the place
  obtain ⟨apart, front, nothing⟩ : (∀ q ∈ s.ranges, Apart q (call.address, call.length)) ∧
      (∀ inner last, ptrs = inner ++ [last] →
        call.address.toNat + call.length ≤ (s.space.regions last).vaBase.toNat →
        (∀ p ∈ inner, EndsBefore (s.space.regions.rangeOf p) (call.address, call.length)) →
        inner ≠ [] ∧ call.address.toNat + call.length ≠ (s.space.regions last).vaBase.toNat) ∧
      ∀ fuel, ptrs.length < fuel →
        (if call.flags &&& mapFixed ≠ 0
          then searchMmapRegionFixed fuel s.space.regions head call.address (pageUp call.size)
          else searchMmapRegion fuel s.space.regions head (pageUp call.size)) = Option.some 0 := by
    rcases place with ⟨fixed, above⟩ | ⟨free, first, rest', last, whole, fitsIn⟩
    · have ends : ∀ p ∈ head :: ptrs, EndsBefore (s.space.regions.rangeOf p) (call.address, call.length) :=
        fun p hp => above _ (returned p hp)
      refine ⟨fun q hq => Or.inl (above q hq), fun inner last split low _ => ?_, fun fuel enough => ?_⟩
      · have behind := ends last (split ▸ by simp)
        unfold EndsBefore Regions.rangeOf at behind
        exact absurd behind (by dsimp only; omega)
      · rw [if_pos (show call.flags &&& mapFixed ≠ 0 from fixed)]
        exact fixed_finds_nothing chain rounded positive fits ends enough
    · obtain ⟨rfl, rfl⟩ := List.cons.inj (ranges.symm.trans whole)
      obtain ⟨inner, back, split, final, nothing⟩ :=
        loose_finds_nothing chain rounded positive sorted perm fitsIn
      refine ⟨fun q hq => fitsIn.apart q (ranges ▸ hq), fun inner' last' same low below => ?_, fun fuel enough => ?_⟩
      · obtain ⟨rfl, one⟩ := List.append_inj' (split.symm.trans same) rfl
        cases one
        exact loose_front perm fitsIn split final low below
      · rw [if_neg (show ¬ call.flags &&& mapFixed ≠ 0 from free)]
        exact nothing fuel enough
  obtain ⟨regions, recorded⟩ : ∃ regions, regions = Regions.record (Function.update s.space.regions call.block noRegion)
    call.block call.address isKernel isSecure (pageUp call.size) (call.caller.prot call.prot) := ⟨_, rfl⟩
  obtain ⟨after, ran, same, tables, frames, taken, walked, kept⟩ :=
    mmap_pages capacity start consistent allowed aligned safe.rounds inside regions
  have apart' : ∀ p ∈ ptrs, Apart (s.space.regions.rangeOf p) (call.address, (pageUp call.size).toNat) :=
    fun p hp => rounded ▸ apart _ (returned p (List.mem_cons_of_mem head hp))
  rw [← rounded] at front positive fits
  obtain ⟨below, above, split, inserted, ordered⟩ :=
    recorded_inserted recorded chain fresh allowed.heap.1 apart' sorted positive fits front
  obtain ⟨start, linked, ⟨least, returns⟩, back, chain', mapped', sorted', first, listed⟩ :=
    inserted_list recorded chain fresh mapped split inserted ordered
  rw [rounded] at listed
  rw [split, List.map_append] at perm
  refine ⟨call.address, { after with regions := linked.setNext head start }, ⟨max ptrs.length least, ?_⟩, ?_, ?_, ?_⟩
  · intro fuel enough
    refine (perform ..).trans ?_
    exact genericMmap_inserted nonempty proper (mapped head List.mem_cons_self) other allowed.heap.1
      (nothing fuel (by omega)) recorded ran same (returns fuel (by omega)) back
  · refine ⟨aligned, fun _ => rfl, apart, walked, kept, taken, (head :: below).map s.space.regions.rangeOf,
      above.map s.space.regions.rangeOf, ⟨_, chain, ?_⟩, ⟨_, chain', ?_⟩⟩
    · rw [described_all mapped, split, ← List.map_append, List.cons_append]
    · rw [described_all mapped', List.map_cons, first, listed]
      rfl
  · refine ⟨tables, frames, _, chain', Or.inr ⟨mapped', sorted', rest ++ [(call.address, call.length)], ?_, ?_⟩⟩
    · rw [ranges, first]
      rfl
    · rw [listed]
      exact (List.perm_middle.trans (perm.cons _)).trans (List.perm_append_singleton _ _).symm
  · intro known within ptrs' other p hp
    obtain rfl := other.unique chain'
    have old := within _ chain
    rw [split] at old
    simp only [List.mem_cons, List.mem_append] at hp old ⊢
    grind

/-- One call whose condition holds. -/
theorem mmap_call (capacity : Capacity pages) (start : t.startVa.toNat % 2 ^ 30 = 0)
    (kernelStart : mmapStart.toNat % 4096 = 0) {s : MmapHistory} (consistent : Consistent t pages head s)
    {call : MmapCall} (allowed : call.Allowed head s) (safe : call.Safe t pages mmapStart s) :
    ∃ r after, Returns (fun fuel => call.perform fuel s.space t head mmapStart) (r, after) ∧
      Mmapped t pages head s call r after ∧ Consistent t pages head ⟨after, s.ranges ++ [(r, call.length)]⟩ ∧
      ∀ known, RegionsWithin s.space.regions head known → RegionsWithin after.regions head (call.block :: known) := by
  cases Classical.em (s.ranges = []) with
  | inl none =>
    obtain ⟨r, after, returns, mmapped, next, alone⟩ :=
      mmap_first capacity start kernelStart consistent allowed safe none
    refine ⟨r, after, returns, mmapped, next, fun known within ptrs chain p hp => ?_⟩
    obtain rfl := List.mem_singleton.mp (alone ptrs chain p hp)
    exact List.mem_cons_of_mem _ (within _ (consistent.first none).2 p List.mem_cons_self)
  | inr some => exact mmap_next capacity start consistent allowed safe some

end RealmVm
