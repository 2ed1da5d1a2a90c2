import RealmVm.Basic
import Mathlib.Logic.Function.Basic

/-! The physical frame allocator: one bitmap byte for each 4 KB frame of an arena.
The bitmap is the memory behind `bitmap_frame`, indexed like the pointer, so an index
outside the arena is still an access. Callers pass the address of a global allocator,
hence the null test of every function is left out. -/
namespace RealmVm

def kframeUsedByte : Byte := 0xFF
def kframeFreeByte : Byte := 0x00
def kframeSize : Word := 0x1000

structure KframeAlloc where
  frameCount : Word
  frameStart : Word
  bitmapFrame : Word → Byte
  bitmapCount : Word
  availableFrameCount : Word

/-- Stores `v` at `n` consecutive indices from `i` on. -/
def fillBitmap (bitmap : Word → Byte) (v : Byte) (i : Word) : Nat → Word → Byte
  | 0 => bitmap
  | n + 1 => fillBitmap (Function.update bitmap i v) v (i + 1) n

/-- Returns 0 and leaves the allocator alone for an empty arena. -/
def kframeAllocatorInit (fa : KframeAlloc) (bitmapFrame : Word → Byte)
    (bitmapSize frameStart size : Word) : Int × KframeAlloc :=
  if size = 0 then (0, fa)
  else (1,
    { frameStart := frameStart
      frameCount := size / kframeSize
      bitmapFrame := fillBitmap bitmapFrame kframeFreeByte 0 bitmapSize.toNat
      availableFrameCount := size / pageSize4KB
      bitmapCount := bitmapSize })

/-- The marking loop: `n` frames from index `i` on become used, one at a time. -/
def markUsed (fa : KframeAlloc) (i : Word) : Nat → KframeAlloc
  | 0 => fa
  | n + 1 =>
    markUsed { fa with
      bitmapFrame := Function.update fa.bitmapFrame i kframeUsedByte
      availableFrameCount := fa.availableFrameCount - 1 } (i + 1) n

/-- The search of `kframe_allocate_single_frame`, over the `n` indices from `start` on. -/
def firstFree (bitmap : Word → Byte) (start : Word) : Nat → Option Word
  | 0 => none
  | n + 1 => if bitmap start = kframeFreeByte then some start else firstFree bitmap (start + 1) n

def kframeAllocateSingleFrame (fa : KframeAlloc) : Word × KframeAlloc :=
  if fa.availableFrameCount = 0 then (0, fa)
  else match firstFree fa.bitmapFrame 0 fa.frameCount.toNat with
    | some start =>
      (fa.frameStart + start * kframeSize,
        { fa with
          availableFrameCount := fa.availableFrameCount - 1
          bitmapFrame := Function.update fa.bitmapFrame start kframeUsedByte })
    | none => (mapFailed, fa)

def kframeFree (fa : KframeAlloc) (address : Word) : KframeAlloc :=
  let index := (address - fa.frameStart) / kframeSize
  if address < fa.frameStart ∨ fa.frameStart + fa.frameCount * kframeSize < address then fa
  else { fa with
    bitmapFrame := Function.update fa.bitmapFrame index kframeFreeByte
    availableFrameCount := fa.availableFrameCount + 1 }

/-- The check loop of `kframe_allocate_fixed`: is one of the `n` frames from `i` on used? -/
def anyUsed (bitmap : Word → Byte) (i : Word) : Nat → Bool
  | 0 => false
  | n + 1 => bitmap i == kframeUsedByte || anyUsed bitmap (i + 1) n

def kframeAllocateFixed (fa : KframeAlloc) (start count : Word) : Word × KframeAlloc :=
  let frameEnd := fa.frameStart + fa.frameCount * kframeSize
  if start < fa.frameStart ∨ frameEnd < start + count * kframeSize then (mapFailed, fa)
  else
    let index := (start - fa.frameStart) / kframeSize
    if anyUsed fa.bitmapFrame index count.toNat then (mapFailed, fa)
    else (start, markUsed fa index count.toNat)

/-- The search loop of `kframe_allocate_range`, with `n` frames left from `i` on.
`target` is the address the current run of free frames starts at, `lCount` its length. -/
def rangeSearch (fa : KframeAlloc) (count i target lCount : Word) : Nat → Word × Word
  | 0 => (target, lCount)
  | n + 1 =>
    let next : Word × Word :=
      if fa.bitmapFrame i = kframeFreeByte then
        (if target = mapFailed then i * kframeSize + fa.frameStart else target, lCount + 1)
      else (mapFailed, 0)
    if next.2 = count then next else rangeSearch fa count (i + 1) next.1 next.2 n

def kframeAllocateRange (fa : KframeAlloc) (count : Word) : Word × KframeAlloc :=
  if fa.availableFrameCount < count then (mapFailed, fa)
  else
    let found := rangeSearch fa count 0 mapFailed 0 fa.frameCount.toNat
    if found.2 = count then
      (found.1, markUsed fa ((found.1 - fa.frameStart) / kframeSize) count.toNat)
    else (found.1, fa)


/-! What the loops compute. Indices wrap like the source's, so a stretch of `n` indices
from `i` on is the set of `j` with `(j - i).toNat < n`. -/

theorem offset_succ (i j : Word) (n : Nat) (bound : n + 1 ≤ 2 ^ 64) :
    (j - i).toNat < n + 1 ↔ j = i ∨ (j - (i + 1)).toNat < n := by
  constructor
  · intro h
    by_cases same : j = i
    · exact Or.inl same
    · right
      bv_omega
  · rintro (rfl | h) <;> bv_omega

theorem fillBitmap_apply (bitmap : Word → Byte) (v : Byte) (i j : Word) (n : Nat)
    (bound : n ≤ 2 ^ 64) :
    fillBitmap bitmap v i n j = if (j - i).toNat < n then v else bitmap j := by
  induction n generalizing bitmap i with
  | zero => simp [fillBitmap]
  | succ n ih =>
    rw [fillBitmap, ih _ _ (by omega)]
    by_cases same : j = i
    · subst same
      simp
    · simp only [offset_succ i j n bound, same, false_or, Function.update_of_ne same]

theorem anyUsed_iff (bitmap : Word → Byte) (i : Word) (n : Nat) (bound : n ≤ 2 ^ 64) :
    anyUsed bitmap i n = true ↔ ∃ j, (j - i).toNat < n ∧ bitmap j = kframeUsedByte := by
  induction n generalizing i with
  | zero => simp [anyUsed]
  | succ n ih =>
    simp only [anyUsed, Bool.or_eq_true, beq_iff_eq, ih (i + 1) (by omega),
      offset_succ i _ n bound]
    constructor
    · rintro (h | ⟨j, hj, h⟩)
      · exact ⟨i, Or.inl rfl, h⟩
      · exact ⟨j, Or.inr hj, h⟩
    · rintro ⟨j, rfl | hj, h⟩
      · exact Or.inl h
      · exact Or.inr ⟨j, hj, h⟩

@[simp] theorem markUsed_frameCount (fa : KframeAlloc) (i : Word) (n : Nat) :
    (markUsed fa i n).frameCount = fa.frameCount := by
  induction n generalizing fa i with
  | zero => rfl
  | succ n ih => rw [markUsed, ih]

@[simp] theorem markUsed_frameStart (fa : KframeAlloc) (i : Word) (n : Nat) :
    (markUsed fa i n).frameStart = fa.frameStart := by
  induction n generalizing fa i with
  | zero => rfl
  | succ n ih => rw [markUsed, ih]

theorem markUsed_bitmapFrame (fa : KframeAlloc) (i : Word) (n : Nat) :
    (markUsed fa i n).bitmapFrame = fillBitmap fa.bitmapFrame kframeUsedByte i n := by
  induction n generalizing fa i with
  | zero => rfl
  | succ n ih => rw [markUsed, ih, fillBitmap]

theorem markUsed_available (fa : KframeAlloc) (i : Word) (n : Nat) :
    (markUsed fa i n).availableFrameCount = fa.availableFrameCount - BitVec.ofNat 64 n := by
  induction n generalizing fa i with
  | zero => simp [markUsed]
  | succ n ih =>
    rw [markUsed, ih]
    bv_omega

theorem kframeAllocateRange_arena (fa : KframeAlloc) (count : Word) :
    (kframeAllocateRange fa count).2.frameStart = fa.frameStart ∧
      (kframeAllocateRange fa count).2.frameCount = fa.frameCount := by
  unfold kframeAllocateRange
  split
  · exact ⟨rfl, rfl⟩
  · simp only
    split
    · exact ⟨markUsed_frameStart _ _ _, markUsed_frameCount _ _ _⟩
    · exact ⟨rfl, rfl⟩

theorem kframeAllocateFixed_arena (fa : KframeAlloc) (start count : Word) :
    (kframeAllocateFixed fa start count).2.frameStart = fa.frameStart ∧
      (kframeAllocateFixed fa start count).2.frameCount = fa.frameCount := by
  simp only [kframeAllocateFixed]
  split
  · exact ⟨rfl, rfl⟩
  · split
    · exact ⟨rfl, rfl⟩
    · exact ⟨markUsed_frameStart _ _ _, markUsed_frameCount _ _ _⟩

theorem kframeFree_arena (fa : KframeAlloc) (address : Word) :
    (kframeFree fa address).frameStart = fa.frameStart ∧ (kframeFree fa address).frameCount = fa.frameCount := by
  simp only [kframeFree]
  split <;> exact ⟨rfl, rfl⟩

/-- The address of frame `k` of the arena. -/
def frameAddress (fa : KframeAlloc) (k : Nat) : Word :=
  fa.frameStart + BitVec.ofNat 64 k * kframeSize

/-- The index that is computed back from an address which does not wrap. -/
theorem index_of_offset {fa : KframeAlloc} {k : Nat} (offset : (frameAddress fa k - fa.frameStart).toNat = k * 4096) :
    (frameAddress fa k - fa.frameStart) / kframeSize = BitVec.ofNat 64 k := by
  have bound := (frameAddress fa k - fa.frameStart).isLt
  have size : kframeSize.toNat = 4096 := by decide
  apply BitVec.eq_of_toNat_eq
  rw [BitVec.toNat_udiv, offset, size, BitVec.toNat_ofNat, Nat.mul_div_cancel k (by decide),
    Nat.mod_eq_of_lt (by omega)]

def FreeAt (fa : KframeAlloc) (k : Nat) : Prop :=
  fa.bitmapFrame (BitVec.ofNat 64 k) = kframeFreeByte

instance (fa : KframeAlloc) (k : Nat) : Decidable (FreeAt fa k) :=
  inferInstanceAs (Decidable (_ = _))

/-- `count` consecutive free frames from `j` on. -/
def FreeRun (fa : KframeAlloc) (count j : Nat) : Prop := ∀ k, j ≤ k → k < j + count → FreeAt fa k

/-- The loop invariant of the range search before it looks at frame `i`: the current
run has `l` frames and is maximal, and no run of the wanted length ended earlier. -/
structure SearchInvariant (fa : KframeAlloc) (count i l : Nat) (target : Word) : Prop where
  short : l < count
  within : l ≤ i
  run : FreeRun fa l (i - l)
  edge : l < i → ¬ FreeAt fa (i - l - 1)
  target_eq : target = if l = 0 then mapFailed else frameAddress fa (i - l)
  earlier : ∀ j, j + count ≤ i → ¬ FreeRun fa count j

theorem SearchInvariant.start (fa : KframeAlloc) (count : Nat) (positive : 0 < count) :
    SearchInvariant fa count 0 0 mapFailed where
  short := positive
  within := Nat.le_refl 0
  run := fun k _ h => absurd h (by omega)
  edge := fun h => absurd h (by omega)
  target_eq := rfl
  earlier := fun j h => absurd h (by omega)

/-- A free frame that completes the wanted length: the run starts where `target` says. -/
theorem SearchInvariant.found {fa : KframeAlloc} {count i l : Nat} {target : Word}
    (inv : SearchInvariant fa count i l target) (free : FreeAt fa i) (full : l + 1 = count) :
    FreeRun fa count (i - l) ∧ i - l + count = i + 1 := by
  have within := inv.within
  refine ⟨?_, by omega⟩
  intro k low high
  by_cases last : k = i
  · exact last ▸ free
  · exact inv.run k low (by omega)

theorem SearchInvariant.extend {fa : KframeAlloc} {count i l : Nat} {target : Word}
    (inv : SearchInvariant fa count i l target) (free : FreeAt fa i) (more : l + 1 < count)
    (next : Word) (next_eq : next = frameAddress fa (i - l)) :
    SearchInvariant fa count (i + 1) (l + 1) next where
  short := more
  within := Nat.succ_le_succ inv.within
  run := by
    intro k low high
    have within := inv.within
    by_cases last : k = i
    · exact last ▸ free
    · exact inv.run k (by omega) (by omega)
  edge := by
    intro h
    have same : i + 1 - (l + 1) - 1 = i - l - 1 := by omega
    rw [same]
    exact inv.edge (by omega)
  target_eq := by
    have same : i + 1 - (l + 1) = i - l := by omega
    rw [if_neg (by omega), same]
    exact next_eq
  earlier := by
    -- a run ending here would have to contain the used frame at the edge
    intro j hj run
    have within := inv.within
    by_cases old : j + count ≤ i
    · exact inv.earlier j old run
    · exact inv.edge (by omega) (run (i - l - 1) (by omega) (by omega))

theorem SearchInvariant.reset {fa : KframeAlloc} {count i l : Nat} {target : Word}
    (inv : SearchInvariant fa count i l target) (used : ¬ FreeAt fa i) :
    SearchInvariant fa count (i + 1) 0 mapFailed where
  short := Nat.lt_of_le_of_lt (Nat.zero_le l) inv.short
  within := Nat.zero_le _
  run := fun k low high => absurd high (by omega)
  edge := fun _ => used
  target_eq := rfl
  earlier := by
    intro j hj run
    have short := inv.short
    by_cases old : j + count ≤ i
    · exact inv.earlier j old run
    · exact used (run i (by omega) (by omega))


theorem rangeSearch_spec (fa : KframeAlloc) (count : Word) (positive : 0 < count.toNat)
    (distinct : ∀ k, k < fa.frameCount.toNat → frameAddress fa k ≠ mapFailed)
    (n i l : Nat) (target : Word) (left : i + n = fa.frameCount.toNat)
    (inv : SearchInvariant fa count.toNat i l target) (found : Word × Word)
    (ran : rangeSearch fa count (BitVec.ofNat 64 i) target (BitVec.ofNat 64 l) n = found) :
    (found.2 = count ∧ ∃ j, j + count.toNat ≤ fa.frameCount.toNat ∧
      found.1 = frameAddress fa j ∧ FreeRun fa count.toNat j ∧
      ∀ j', j' < j → ¬ FreeRun fa count.toNat j') ∨
    (found.2 ≠ count ∧ ∃ l', SearchInvariant fa count.toNat fa.frameCount.toNat l' found.1) := by
  induction n generalizing i l target with
  | zero =>
    right
    have same : i = fa.frameCount.toNat := by omega
    subst same
    have short := inv.short
    have bound := count.isLt
    rw [rangeSearch] at ran
    subst ran
    exact ⟨by bv_omega, l, inv⟩
  | succ n ih =>
    have advance : BitVec.ofNat 64 i + 1 = BitVec.ofNat 64 (i + 1) := by bv_omega
    have longer : BitVec.ofNat 64 l + 1 = BitVec.ofNat 64 (l + 1) := by bv_omega
    rw [rangeSearch, advance] at ran
    by_cases free : FreeAt fa i
    · have next : (if target = mapFailed then BitVec.ofNat 64 i * kframeSize + fa.frameStart
          else target) = frameAddress fa (i - l) := by
        by_cases first : l = 0
        · rw [inv.target_eq, if_pos first, if_pos rfl, first, frameAddress, BitVec.add_comm]
          rfl
        · have known : target = frameAddress fa (i - l) := by
            rw [inv.target_eq, if_neg first]
          rw [known, if_neg (distinct _ (by omega))]
      have cond : fa.bitmapFrame (BitVec.ofNat 64 i) = kframeFreeByte := free
      simp only [if_pos cond, next, longer] at ran
      by_cases full : l + 1 = count.toNat
      · left
        have hit : BitVec.ofNat 64 (l + 1) = count := by bv_omega
        rw [if_pos hit] at ran
        subst ran
        obtain ⟨run, place⟩ := inv.found free full
        exact ⟨hit, i - l, by omega, rfl, run, fun j' lower => inv.earlier j' (by omega)⟩
      · have short := inv.short
        have bound := count.isLt
        have miss : BitVec.ofNat 64 (l + 1) ≠ count := by bv_omega
        rw [if_neg miss] at ran
        exact ih (i + 1) (l + 1) _ (by omega) (inv.extend free (by omega) _ rfl) ran
    · have cond : ¬ fa.bitmapFrame (BitVec.ofNat 64 i) = kframeFreeByte := free
      have miss : (0 : Word) ≠ count := by bv_omega
      simp only [if_neg cond, if_neg miss] at ran
      exact ih (i + 1) 0 _ (by omega) (inv.reset free) ran

end RealmVm
