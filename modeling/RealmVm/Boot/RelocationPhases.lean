import RealmVm.Boot.Relocation

/-! What the two phases make of an image, and for which RELA sections it is right. -/
namespace RealmVm

open Lib

namespace RelaSection

variable (r : RelaSection) (m : Word → Byte)

/-- What the loops read: the section's size, its entries, and the values of their symbols. -/
def reads : Set Word := {x | x ∈ Bytes.span (r.header + 32) 8 ∨ x ∈ Bytes.span (r.header + 56) 8 ∨
  ∃ i < (r.count m).toNat, x ∈ Bytes.span (r.entry (BitVec.ofNat 64 i)) 24 ∨
    x ∈ Bytes.span (r.symbol m (BitVec.ofNat 64 i) + 8) 8}

def Agrees (m' : Word → Byte) : Prop := ∀ x ∈ r.reads m, m' x = m x

def targetWord (base : Word) (i : Nat) : Set Word := Bytes.span (r.target m base (BitVec.ofNat 64 i)) 8

end RelaSection

/-- The bytes of `global_relocations`. -/
def storeTable (relocations : Word) : Set Word := Bytes.span relocations (16 * maxRelocations)

/-- A loaded image with a RELA section: the words it names lie in the image, are different
words, and belong neither to `global_relocations` nor to what describes the relocations. -/
structure RelaImage (m : Word → Byte) (base relocations : Word) (r : RelaSection) (size : Nat) : Prop where
  found : findRela m base (eShoff m base + base) (eShnum m base).toNat 0 = some r
  proper : base ≠ 0
  noWrap : base.toNat + size ≤ 2 ^ 64
  inside : ∀ i < (r.count m).toNat, (rOffset m (r.entry (BitVec.ofNat 64 i))).toNat + 8 ≤ size
  distinct : ∀ i < (r.count m).toNat, ∀ j < (r.count m).toNat, i ≠ j →
    Disjoint (r.targetWord m base i) (r.targetWord m base j)
  outside : ∀ i < (r.count m).toNat, Disjoint (r.targetWord m base i) (storeTable relocations)
  described : ∀ i < (r.count m).toNat, Disjoint (r.targetWord m base i) (r.reads m)
  separate : Disjoint (storeTable relocations) (r.reads m)

/-- The image before, after the first phase and after the second, and the elements of
`global_relocations` that the first wrote. -/
structure RelocationDone (m : Word → Byte) (base relocations : Word) (r : RelaSection) (size : Nat)
    (physical virtual : Word → Byte) (recorded : List Nat) : Prop where
  first : ∀ i < (r.count m).toNat, r.handled m (BitVec.ofNat 64 i) = true →
    load64 physical (r.target m base (BitVec.ofNat 64 i)) = base + r.addendValue m (BitVec.ofNat 64 i)
  second : ∀ i < (r.count m).toNat, r.handled m (BitVec.ofNat 64 i) = true →
    load64 virtual (r.target m base (BitVec.ofNat 64 i)) = kernelVaBase + r.addendValue m (BitVec.ofNat 64 i)
  kept : ∀ x ∈ Bytes.span base size, x ∉ storeTable relocations →
    (∀ i < (r.count m).toNat, r.handled m (BitVec.ofNat 64 i) = true → x ∉ r.targetWord m base i) →
    physical x = m x ∧ virtual x = m x
  bounded : ∀ k ∈ recorded, k < maxRelocations

def RelocatesCorrectly (m : Word → Byte) (base relocations : Word) (r : RelaSection) (size : Nat) : Prop :=
  ∃ physical recorded, Returns (fun fuel => relocateKernel fuel m base relocations) (physical, recorded) ∧
    RelocationDone m base relocations r size physical (shiftToVa physical relocations) recorded

variable {m m' : Word → Byte} {base relocations : Word} {r : RelaSection} {size : Nat}

namespace RelaSection

theorem entry_part {i off : Nat} (few : i < (r.count m).toNat) (inside : off + 8 ≤ 24) :
    Bytes.span (r.entry (BitVec.ofNat 64 i) + BitVec.ofNat 64 off) 8 ⊆ r.reads m :=
  fun _ member => Or.inr (Or.inr ⟨i, few, Or.inl (Bytes.span_part _ inside (by decide) member)⟩)

variable (agrees : r.Agrees m m')
include agrees

theorem Agrees.count : r.count m' = r.count m := by
  have size : shSize m' r.header = shSize m r.header := load64_congr fun x inside => agrees x (Or.inl inside)
  have entsize : shEntsize m' r.header = shEntsize m r.header :=
    load64_congr fun x inside => agrees x (Or.inr (Or.inl inside))
  rw [RelaSection.count, RelaSection.count, size, entsize]

theorem Agrees.word {i : Nat} (few : i < (r.count m).toNat) (off : Nat) (inside : off + 8 ≤ 24) :
    load64 m' (r.entry (BitVec.ofNat 64 i) + BitVec.ofNat 64 off) =
      load64 m (r.entry (BitVec.ofNat 64 i) + BitVec.ofNat 64 off) :=
  load64_congr fun x member => agrees x (entry_part few inside member)

variable {i : Nat} (few : i < (r.count m).toNat)
include few

theorem Agrees.target (base : Word) : r.target m' base (BitVec.ofNat 64 i) = r.target m base (BitVec.ofNat 64 i) := by
  have offset := agrees.word few 0 (by decide)
  rw [BitVec.add_zero] at offset
  exact congrArg (base + ·) offset

theorem Agrees.info : rInfo m' (r.entry (BitVec.ofNat 64 i)) = rInfo m (r.entry (BitVec.ofNat 64 i)) :=
  agrees.word few 8 (by decide)

theorem Agrees.addend : rAddend m' (r.entry (BitVec.ofNat 64 i)) = rAddend m (r.entry (BitVec.ofNat 64 i)) :=
  agrees.word few 16 (by decide)

theorem Agrees.symbol : r.symbol m' (BitVec.ofNat 64 i) = r.symbol m (BitVec.ofNat 64 i) := by
  rw [RelaSection.symbol, RelaSection.symbol, agrees.info few]

theorem Agrees.handled : r.handled m' (BitVec.ofNat 64 i) = r.handled m (BitVec.ofNat 64 i) := by
  simp only [RelaSection.handled, agrees.info few]

theorem Agrees.value : stValue m' (r.symbol m' (BitVec.ofNat 64 i)) = stValue m (r.symbol m (BitVec.ofNat 64 i)) := by
  rw [agrees.symbol few]
  exact load64_congr fun x inside => agrees x (Or.inr (Or.inr ⟨i, few, Or.inr inside⟩))

end RelaSection

/- The stores of the first `k` turns of the first loop. -/
def physicalStores (r : RelaSection) (m : Word → Byte) (base : Word) (k : Nat) : List (Word × List Byte) :=
  ((List.range k).filter fun i => r.handled m (BitVec.ofNat 64 i)).map fun i =>
    (r.target m base (BitVec.ofNat 64 i), Bytes.encode 8 (base + r.addendValue m (BitVec.ofNat 64 i)).toNat)

/- The values that the second phase stores, `word` being what the record loop found. -/
def virtualStores (r : RelaSection) (m : Word → Byte) (base : Word) (word : Word → Byte) (k : Nat) :
    List (Word × List Byte) :=
  (List.range k).map fun i => (r.target m base (BitVec.ofNat 64 i),
    Bytes.encode 8 (load64 word (r.target m base (BitVec.ofNat 64 i)) - base + kernelVaBase).toNat)

theorem mem_physicalStores {k : Nat} {s : Word × List Byte} (member : s ∈ physicalStores r m base k) :
    ∃ i < k, r.handled m (BitVec.ofNat 64 i) = true ∧ Bytes.span s.1 s.2.length = r.targetWord m base i := by
  obtain ⟨i, inside, rfl⟩ := List.mem_map.mp member
  obtain ⟨few, handled⟩ := List.mem_filter.mp inside
  refine ⟨i, List.mem_range.mp few, handled, ?_⟩
  rw [Bytes.length_encode]
  rfl

theorem mem_virtualStores {word : Word → Byte} {k : Nat} {s : Word × List Byte}
    (member : s ∈ virtualStores r m base word k) :
    ∃ i < k, Bytes.span s.1 s.2.length = r.targetWord m base i := by
  obtain ⟨i, few, rfl⟩ := List.mem_map.mp member
  refine ⟨i, List.mem_range.mp few, ?_⟩
  rw [Bytes.length_encode]
  rfl

theorem physicalStores_outside {k : Nat} {x : Word}
    (outside : ∀ i < k, r.handled m (BitVec.ofNat 64 i) = true → x ∉ r.targetWord m base i) :
    Bytes.storeAll m (physicalStores r m base k) x = m x :=
  Bytes.storeAll_outside fun s member => by
    obtain ⟨i, few, handled, span⟩ := mem_physicalStores member
    rw [span]
    exact outside i few handled

namespace RelaImage

variable (image : RelaImage m base relocations r size)
include image

/-- Stores into target words change nothing that describes the relocations. -/
theorem agrees_of_targets {k : Nat} (few : k ≤ (r.count m).toNat)
    (same : ∀ x, (∀ i < k, x ∉ r.targetWord m base i) → m' x = m x) : r.Agrees m m' :=
  fun x read => same x fun i inside => Set.disjoint_right.mp (image.described i (by omega)) read

theorem agrees_physicalStores {k : Nat} (few : k ≤ (r.count m).toNat) :
    r.Agrees m (Bytes.storeAll m (physicalStores r m base k)) :=
  image.agrees_of_targets few fun _ outside => physicalStores_outside fun i inside _ => outside i inside

/-- One turn of the first loop. -/
theorem relocate_step {k : Nat} (more : k < (r.count m).toNat) :
    r.relocate base (Bytes.storeAll m (physicalStores r m base k)) (BitVec.ofNat 64 k) =
      Bytes.storeAll m (physicalStores r m base (k + 1)) := by
  have agrees := image.agrees_physicalStores (Nat.le_of_lt more)
  have step : physicalStores r m base (k + 1) = physicalStores r m base k ++
      if r.handled m (BitVec.ofNat 64 k) then [(r.target m base (BitVec.ofNat 64 k),
        Bytes.encode 8 (base + r.addendValue m (BitVec.ofNat 64 k)).toNat)] else [] := by
    unfold physicalStores
    rw [List.range_succ, List.filter_append, List.map_append]
    cases handled : r.handled m (BitVec.ofNat 64 k) <;> simp [handled]
  unfold RelaSection.relocate
  rw [step, Bytes.storeAll_append, agrees.handled more, agrees.target more, agrees.value more, agrees.addend more]
  cases r.handled m (BitVec.ofNat 64 k) with
  | false => rfl
  | true =>
    simp only [if_true, Bytes.storeAll_cons, RelaSection.addendValue, BitVec.add_assoc]
    rfl

theorem relocateLoop_run (short : (r.count m).toNat < 2 ^ 16) (fuel : Nat) {k : Nat} (few : k ≤ (r.count m).toNat)
    (enough : (r.count m).toNat - k < fuel) :
    relocateLoop r base fuel (Bytes.storeAll m (physicalStores r m base k)) (BitVec.ofNat 16 k) =
      some (Bytes.storeAll m (physicalStores r m base (r.count m).toNat)) := by
  induction fuel generalizing k with
  | zero => omega
  | succ fuel ih =>
    have counter : (BitVec.ofNat 16 k).setWidth 64 = BitVec.ofNat 64 k := by
      apply BitVec.eq_of_toNat_eq
      rw [BitVec.toNat_setWidth, BitVec.toNat_ofNat, BitVec.toNat_ofNat]
      omega
    have count := (image.agrees_physicalStores few).count
    rw [relocateLoop, counter, count]
    cases Nat.eq_or_lt_of_le few with
    | inl done =>
      have stop : ¬ BitVec.ofNat 64 k < r.count m := by
        rw [BitVec.lt_def, BitVec.toNat_ofNat]
        omega
      rw [if_neg stop, done]
    | inr more =>
      have goes : BitVec.ofNat 64 k < r.count m := by
        rw [BitVec.lt_def, BitVec.toNat_ofNat]
        omega
      have next : BitVec.ofNat 16 k + 1 = BitVec.ofNat 16 (k + 1) := by
        rw [BitVec.ofNat_add]
        rfl
      rw [if_pos goes, image.relocate_step more, next]
      exact ih more (by omega)

/-- From 65536 entries on the 16-bit counter never reaches the count. -/
theorem relocateLoop_endless (long : 2 ^ 16 ≤ (r.count m).toNat) (fuel : Nat) (i : Half) (agrees : r.Agrees m m') :
    relocateLoop r base fuel m' i = none := by
  induction fuel generalizing m' i with
  | zero => rfl
  | succ fuel ih =>
    have small := i.isLt
    have few : i.toNat < (r.count m).toNat := by omega
    have counter : i.setWidth 64 = BitVec.ofNat 64 i.toNat := by
      apply BitVec.eq_of_toNat_eq
      rw [BitVec.toNat_setWidth, BitVec.toNat_ofNat]
    have goes : BitVec.ofNat 64 i.toNat < r.count m' := by
      rw [agrees.count, BitVec.lt_def, BitVec.toNat_ofNat]
      omega
    rw [relocateLoop, counter, if_pos goes]
    apply ih
    intro x read
    unfold RelaSection.relocate
    split
    · have apart : x ∉ Bytes.span (r.target m' base (BitVec.ofNat 64 i.toNat)) 8 := by
        rw [agrees.target few]
        exact Set.disjoint_right.mp (image.described i.toNat few) read
      rw [store64_outside apart]
      exact agrees x read
    · exact agrees x read

end RelaImage

section Table

theorem storeAddress_eq (relocations : Word) (i : Nat) :
    storeAddress relocations (BitVec.ofNat 64 i) = relocations + BitVec.ofNat 64 (16 * i) := by
  rw [storeAddress, BitVec.ofNat_mul]
  rfl

theorem storeValue_eq (relocations : Word) (i : Nat) :
    storeValue relocations (BitVec.ofNat 64 i) = relocations + BitVec.ofNat 64 (16 * i + 8) := by
  rw [BitVec.ofNat_add, ← BitVec.add_assoc, ← storeAddress_eq]
  rfl

/-- An element of the table, as the code sets one. -/
def setElement (relocations : Word) (m : Word → Byte) (i : Nat) (address value : Word) : Word → Byte :=
  store64 (store64 m (storeAddress relocations (BitVec.ofNat 64 i)) address)
    (storeValue relocations (BitVec.ofNat 64 i)) value

def element (relocations : Word) (m : Word → Byte) (i : Nat) : Word × Word :=
  (load64 m (storeAddress relocations (BitVec.ofNat 64 i)), load64 m (storeValue relocations (BitVec.ofNat 64 i)))

variable {i j : Nat} {x address value : Word}

theorem elementWord_part (relocations : Word) (few : i < maxRelocations) :
    Bytes.span (storeAddress relocations (BitVec.ofNat 64 i)) 8 ⊆ storeTable relocations ∧
      Bytes.span (storeValue relocations (BitVec.ofNat 64 i)) 8 ⊆ storeTable relocations := by
  have limit : maxRelocations = 272 := rfl
  rw [storeAddress_eq, storeValue_eq]
  exact ⟨Bytes.span_part _ (by omega) (by decide), Bytes.span_part _ (by omega) (by decide)⟩

theorem setElement_outside (few : i < maxRelocations) (outside : x ∉ storeTable relocations) :
    setElement relocations m i address value x = m x := by
  have parts := elementWord_part relocations few
  exact (store64_outside fun member => outside (parts.2 member)).trans
    (store64_outside fun member => outside (parts.1 member))

/-- Setting one element leaves the others. -/
theorem element_setElement (first : i < maxRelocations) (second : j < maxRelocations) :
    element relocations (setElement relocations m j address value) i =
      if i = j then (address, value) else element relocations m i := by
  have limit : maxRelocations = 272 := rfl
  have apart {p q : Nat} (order : p + 8 ≤ q ∨ q + 8 ≤ p) (low : p < 4352) (high : q < 4352) :
      Disjoint (Bytes.span (relocations + BitVec.ofNat 64 p) 8) (Bytes.span (relocations + BitVec.ofNat 64 q) 8) :=
    Bytes.span_apart _ order (by omega) (by omega)
  unfold element setElement
  simp only [storeAddress_eq, storeValue_eq]
  cases decEq i j with
  | isTrue same =>
    subst same
    rw [if_pos rfl, load64_store64, load64_store64_apart (apart (by omega) (by omega) (by omega)), load64_store64]
  | isFalse other =>
    rw [if_neg other, load64_store64_apart (apart (by omega) (by omega) (by omega)),
      load64_store64_apart (apart (by omega) (by omega) (by omega)),
      load64_store64_apart (apart (by omega) (by omega) (by omega)),
      load64_store64_apart (apart (by omega) (by omega) (by omega))]

/-- Stores outside of the table leave its elements. -/
theorem element_congr (few : i < maxRelocations) (same : ∀ x ∈ storeTable relocations, m' x = m x) :
    element relocations m' i = element relocations m i := by
  obtain ⟨first, second⟩ := elementWord_part relocations few
  unfold element
  rw [load64_congr fun x inside => same x (first inside), load64_congr fun x inside => same x (second inside)]

theorem clearRelocations_spec (relocations : Word) (m : Word → Byte) {n : Nat} (few : n ≤ maxRelocations) :
    (∀ x, x ∉ storeTable relocations → clearRelocations relocations n m x = m x) ∧
      ∀ i < n, element relocations (clearRelocations relocations n m) i = (0, 0) := by
  induction n with
  | zero => exact ⟨fun _ _ => rfl, fun _ none => nomatch none⟩
  | succ n ih =>
    obtain ⟨same, cleared⟩ := ih (by omega)
    constructor
    · intro x outside
      exact (setElement_outside (by omega) outside).trans (same x outside)
    · intro i inside
      refine (element_setElement (by omega) (by omega)).trans ?_
      split
      · rfl
      · exact cleared i (by omega)

end Table

/-- The table after `k` turns of the record loop, which began with the memory `word`. -/
structure Recorded (m : Word → Byte) (base relocations : Word) (r : RelaSection) (word m' : Word → Byte)
    (k : Nat) : Prop where
  agrees : r.Agrees m m'
  same : ∀ x, x ∉ storeTable relocations → m' x = word x
  elements : ∀ i < maxRelocations, element relocations m' i =
    if i < k then (r.target m base (BitVec.ofNat 64 i),
      load64 word (r.target m base (BitVec.ofNat 64 i)) - base + kernelVaBase) else (0, 0)

namespace RelaImage

variable {word : Word → Byte} {k : Nat} (image : RelaImage m base relocations r size)
include image

theorem recorded_clear (agrees : r.Agrees m word) :
    Recorded m base relocations r word (clearRelocations relocations maxRelocations word) 0 := by
  obtain ⟨same, cleared⟩ := clearRelocations_spec relocations word (Nat.le_refl maxRelocations)
  refine ⟨fun x read => ?_, same, cleared⟩
  rw [same x (Set.disjoint_right.mp image.separate read)]
  exact agrees x read

/-- One turn of the record loop, while the table has room. -/
theorem record_step (recorded : Recorded m base relocations r word m' k) (more : k < (r.count m).toNat)
    (room : k < maxRelocations) :
    Recorded m base relocations r word (r.record base relocations m' (BitVec.ofNat 64 k)) (k + 1) := by
  have target := recorded.agrees.target more base
  -- the target is looked up again after the address is stored
  have agrees :
      r.Agrees m (store64 m' (storeAddress relocations (BitVec.ofNat 64 k)) (r.target m base (BitVec.ofNat 64 k))) := by
    intro x read
    have outside := Set.disjoint_right.mp image.separate read
    rw [store64_outside fun member => outside ((elementWord_part _ room).1 member)]
    exact recorded.agrees x read
  have found : load64 (store64 m' (storeAddress relocations (BitVec.ofNat 64 k)) (r.target m base (BitVec.ofNat 64 k)))
      (r.target m base (BitVec.ofNat 64 k)) = load64 word (r.target m base (BitVec.ofNat 64 k)) := by
    apply load64_congr
    intro x inside
    have outside := Set.disjoint_left.mp (image.outside k more) inside
    rw [store64_outside fun member => outside ((elementWord_part _ room).1 member)]
    exact recorded.same x outside
  have step : r.record base relocations m' (BitVec.ofNat 64 k) = setElement relocations m' k
      (r.target m base (BitVec.ofNat 64 k))
      (load64 word (r.target m base (BitVec.ofNat 64 k)) - base + kernelVaBase) := by
    unfold RelaSection.record setElement
    simp only [target, agrees.target more, found]
  rw [step]
  refine ⟨fun x read => ?_, fun x outside => ?_, fun i few => ?_⟩
  · rw [setElement_outside room (Set.disjoint_right.mp image.separate read)]
    exact recorded.agrees x read
  · rw [setElement_outside room outside]
    exact recorded.same x outside
  · rw [element_setElement few room, recorded.elements i few]
    cases Nat.lt_trichotomy i k with
    | inl below => rw [if_neg (by omega), if_pos below, if_pos (by omega)]
    | inr rest =>
      cases rest with
      | inl here =>
        subst here
        rw [if_pos rfl, if_pos (by omega)]
      | inr above => rw [if_neg (by omega), if_neg (by omega), if_neg (by omega)]

omit image in
theorem recordLoop_done (recorded : Recorded m base relocations r word m' (r.count m).toNat)
    (short : (r.count m).toNat < 2 ^ 16) {fuel : Nat} :
    recordLoop r base relocations (fuel + 1) m' (BitVec.ofNat 16 (r.count m).toNat) = some (m', []) := by
  have stop : ¬ (BitVec.ofNat 16 (r.count m).toNat).setWidth 64 < r.count m' := by
    rw [recorded.agrees.count, BitVec.lt_def, BitVec.toNat_setWidth, BitVec.toNat_ofNat]
    omega
  rw [recordLoop, if_neg stop]

omit image in
theorem recordLoop_more (recorded : Recorded m base relocations r word m' k) (more : k < (r.count m).toNat)
    (short : (r.count m).toNat < 2 ^ 16) {fuel : Nat} :
    recordLoop r base relocations (fuel + 1) m' (BitVec.ofNat 16 k) =
      (recordLoop r base relocations fuel (r.record base relocations m' (BitVec.ofNat 64 k))
        (BitVec.ofNat 16 (k + 1))).map
        fun (m, recorded) => (m, k :: recorded) := by
  have counter : (BitVec.ofNat 16 k).setWidth 64 = BitVec.ofNat 64 k := by
    apply BitVec.eq_of_toNat_eq
    rw [BitVec.toNat_setWidth, BitVec.toNat_ofNat, BitVec.toNat_ofNat]
    omega
  have goes : BitVec.ofNat 64 k < r.count m' := by
    rw [recorded.agrees.count, BitVec.lt_def, BitVec.toNat_ofNat]
    omega
  have next : BitVec.ofNat 16 k + 1 = BitVec.ofNat 16 (k + 1) := by
    rw [BitVec.ofNat_add]
    rfl
  have index : (BitVec.ofNat 16 k).toNat = k := by
    rw [BitVec.toNat_ofNat]
    omega
  rw [recordLoop, counter, if_pos goes, next, index]

theorem recordLoop_run (fits : (r.count m).toNat ≤ maxRelocations) {left : Nat}
    (recorded : Recorded m base relocations r word m' k) (rest : k + left = (r.count m).toNat) :
    ∃ last, Recorded m base relocations r word last (r.count m).toNat ∧ ∀ fuel, left < fuel →
      recordLoop r base relocations fuel m' (BitVec.ofNat 16 k) = some (last, List.range' k left) := by
  have limit : maxRelocations = 272 := rfl
  induction left generalizing k m' with
  | zero =>
    obtain rfl : k = (r.count m).toNat := rest
    refine ⟨m', recorded, fun fuel enough => ?_⟩
    obtain ⟨spare, rfl⟩ := Nat.exists_eq_add_of_lt enough
    rw [Nat.zero_add]
    exact recordLoop_done recorded (by omega)
  | succ left ih =>
    obtain ⟨last, after, ran⟩ := ih (image.record_step recorded (by omega) (by omega)) (by omega)
    refine ⟨last, after, fun fuel enough => ?_⟩
    obtain ⟨spare, rfl⟩ := Nat.exists_eq_add_of_lt enough
    rw [recordLoop_more recorded (by omega) (by omega), ran _ (by omega), Option.map_some, List.range'_succ]

/-- With more entries than elements the loop writes behind the table. -/
theorem recordLoop_beyond (long : maxRelocations < (r.count m).toNat) (short : (r.count m).toNat < 2 ^ 16) {fuel : Nat}
    (recorded : Recorded m base relocations r word m' k) (few : k ≤ maxRelocations) {last : Word → Byte}
    {written : List Nat}
    (ran : recordLoop r base relocations fuel m' (BitVec.ofNat 16 k) = some (last, written)) :
    maxRelocations ∈ written := by
  induction fuel generalizing k m' written with
  | zero => exact nomatch ran
  | succ fuel ih =>
    rw [recordLoop_more recorded (by omega) short] at ran
    obtain ⟨⟨final, later⟩, rest, same⟩ := Option.map_eq_some_iff.mp ran
    obtain ⟨rfl, rfl⟩ := Prod.mk.inj same
    cases Nat.eq_or_lt_of_le few with
    | inl full =>
      subst full
      exact List.mem_cons_self
    | inr room =>
      exact List.mem_cons_of_mem _ (ih (image.record_step recorded (by omega) room) room rest)

end RelaImage

namespace RelaImage

variable {word last : Word → Byte} {i k : Nat} (image : RelaImage m base relocations r size)
include image

theorem target_ne_zero (few : i < (r.count m).toNat) : r.target m base (BitVec.ofNat 64 i) ≠ 0 := by
  have inside := image.inside i few
  have noWrap := image.noWrap
  have proper := image.proper
  unfold RelaSection.target
  bv_omega

omit image in
theorem virtualStores_outside {x : Word} (outside : ∀ i < k, x ∉ r.targetWord m base i) :
    Bytes.storeAll m' (virtualStores r m base word k) x = m' x :=
  Bytes.storeAll_outside fun s member => by
    obtain ⟨i, few, span⟩ := mem_virtualStores member
    rw [span]
    exact outside i few

omit image in
theorem virtualStores_succ (i : Nat) : Bytes.storeAll last (virtualStores r m base word (i + 1)) =
    store64 (Bytes.storeAll last (virtualStores r m base word i)) (r.target m base (BitVec.ofNat 64 i))
      (load64 word (r.target m base (BitVec.ofNat 64 i)) - base + kernelVaBase) := by
  simp only [virtualStores, List.range_succ, List.map_append, Bytes.storeAll_append, List.map_cons, List.map_nil,
    Bytes.storeAll_cons, store64]
  rfl

/-- `shift_to_va` stores every recorded value and stops behind the last. -/
theorem shiftLoop_run (fits : (r.count m).toNat ≤ maxRelocations)
    (recorded : Recorded m base relocations r word last (r.count m).toNat) {left : Nat} (few : i ≤ (r.count m).toNat)
    (rest : i + left = maxRelocations) :
    shiftLoop relocations left (BitVec.ofNat 64 i) (Bytes.storeAll last (virtualStores r m base word i)) =
      Bytes.storeAll last (virtualStores r m base word (r.count m).toNat) := by
  induction left generalizing i with
  | zero =>
    have done : i = (r.count m).toNat := by omega
    rw [shiftLoop, done]
  | succ left ih =>
    have kept :
        element relocations (Bytes.storeAll last (virtualStores r m base word i)) i = element relocations last i :=
      element_congr (by omega) fun x inside => virtualStores_outside fun j few =>
        Set.disjoint_right.mp (image.outside j (by omega)) inside
    rw [recorded.elements i (by omega)] at kept
    have address := congrArg Prod.fst kept
    have value := congrArg Prod.snd kept
    simp only [element] at address value
    rw [shiftLoop]
    simp only [address, value]
    cases Nat.eq_or_lt_of_le few with
    | inl done =>
      subst done
      rw [if_neg (Nat.lt_irrefl _), if_pos rfl]
    | inr more =>
      have next : BitVec.ofNat 64 i + 1 = BitVec.ofNat 64 (i + 1) := by
        rw [BitVec.ofNat_add]
        rfl
      rw [if_pos more, if_neg (image.target_ne_zero more), next, ← virtualStores_succ]
      exact ih more (by omega)

/-- Words stored at some of the targets are read back. -/
theorem stored_word {ps : List Nat} (below : ∀ i ∈ ps, i < (r.count m).toNat) (ascending : ps.Pairwise (· < ·))
    (value : Nat → Word) (member : i ∈ ps) :
    load64 (Bytes.storeAll m' (ps.map fun i => (r.target m base (BitVec.ofNat 64 i), Bytes.encode 8 (value i).toNat)))
      (r.target m base (BitVec.ofNat 64 i)) = value i := by
  have apart : (ps.map fun i => (r.target m base (BitVec.ofNat 64 i), Bytes.encode 8 (value i).toNat)).Pairwise
      fun s t => Disjoint (Bytes.span s.1 s.2.length) (Bytes.span t.1 t.2.length) := by
    rw [List.pairwise_map]
    refine ascending.imp_of_mem fun {i j} first second order => ?_
    rw [Bytes.length_encode, Bytes.length_encode]
    exact image.distinct i (below i first) j (below j second) (by omega)
  have fits : (Bytes.encode 8 (value i).toNat).length ≤ 2 ^ 64 := by
    rw [Bytes.length_encode]
    decide
  have back := Bytes.bytesAt_storeAll (m := m') apart (List.mem_map_of_mem member) fits
  rw [Bytes.length_encode] at back
  exact load64_of_bytes back

/-- After the first loop: the handled words are relocated, the others as they were. -/
theorem physical_word (few : i < (r.count m).toNat) :
    load64 (Bytes.storeAll m (physicalStores r m base (r.count m).toNat)) (r.target m base (BitVec.ofNat 64 i)) =
      if r.handled m (BitVec.ofNat 64 i) then base + r.addendValue m (BitVec.ofNat 64 i)
      else load64 m (r.target m base (BitVec.ofNat 64 i)) := by
  cases handled : r.handled m (BitVec.ofNat 64 i) with
  | true =>
    rw [if_pos rfl]
    exact image.stored_word (fun i member => List.mem_range.mp (List.mem_filter.mp member).1)
      (List.pairwise_lt_range.filter fun i => r.handled m (BitVec.ofNat 64 i))
      (fun i => base + r.addendValue m (BitVec.ofNat 64 i)) (List.mem_filter.mpr ⟨List.mem_range.mpr few, handled⟩)
  | false =>
    rw [if_neg Bool.false_ne_true]
    apply load64_congr
    intro x inside
    apply physicalStores_outside
    intro j below handled'
    have other : i ≠ j := by
      rintro rfl
      rw [handled] at handled'
      exact nomatch handled'
    exact Set.disjoint_left.mp (image.distinct i few j below other) inside

theorem virtual_word (last word : Word → Byte) (few : i < (r.count m).toNat) :
    load64 (Bytes.storeAll last (virtualStores r m base word (r.count m).toNat)) (r.target m base (BitVec.ofNat 64 i)) =
      load64 word (r.target m base (BitVec.ofNat 64 i)) - base + kernelVaBase := by
  exact image.stored_word (fun i member => List.mem_range.mp member) List.pairwise_lt_range
    (fun i => load64 word (r.target m base (BitVec.ofNat 64 i)) - base + kernelVaBase) (List.mem_range.mpr few)

end RelaImage

namespace RelaImage

variable (image : RelaImage m base relocations r size)
include image

/-- The first phase, while the entries fit into the table. -/
theorem relocateKernel_run (fits : (r.count m).toNat ≤ maxRelocations) : ∃ physical,
    Returns (fun fuel => relocateKernel fuel m base relocations) (physical, List.range' 0 (r.count m).toNat) ∧
    Recorded m base relocations r (Bytes.storeAll m (physicalStores r m base (r.count m).toNat)) physical
      (r.count m).toNat := by
  have limit : maxRelocations = 272 := rfl
  have cleared := image.recorded_clear (image.agrees_physicalStores (Nat.le_refl _))
  obtain ⟨physical, recorded, ran⟩ := image.recordLoop_run fits cleared (Nat.zero_add _)
  refine ⟨physical, ⟨(r.count m).toNat, fun fuel enough => ?_⟩, recorded⟩
  have first := image.relocateLoop_run (by omega) fuel (Nat.zero_le (r.count m).toNat) (by omega)
  have start : Bytes.storeAll m (physicalStores r m base 0) = m := rfl
  rw [start] at first
  have zero : (0 : Half) = BitVec.ofNat 16 0 := rfl
  unfold relocateKernel
  rw [image.found]
  simp only
  rw [zero, first]
  exact ran fuel enough

/-- The second phase after it. -/
theorem shiftToVa_run (fits : (r.count m).toNat ≤ maxRelocations) {word physical : Word → Byte}
    (recorded : Recorded m base relocations r word physical (r.count m).toNat) :
    shiftToVa physical relocations = Bytes.storeAll physical (virtualStores r m base word (r.count m).toNat) := by
  have run := image.shiftLoop_run fits recorded (Nat.zero_le _) (Nat.zero_add _)
  have start : Bytes.storeAll physical (virtualStores r m base word 0) = physical := rfl
  rw [start] at run
  unfold shiftToVa
  exact run

theorem relocateKernel_endless (long : 2 ^ 16 ≤ (r.count m).toNat) (fuel : Nat) :
    relocateKernel fuel m base relocations = none := by
  unfold relocateKernel
  rw [image.found]
  simp only
  rw [image.relocateLoop_endless long fuel 0 fun _ _ => rfl]

theorem relocateKernel_beyond (long : maxRelocations < (r.count m).toNat) (short : (r.count m).toNat < 2 ^ 16)
    (fuel : Nat) (enough : (r.count m).toNat < fuel) {physical : Word → Byte} {recorded : List Nat}
    (ran : relocateKernel fuel m base relocations = some (physical, recorded)) : maxRelocations ∈ recorded := by
  have cleared := image.recorded_clear (image.agrees_physicalStores (Nat.le_refl _))
  have first := image.relocateLoop_run short fuel (Nat.zero_le (r.count m).toNat) (by omega)
  have start : Bytes.storeAll m (physicalStores r m base 0) = m := rfl
  have zero : (0 : Half) = BitVec.ofNat 16 0 := rfl
  rw [start] at first
  unfold relocateKernel at ran
  rw [image.found] at ran
  simp only at ran
  rw [zero, first] at ran
  exact image.recordLoop_beyond long short cleared (Nat.zero_le _) ran

/-- Every handled word goes to its two values, every other word is shifted by the distance
between the image and `KERNEL_VA_BASE`. -/
theorem done_iff (fits : (r.count m).toNat ≤ maxRelocations) {physical : Word → Byte}
    (recorded : Recorded m base relocations r (Bytes.storeAll m (physicalStores r m base (r.count m).toNat)) physical
      (r.count m).toNat) :
    RelocationDone m base relocations r size physical (shiftToVa physical relocations)
        (List.range' 0 (r.count m).toNat) ↔
      (∀ i < (r.count m).toNat, r.handled m (BitVec.ofNat 64 i) = true) ∨ base = kernelVaBase := by
  rw [image.shiftToVa_run fits recorded]
  have found {i : Nat} (few : i < (r.count m).toNat) : load64 physical (r.target m base (BitVec.ofNat 64 i)) =
      load64 (Bytes.storeAll m (physicalStores r m base (r.count m).toNat)) (r.target m base (BitVec.ofNat 64 i)) :=
    load64_congr fun x inside => recorded.same x (Set.disjoint_left.mp (image.outside i few) inside)
  constructor
  · intro done
    by_contra neither
    obtain ⟨some, moved⟩ := not_or.mp neither
    push Not at some
    obtain ⟨i, few, unhandled⟩ := some
    have value := image.virtual_word physical (Bytes.storeAll m (physicalStores r m base (r.count m).toNat)) few
    rw [image.physical_word few, if_neg unhandled] at value
    have same : load64 (Bytes.storeAll physical (virtualStores r m base
        (Bytes.storeAll m (physicalStores r m base (r.count m).toNat)) (r.count m).toNat))
        (r.target m base (BitVec.ofNat 64 i)) = load64 m (r.target m base (BitVec.ofNat 64 i)) := by
      apply load64_congr
      intro x inside
      refine (done.kept x ?_ (Set.disjoint_left.mp (image.outside i few) inside) fun j below handled => ?_).2
      · exact Bytes.span_part base (i := (rOffset m (r.entry (BitVec.ofNat 64 i))).toNat) (image.inside i few)
          (by have noWrap := image.noWrap; omega) (by rwa [BitVec.ofNat_toNat, BitVec.setWidth_eq])
      · have other : i ≠ j := by
          rintro rfl
          exact unhandled handled
        exact Set.disjoint_left.mp (image.distinct i few j below other) inside
    rw [same] at value
    exact moved (by bv_omega)
  · intro harmless
    refine ⟨fun i few handled => ?_, fun i few handled => ?_, fun x _ outside untouched => ?_, fun k member => ?_⟩
    · rw [found few, image.physical_word few, if_pos handled]
    · rw [image.virtual_word _ _ few, image.physical_word few, if_pos handled]
      bv_omega
    · have first : physical x = m x := (recorded.same x outside).trans (physicalStores_outside untouched)
      refine ⟨first, ?_⟩
      by_cases hit : ∃ i < (r.count m).toNat, x ∈ r.targetWord m base i
      · obtain ⟨i, few, here⟩ := hit
        have unhandled : r.handled m (BitVec.ofNat 64 i) ≠ true := fun handled => untouched i few handled here
        have same : base = kernelVaBase := harmless.resolve_left fun all => unhandled (all i few)
        have value := image.virtual_word physical (Bytes.storeAll m (physicalStores r m base (r.count m).toNat)) few
        rw [image.physical_word few, if_neg unhandled, ← same, BitVec.sub_add_cancel] at value
        exact eq_of_load64 value x here
      · have miss : ∀ i < (r.count m).toNat, x ∉ r.targetWord m base i := fun i few here => hit ⟨i, few, here⟩
        exact (virtualStores_outside miss).trans first
    · have inside := List.mem_range'_1.mp member
      omega

end RelaImage

/-- Relocation is right for exactly the images with at most 272 entries, all of them of the
three types, or linked to the place they run at. -/
theorem relocates_correctly_iff (image : RelaImage m base relocations r size) :
    RelocatesCorrectly m base relocations r size ↔ (r.count m).toNat ≤ maxRelocations ∧
      ((∀ i < (r.count m).toNat, r.handled m (BitVec.ofNat 64 i) = true) ∨ base = kernelVaBase) := by
  have limit : maxRelocations = 272 := rfl
  constructor
  · rintro ⟨physical, written, returns, done⟩
    have short : (r.count m).toNat < 2 ^ 16 := by
      by_contra long
      obtain ⟨n, ran⟩ := returns
      have never := image.relocateKernel_endless (Nat.le_of_not_lt long) (n + 1)
      exact nomatch never.symm.trans (ran (n + 1) (Nat.lt_succ_self n))
    have fits : (r.count m).toNat ≤ maxRelocations := by
      by_contra long
      obtain ⟨n, ran⟩ := returns
      have beyond := image.relocateKernel_beyond (Nat.lt_of_not_le long) short
        (max n (r.count m).toNat + 1) (by omega) (ran _ (by omega))
      exact absurd (done.bounded _ beyond) (Nat.lt_irrefl _)
    obtain ⟨physical', returns', recorded⟩ := image.relocateKernel_run fits
    obtain ⟨rfl, rfl⟩ := Prod.mk.inj (returns.unique returns')
    exact ⟨fits, (image.done_iff fits recorded).mp done⟩
  · rintro ⟨fits, harmless⟩
    obtain ⟨physical, returns, recorded⟩ := image.relocateKernel_run fits
    exact ⟨physical, _, returns, (image.done_iff fits recorded).mpr harmless⟩

/- An image at 0x42000000 with one section, a RELA section of one entry for the word at
0x3000: of type RELATIVE or ABS64, with a symbol of value 0x40 and addend 5. -/
def tinyImage (relative : Bool) : Word → Byte :=
  Bytes.storeAll (fun _ => 0) [
    (0x42000028, Bytes.encode 8 0x1000), (0x4200003C, Bytes.encode 2 1), (0x42001004, Bytes.encode 4 4),
    (0x42001018, Bytes.encode 8 0x2000), (0x42001020, Bytes.encode 8 24), (0x42001038, Bytes.encode 8 24),
    (0x42002000, Bytes.encode 8 0x3000), (0x42002008, Bytes.encode 8 (2 ^ 32 + if relative then 1027 else 257)),
    (0x42002010, Bytes.encode 8 5), (0x42002020, Bytes.encode 8 0x40)]

def tinySection : RelaSection := ⟨0x42001000, 0x42002000, 0x42002000⟩

theorem tinyImage_facts : ∀ relative,
    findRela (tinyImage relative) 0x42000000 (eShoff (tinyImage relative) 0x42000000 + 0x42000000)
        (eShnum (tinyImage relative) 0x42000000).toNat 0 = some tinySection ∧
      tinySection.count (tinyImage relative) = 1 ∧ rOffset (tinyImage relative) (tinySection.entry 0) = 0x3000 ∧
      tinySection.symbol (tinyImage relative) 0 = 0x42002018 ∧
      tinySection.handled (tinyImage relative) 0 = !relative := by
  decide +kernel

/-- What the loops read, and the word that the entry names. -/
theorem tinyImage_spans (relative : Bool) :
    tinySection.reads (tinyImage relative) ⊆ Bytes.span (0x42000000 + BitVec.ofNat 64 0x1000) 0x1028 ∧
      ∀ i < (tinySection.count (tinyImage relative)).toNat, i = 0 ∧
        tinySection.targetWord (tinyImage relative) 0x42000000 i = Bytes.span (0x42000000 + BitVec.ofNat 64 0x3000) 8 := by
  obtain ⟨found, count, offset, symbol, _⟩ := tinyImage_facts relative
  have one {i : Nat} (few : i < (tinySection.count (tinyImage relative)).toNat) : i = 0 := by
    rw [count] at few
    exact Nat.lt_one_iff.mp few
  constructor
  · rintro x (size | entsize | ⟨i, few, entry | value⟩)
    · exact Bytes.span_part _ (i := 0x20) (by decide) (by decide) size
    · exact Bytes.span_part _ (i := 0x38) (by decide) (by decide) entsize
    · obtain rfl := one few
      exact Bytes.span_part _ (i := 0x1000) (by decide) (by decide) entry
    · obtain rfl := one few
      have here : tinySection.symbol (tinyImage relative) (BitVec.ofNat 64 0) = 0x42002018 := symbol
      rw [here] at value
      exact Bytes.span_part _ (i := 0x1020) (by decide) (by decide) value
  · intro i few
    obtain rfl := one few
    refine ⟨rfl, ?_⟩
    unfold RelaSection.targetWord RelaSection.target
    exact congrArg (fun a => Bytes.span (0x42000000 + a) 8) offset

theorem tinyImage_relaImage (relative : Bool) :
    RelaImage (tinyImage relative) 0x42000000 0x42008000 tinySection 0x10000 := by
  obtain ⟨found, count, offset, _⟩ := tinyImage_facts relative
  obtain ⟨reads, words⟩ := tinyImage_spans relative
  have table : storeTable 0x42008000 = Bytes.span (0x42000000 + BitVec.ofNat 64 0x8000) 4352 := rfl
  refine ⟨found, by decide, by decide, fun i few => ?_, fun i few j few' other => ?_, fun i few => ?_,
    fun i few => ?_, ?_⟩
  · obtain ⟨rfl, _⟩ := words i few
    have here : rOffset (tinyImage relative) (tinySection.entry (BitVec.ofNat 64 0)) = 0x3000 := offset
    rw [here]
    decide
  · exact absurd ((words i few).1.trans (words j few').1.symm) other
  · rw [(words i few).2, table]
    exact Bytes.span_apart _ (Or.inl (by decide)) (by decide) (by decide)
  · rw [(words i few).2]
    exact (Bytes.span_apart _ (Or.inr (by decide)) (by decide) (by decide)).mono_right reads
  · rw [table]
    exact (Bytes.span_apart _ (Or.inr (by decide)) (by decide) (by decide)).mono_right reads

theorem relocates_correctly_iff_one_word :
    RelocatesCorrectly (tinyImage false) 0x42000000 0x42008000 tinySection 0x10000 := by
  obtain ⟨_, count, _, _, handled⟩ := tinyImage_facts false
  refine (relocates_correctly_iff (tinyImage_relaImage false)).mpr ⟨?_, Or.inl fun i few => ?_⟩
  · rw [count]
    decide
  · rw [count] at few
    obtain rfl : i = 0 := Nat.lt_one_iff.mp few
    exact handled

/-- A RELATIVE entry is not relocated, but `shift_to_va` stores its word plus
`KERNEL_VA_BASE` minus the base. -/
theorem relative_word_shifted :
    RelaImage (tinyImage true) 0x42000000 0x42008000 tinySection 0x10000 ∧
    ¬ RelocatesCorrectly (tinyImage true) 0x42000000 0x42008000 tinySection 0x10000 := by
  have image := tinyImage_relaImage true
  obtain ⟨_, count, _, _, handled⟩ := tinyImage_facts true
  refine ⟨image, fun ⟨physical, written, returns, done⟩ => ?_⟩
  have fits : (tinySection.count (tinyImage true)).toNat ≤ maxRelocations := by
    rw [count]
    decide
  obtain ⟨physical', returns', recorded⟩ := image.relocateKernel_run fits
  obtain ⟨rfl, rfl⟩ := Prod.mk.inj (returns.unique returns')
  cases (image.done_iff fits recorded).mp done with
  | inl all =>
    have here := all 0 (by rw [count]; decide)
    exact nomatch handled.symm.trans here
  | inr linked =>
    revert linked
    decide

end RealmVm
