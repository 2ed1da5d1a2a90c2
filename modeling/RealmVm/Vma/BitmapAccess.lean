import RealmVm.Vma.FirstFit

/-! Which entries of the bitmap the frame allocator reads or writes. -/
namespace RealmVm

inductive BitmapCall where
  | range (count : Word)
  | fixed (start count : Word)
  | single
  | free (address : Word)
deriving DecidableEq

def BitmapCall.perform (fa : KframeAlloc) : BitmapCall → Word × KframeAlloc
  | .range count => kframeAllocateRange fa count
  | .fixed start count => kframeAllocateFixed fa start count
  | .single => kframeAllocateSingleFrame fa
  | .free address => (0, kframeFree fa address)

/- The loops of the source, with the indices that they look at or store to. -/

def indices (i : Word) : Nat → List Word
  | 0 => []
  | n + 1 => i :: indices (i + 1) n

def firstFreeAccesses (bitmap : Word → Byte) (start : Word) : Nat → List Word
  | 0 => []
  | n + 1 => start :: if bitmap start = kframeFreeByte then [] else firstFreeAccesses bitmap (start + 1) n

def anyUsedAccesses (bitmap : Word → Byte) (i : Word) : Nat → List Word
  | 0 => []
  | n + 1 => i :: if bitmap i = kframeUsedByte then [] else anyUsedAccesses bitmap (i + 1) n

def rangeSearchAccesses (bitmap : Word → Byte) (count i lCount : Word) : Nat → List Word
  | 0 => []
  | n + 1 =>
    let lCount := if bitmap i = kframeFreeByte then lCount + 1 else 0
    i :: if lCount = count then [] else rangeSearchAccesses bitmap count (i + 1) lCount n

/- The test before the loops of `kframe_allocate_fixed`. -/
def FixedRejected (fa : KframeAlloc) (start count : Word) : Prop :=
  start < fa.frameStart ∨ fa.frameStart + fa.frameCount * kframeSize < start + count * kframeSize

instance (fa : KframeAlloc) (start count : Word) : Decidable (FixedRejected fa start count) :=
  inferInstanceAs (Decidable (_ ∨ _))

/- The test of `kframe_free`. -/
def FreeRejected (fa : KframeAlloc) (address : Word) : Prop :=
  address < fa.frameStart ∨ fa.frameStart + fa.frameCount * kframeSize < address

instance (fa : KframeAlloc) (address : Word) : Decidable (FreeRejected fa address) :=
  inferInstanceAs (Decidable (_ ∨ _))

def BitmapCall.accesses (fa : KframeAlloc) : BitmapCall → List Word
  | .range count =>
    if fa.availableFrameCount < count then []
    else
      let found := rangeSearch fa count 0 mapFailed 0 fa.frameCount.toNat
      rangeSearchAccesses fa.bitmapFrame count 0 0 fa.frameCount.toNat ++
        if found.2 = count then indices ((found.1 - fa.frameStart) / kframeSize) count.toNat else []
  | .fixed start count =>
    if FixedRejected fa start count then []
    else
      let index := (start - fa.frameStart) / kframeSize
      anyUsedAccesses fa.bitmapFrame index count.toNat ++
        if anyUsed fa.bitmapFrame index count.toNat then [] else indices index count.toNat
  | .single => if fa.availableFrameCount = 0 then [] else firstFreeAccesses fa.bitmapFrame 0 fa.frameCount.toNat
  | .free address => if FreeRejected fa address then [] else [(address - fa.frameStart) / kframeSize]

variable {bitmap bitmap' : Word → Byte} {count i x : Word} {j n : Nat}

theorem mem_indices (bound : j + n ≤ 2 ^ 64) :
    x ∈ indices (BitVec.ofNat 64 j) n ↔ j ≤ x.toNat ∧ x.toNat < j + n := by
  induction n generalizing j with
  | zero =>
    refine iff_of_false List.not_mem_nil ?_
    omega
  | succ n ih =>
    have next : BitVec.ofNat 64 j + 1 = BitVec.ofNat 64 (j + 1) := by bv_omega
    have wide := x.isLt
    rw [indices, List.mem_cons, next, ih (by omega)]
    constructor
    · rintro (rfl | later)
      · rw [BitVec.toNat_ofNat, Nat.mod_eq_of_lt (by omega)]
        omega
      · omega
    · intro inside
      cases Nat.eq_or_lt_of_le inside.1 with
      | inl first =>
        left
        apply BitVec.eq_of_toNat_eq
        rw [BitVec.toNat_ofNat, Nat.mod_eq_of_lt (by omega), first]
      | inr later => exact .inr ⟨later, by omega⟩

theorem fillBitmap_indices (bitmap : Word → Byte) (v : Byte) (i : Word) (n : Nat) (x : Word) :
    fillBitmap bitmap v i n x = if x ∈ indices i n then v else bitmap x := by
  induction n generalizing bitmap i with
  | zero => rfl
  | succ n ih =>
    rw [fillBitmap, ih, indices]
    cases decEq x i with
    | isTrue same =>
      subst same
      rw [if_pos List.mem_cons_self, Function.update_self, ite_self]
    | isFalse other =>
      rw [Function.update_of_ne other]
      simp only [List.mem_cons, other, false_or]

/- The loops depend on nothing but what they look at. -/
section Footprint

theorem firstFree_congr (agree : ∀ x ∈ firstFreeAccesses bitmap i n, bitmap' x = bitmap x) :
    firstFree bitmap' i n = firstFree bitmap i n := by
  induction n generalizing i with
  | zero => rfl
  | succ n ih =>
    obtain ⟨here, rest⟩ := List.forall_mem_cons.mp agree
    simp only [firstFree, here]
    split
    · rfl
    · rename_i used
      rw [if_neg used] at rest
      exact ih rest

theorem firstFree_mem (found : firstFree bitmap i n = some x) : x ∈ firstFreeAccesses bitmap i n := by
  induction n generalizing i with
  | zero => exact nomatch found
  | succ n ih =>
    rw [firstFree] at found
    rw [firstFreeAccesses]
    split at found
    · obtain rfl := Option.some.inj found
      exact List.mem_cons_self
    · rename_i used
      rw [if_neg used]
      exact List.mem_cons_of_mem _ (ih found)

theorem anyUsed_congr (agree : ∀ x ∈ anyUsedAccesses bitmap i n, bitmap' x = bitmap x) :
    anyUsed bitmap' i n = anyUsed bitmap i n := by
  induction n generalizing i with
  | zero => rfl
  | succ n ih =>
    obtain ⟨here, rest⟩ := List.forall_mem_cons.mp agree
    rw [anyUsed, anyUsed, here]
    cases decEq (bitmap i) kframeUsedByte with
    | isTrue used => rw [used, beq_self_eq_true, Bool.true_or, Bool.true_or]
    | isFalse other =>
      rw [if_neg other] at rest
      rw [ih rest]

theorem rangeSearch_congr {fa : KframeAlloc} {lCount : Word} (target : Word)
    (agree : ∀ x ∈ rangeSearchAccesses fa.bitmapFrame count i lCount n, bitmap x = fa.bitmapFrame x) :
    rangeSearch { fa with bitmapFrame := bitmap } count i target lCount n = rangeSearch fa count i target lCount n := by
  induction n generalizing i target lCount with
  | zero => rfl
  | succ n ih =>
    obtain ⟨here, rest⟩ := List.forall_mem_cons.mp agree
    simp only [rangeSearch, here]
    cases decEq (fa.bitmapFrame i) kframeFreeByte with
    | isTrue free =>
      simp only [if_pos free] at rest ⊢
      split
      · rfl
      · rename_i more
        rw [if_neg more] at rest
        exact ih _ rest
    | isFalse used =>
      simp only [if_neg used] at rest ⊢
      split
      · rfl
      · rename_i more
        rw [if_neg more] at rest
        exact ih _ rest

end Footprint

theorem mem_rangeSearchAccesses {lCount : Word}
    (member : x ∈ rangeSearchAccesses bitmap count (BitVec.ofNat 64 j) lCount n)
    (bound : j + n ≤ 2 ^ 64) : j ≤ x.toNat ∧ x.toNat < j + n := by
  induction n generalizing j lCount with
  | zero => exact nomatch member
  | succ n ih =>
    have next : BitVec.ofNat 64 j + 1 = BitVec.ofNat 64 (j + 1) := by bv_omega
    simp only [rangeSearchAccesses, next] at member
    generalize (if bitmap (BitVec.ofNat 64 j) = kframeFreeByte then lCount + 1 else 0) = longer at member
    cases List.mem_cons.mp member with
    | inl here =>
      rw [here, BitVec.toNat_ofNat, Nat.mod_eq_of_lt (by omega)]
      omega
    | inr later =>
      split at later
      · exact nomatch later
      · obtain ⟨low, high⟩ := ih later (by omega)
        omega

theorem mem_firstFreeAccesses (member : x ∈ firstFreeAccesses bitmap (BitVec.ofNat 64 j) n) (bound : j + n ≤ 2 ^ 64) :
    j ≤ x.toNat ∧ x.toNat < j + n := by
  induction n generalizing j with
  | zero => exact nomatch member
  | succ n ih =>
    have next : BitVec.ofNat 64 j + 1 = BitVec.ofNat 64 (j + 1) := by bv_omega
    rw [firstFreeAccesses, next] at member
    cases List.mem_cons.mp member with
    | inl here =>
      rw [here, BitVec.toNat_ofNat, Nat.mod_eq_of_lt (by omega)]
      omega
    | inr later =>
      split at later
      · exact nomatch later
      · obtain ⟨low, high⟩ := ih later (by omega)
        omega

/-- The check loop stops behind the first used entry. -/
theorem mem_anyUsedAccesses : x ∈ anyUsedAccesses bitmap (BitVec.ofNat 64 j) n ↔
    ∃ k, j ≤ k ∧ k < j + n ∧ x = BitVec.ofNat 64 k ∧
      ∀ m, j ≤ m → m < k → bitmap (BitVec.ofNat 64 m) ≠ kframeUsedByte := by
  induction n generalizing j with
  | zero =>
    refine iff_of_false List.not_mem_nil ?_
    rintro ⟨k, low, high, _⟩
    omega
  | succ n ih =>
    have next : BitVec.ofNat 64 j + 1 = BitVec.ofNat 64 (j + 1) := by bv_omega
    rw [anyUsedAccesses, List.mem_cons, next]
    constructor
    · rintro (rfl | later)
      · exact ⟨j, Nat.le_refl j, by omega, rfl, fun m low high => absurd low (by omega)⟩
      · split at later
        · exact nomatch later
        · rename_i used
          obtain ⟨k, low, high, same, before⟩ := ih.mp later
          refine ⟨k, by omega, by omega, same, fun m from_ upTo => ?_⟩
          cases Nat.eq_or_lt_of_le from_ with
          | inl first => exact first ▸ used
          | inr further => exact before m further upTo
    · rintro ⟨k, low, high, same, before⟩
      cases Nat.eq_or_lt_of_le low with
      | inl first => exact .inl (first ▸ same)
      | inr later =>
        right
        rw [if_neg (before j (Nat.le_refl j) later)]
        exact ih.mpr ⟨k, later, by omega, same, fun m from_ upTo => before m (by omega) upTo⟩

/- Entries read from `fa` and then written, over a bitmap that agrees on what was read. -/
theorem overlay {read written : List Word} {v : Byte} (agree : ∀ x ∈ read, bitmap' x = bitmap x) (x : Word) :
    (if x ∈ written then v else bitmap' x) =
      if x ∈ read ++ written then if x ∈ written then v else bitmap x else bitmap' x := by
  by_cases marked : x ∈ written
  · rw [if_pos marked, if_pos (List.mem_append_right _ marked), if_pos marked]
  · rw [if_neg marked, if_neg marked]
    split
    · rename_i member
      exact agree x ((List.mem_append.mp member).resolve_right marked)
    · rfl

theorem untouched {read : List Word} (agree : ∀ x ∈ read, bitmap' x = bitmap x) (x : Word) :
    bitmap' x = if x ∈ read then bitmap x else bitmap' x := by
  split
  · rename_i member
    exact agree x member
  · rfl

/-- The accesses are all: a bitmap that agrees there gives the same answer, and an entry
outside keeps whatever it holds. -/
theorem BitmapCall.footprint (call : BitmapCall) {fa : KframeAlloc}
    (agree : ∀ x ∈ call.accesses fa, bitmap x = fa.bitmapFrame x) :
    (call.perform { fa with bitmapFrame := bitmap }).1 = (call.perform fa).1 ∧
      (call.perform { fa with bitmapFrame := bitmap }).2.availableFrameCount = (call.perform fa).2.availableFrameCount ∧
      ∀ x, (call.perform { fa with bitmapFrame := bitmap }).2.bitmapFrame x =
        if x ∈ call.accesses fa then (call.perform fa).2.bitmapFrame x else bitmap x := by
  cases call with
  | range count =>
    simp only [accesses, perform, kframeAllocateRange] at agree ⊢
    split at agree
    · rename_i few
      simp only [if_pos few]
      exact ⟨trivial, trivial, untouched agree⟩
    · rename_i many
      obtain ⟨read, _⟩ := List.forall_mem_append.mp agree
      have search := rangeSearch_congr mapFailed read
      simp only [if_neg many, search]
      split at agree
      · rename_i hit
        simp only [if_pos hit, markUsed_available, markUsed_bitmapFrame, fillBitmap_indices]
        exact ⟨trivial, trivial, overlay read⟩
      · rename_i miss
        simp only [if_neg miss]
        exact ⟨trivial, trivial, untouched agree⟩
  | fixed start count =>
    simp only [accesses, perform, kframeAllocateFixed] at agree ⊢
    split at agree
    · rename_i rejected
      have test := rejected
      unfold FixedRejected at test
      simp only [if_pos rejected, if_pos test]
      exact ⟨trivial, trivial, untouched agree⟩
    · rename_i accepted
      have test := accepted
      unfold FixedRejected at test
      obtain ⟨read, _⟩ := List.forall_mem_append.mp agree
      have search := anyUsed_congr read
      simp only [if_neg accepted, if_neg test, search]
      split at agree
      · rename_i used
        simp only [if_pos used]
        exact ⟨trivial, trivial, untouched agree⟩
      · rename_i none
        simp only [if_neg none, markUsed_available, markUsed_bitmapFrame, fillBitmap_indices]
        exact ⟨trivial, trivial, overlay read⟩
  | single =>
    simp only [accesses, perform, kframeAllocateSingleFrame] at agree ⊢
    split at agree
    · rename_i empty
      simp only [if_pos empty]
      exact ⟨trivial, trivial, untouched agree⟩
    · rename_i some
      have search := firstFree_congr agree
      simp only [if_neg some, search]
      cases found : firstFree fa.bitmapFrame 0 fa.frameCount.toNat with
      | none => exact ⟨rfl, rfl, untouched agree⟩
      | some k =>
        refine ⟨rfl, rfl, fun x => ?_⟩
        have member := firstFree_mem found
        cases decEq x k with
        | isTrue same =>
          subst same
          simp only [Function.update_self, if_pos member]
        | isFalse other =>
          simp only [Function.update_of_ne other]
          exact untouched agree x
  | free address =>
    simp only [accesses, perform, kframeFree] at agree ⊢
    split at agree
    · rename_i rejected
      have test := rejected
      unfold FreeRejected at test
      simp only [if_pos rejected, if_pos test]
      exact ⟨trivial, trivial, untouched agree⟩
    · rename_i accepted
      have test := accepted
      unfold FreeRejected at test
      simp only [if_neg accepted, if_neg test, List.mem_singleton]
      refine ⟨trivial, trivial, fun x => ?_⟩
      cases decEq x ((address - fa.frameStart) / kframeSize) with
      | isTrue same =>
        subst same
        rw [if_pos rfl, Function.update_self, Function.update_self]
      | isFalse other => rw [if_neg other, Function.update_of_ne other]

end RealmVm
