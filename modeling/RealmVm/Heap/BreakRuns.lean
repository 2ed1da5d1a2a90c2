import RealmVm.Heap.HeapRuns

/-! Runs of `k_sbrk` and `shared_sbrk` after a base was accepted. -/
namespace RealmVm

open Lib

/-- The break lies between its base and the end of the heap. -/
def HeapBreak.InHeap (b : HeapBreak) : Prop :=
  b.sbrkBase.toNat ≤ b.sbrk.toNat ∧ b.sbrk.toNat ≤ b.heapStart.toNat + b.heapSize.toNat

/-- A heap behind `KERNEL_VA_BASE` that ends before the addresses that stand for errors. -/
structure HeapBreak.Near (b : HeapBreak) : Prop where
  low : kernelVaBase.toNat ≤ b.heapStart.toNat
  high : b.heapStart.toNat + b.heapSize.toNat + 4096 < 2 ^ 64

/-- What a call should do: up by exactly the length or not at all, down by it but not
below the base. -/
structure HeapBreak.Moved (b : HeapBreak) (length : Word) (ret : Word) (b' : HeapBreak) : Prop where
  up : 0 < length.toInt → (ret = enomemAddress ∧ b' = b) ∨
    (b'.sbrk.toNat = b.sbrk.toNat + length.toNat ∧ ret = b'.sbrk)
  down : length.toInt < 0 →
    b'.sbrk.toNat = max b.sbrkBase.toNat (b.sbrk.toNat - length.toInt.natAbs) ∧ ret = b'.sbrk
  zero : length = 0 → ret = b.sbrk ∧ b' = b
  fixed : b' = { b with sbrk := b'.sbrk }

def sbrkNext (shared : Bool) (b : HeapBreak) (length : Word) : HeapBreak := (sbrk shared b length).2

def SbrkKept (shared : Bool) (b : HeapBreak) (length : Word) : Prop :=
  b.Moved length (sbrk shared b length).1 (sbrkNext shared b length) ∧ (sbrkNext shared b length).InHeap

/-- The sum of break and length is a 64-bit number. -/
def SumFits (b : HeapBreak) (length : Word) : Prop := 0 < length.toInt → b.sbrk.toNat + length.toNat < 2 ^ 64

variable {shared : Bool} {b : HeapBreak} {length : Word}

theorem sign_cases (length : Word) : length = 0 ∨
    (length.slt 0 = false ∧ length.toInt = length.toNat ∧ 0 < length.toNat ∧ length.toNat < 2 ^ 63) ∨
    (length.slt 0 = true ∧ length.toInt = length.toNat - 2 ^ 64 ∧ 2 ^ 63 ≤ length.toNat) := by
  have value := BitVec.toInt_eq_toNat_cond length
  have bound := length.isLt
  have sign := BitVec.slt_zero_eq_msb (x := length)
  cases top : length.msb with
  | true =>
    have large := BitVec.msb_eq_true_iff_two_mul_ge.mp top
    refine Or.inr (Or.inr ⟨sign.trans top, ?_, by omega⟩)
    rw [value, if_neg (by omega)]
    rfl
  | false =>
    have small := BitVec.msb_eq_false_iff_two_mul_lt.mp top
    cases Nat.eq_zero_or_pos length.toNat with
    | inl zero => exact Or.inl (BitVec.eq_of_toNat_eq zero)
    | inr positive =>
      refine Or.inr (Or.inl ⟨sign.trans top, ?_, positive, by omega⟩)
      rw [value, if_pos (by omega)]

/-- Both functions share the branch for negative lengths, which never fails. -/
theorem sbrk_down (shared : Bool) (near : b.Near) (inHeap : b.InHeap) (inside : b.heapStart.toNat ≤ b.sbrkBase.toNat)
    (negative : length.slt 0 = true) (large : 2 ^ 63 ≤ length.toNat) :
    ∃ v : Word, sbrk shared b length = (v, { b with sbrk := v }) ∧
      v.toNat = max b.sbrkBase.toNat (b.sbrk.toNat - (2 ^ 64 - length.toNat)) := by
  obtain ⟨low, high⟩ := near
  obtain ⟨above, below⟩ := inHeap
  have origin : kernelVaBase.toNat = 0xFFFFF00000000000 := rfl
  have bound := length.isLt
  have moved : (b.sbrk - (0 - length)).toNat = b.sbrk.toNat - (2 ^ 64 - length.toNat) := by bv_omega
  have both : sbrk shared b length = sbrkDown b length := by
    cases shared with
    | true => exact if_pos negative
    | false => exact if_pos negative
  refine ⟨_, both, ?_⟩
  split
  · rename_i under
    rw [BitVec.lt_def, moved] at under
    omega
  · rename_i beyond
    rw [BitVec.lt_def, moved] at beyond
    omega

/-- A positive length whose sum with the break is a 64-bit number. -/
theorem sbrk_sum (near : b.Near) (inHeap : b.InHeap) (inside : b.heapStart.toNat ≤ b.sbrkBase.toNat)
    (positive : length.slt 0 = false) (some : 0 < length.toNat) (sum : b.sbrk.toNat + length.toNat < 2 ^ 64) :
    sbrk shared b length = (enomemAddress, b) ∨
      (sbrk shared b length = (b.sbrk + length, { b with sbrk := b.sbrk + length }) ∧
      b.sbrk.toNat + length.toNat ≤ b.heapStart.toNat + b.heapSize.toNat) := by
  obtain ⟨low, high⟩ := near
  obtain ⟨above, below⟩ := inHeap
  have nonzero : length ≠ 0 := by bv_omega
  have notBelow : ¬ length + b.sbrk < b.heapStart := by bv_omega
  have limit : b.heapStart + b.heapSize < length + b.sbrk ↔
      b.heapStart.toNat + b.heapSize.toNat < b.sbrk.toNat + length.toNat := by
    rw [BitVec.lt_def, BitVec.toNat_add, BitVec.toNat_add]
    omega
  cases Nat.lt_or_ge (b.heapStart.toNat + b.heapSize.toNat) (b.sbrk.toNat + length.toNat) with
  | inl full =>
    left
    cases shared with
    | true =>
      simp only [sbrk, if_true, sharedSbrk, positive, Bool.false_eq_true, if_false, if_neg nonzero,
        if_pos (limit.mpr full)]
    | false => simp only [sbrk, kSbrk, positive, Bool.false_eq_true, if_false, if_neg nonzero, if_pos (limit.mpr full)]
  | inr room =>
    have passes : ¬ b.heapStart + b.heapSize < length + b.sbrk := fun beyond => by
      have full := limit.mp beyond
      omega
    refine Or.inr ⟨?_, room⟩
    cases shared with
    | true =>
      simp only [sbrk, if_true, sharedSbrk, positive, Bool.false_eq_true, if_false, if_neg nonzero, if_neg passes,
        if_neg notBelow]
    | false => simp only [sbrk, kSbrk, positive, Bool.false_eq_true, if_false, if_neg nonzero, if_neg passes]

/-- When the sum wraps, the limit test passes: the private break wraps with it, the shared
one falls back to its base. -/
theorem sbrk_wrapped (near : b.Near) (inHeap : b.InHeap) (positive : length.slt 0 = false)
    (some : 0 < length.toNat) (small : length.toNat < 2 ^ 63)
    (wraps : 2 ^ 64 ≤ b.sbrk.toNat + length.toNat) :
    sbrk shared b length = if shared then (b.sbrkBase, { b with sbrk := b.sbrkBase }) else
      (b.sbrk + length, { b with sbrk := b.sbrk + length }) := by
  obtain ⟨low, high⟩ := near
  obtain ⟨above, below⟩ := inHeap
  have origin : kernelVaBase.toNat = 0xFFFFF00000000000 := rfl
  have nonzero : length ≠ 0 := by bv_omega
  have under : length + b.sbrk < b.heapStart := by bv_omega
  have passes : ¬ b.heapStart + b.heapSize < length + b.sbrk := by bv_omega
  cases shared with
  | true =>
    simp only [sbrk, if_true, sharedSbrk, positive, Bool.false_eq_true, if_false, if_neg nonzero, if_neg passes,
      if_pos under]
  | false => simp only [sbrk, kSbrk, positive, Bool.false_eq_true, if_false, if_neg nonzero, if_neg passes]

/-- A call does what it should exactly when its sum does not wrap. -/
theorem sbrk_kept_iff (near : b.Near) (inHeap : b.InHeap) (inside : b.heapStart.toNat ≤ b.sbrkBase.toNat) :
    SbrkKept shared b length ↔ SumFits b length := by
  unfold SbrkKept sbrkNext SumFits
  obtain ⟨above, below⟩ := inHeap
  rcases sign_cases length with rfl | ⟨positive, value, some, small⟩ | ⟨negative, value, large⟩
  · rw [sbrk_zero]
    have neither : ¬ 0 < (0 : Word).toInt ∧ ¬ (0 : Word).toInt < 0 := by decide
    exact iff_of_true ⟨⟨fun up => absurd up neither.1, fun down => absurd down neither.2, fun _ => ⟨rfl, rfl⟩, rfl⟩,
      above, below⟩ fun up => absurd up neither.1
  · have up : 0 < length.toInt := by omega
    have notDown : ¬ length.toInt < 0 := by omega
    have nonzero : length ≠ 0 := by bv_omega
    cases Nat.lt_or_ge (b.sbrk.toNat + length.toNat) (2 ^ 64) with
    | inl sum =>
      refine iff_of_true ?_ fun _ => sum
      rcases sbrk_sum near ⟨above, below⟩ inside positive some sum with failed | ⟨moved, room⟩
      · rw [failed]
        exact ⟨⟨fun _ => Or.inl ⟨rfl, rfl⟩, fun down => absurd down notDown, fun zero => absurd zero nonzero, rfl⟩,
          above, below⟩
      · have sumNat : (b.sbrk + length).toNat = b.sbrk.toNat + length.toNat := by bv_omega
        rw [moved]
        refine ⟨⟨fun _ => Or.inr ⟨sumNat, rfl⟩, fun down => absurd down notDown, fun zero => absurd zero nonzero, rfl⟩,
          ?_, ?_⟩
        · simp only [sumNat]
          omega
        · simp only [sumNat]
          exact room
    | inr wraps =>
      refine iff_of_false ?_ fun fits => absurd (fits up) (Nat.not_lt.mpr wraps)
      rintro ⟨moved, _⟩
      have high := near.high
      have failed : enomemAddress.toNat = 2 ^ 64 - 12 := rfl
      rw [sbrk_wrapped near ⟨above, below⟩ positive some small wraps] at moved
      cases moved.up up with
      | inl refused =>
        have same := congrArg BitVec.toNat refused.1
        cases shared with
        | true =>
          simp only [if_true] at same
          omega
        | false =>
          simp only [Bool.false_eq_true, if_false] at same
          bv_omega
      | inr exact =>
        have bound := (if shared then (b.sbrkBase, { b with sbrk := b.sbrkBase }) else
          (b.sbrk + length, { b with sbrk := b.sbrk + length }) : Word × HeapBreak).2.sbrk.isLt
        omega
  · obtain ⟨v, moved, place⟩ := sbrk_down shared near ⟨above, below⟩ inside negative large
    have magnitude : length.toInt.natAbs = 2 ^ 64 - length.toNat := by
      have bound := length.isLt
      omega
    have notUp : ¬ 0 < length.toInt := by
      have bound := length.isLt
      omega
    have nonzero : length ≠ 0 := by bv_omega
    rw [moved]
    refine iff_of_true ⟨⟨fun up => absurd up notUp, fun _ => ⟨?_, rfl⟩, fun zero => absurd zero nonzero, rfl⟩, ?_, ?_⟩
      fun up => absurd up notUp
    · rw [magnitude]
      exact place
    · simp only [place]
      omega
    · simp only [place]
      omega

/-- A base that `brk` accepts lies in its heap, and the break starts there. -/
theorem brk_accepted {b : HeapBreak} {address : Word} (near : b.Near) (accepted : (brk b address).1 = 0) :
    (brk b address).2.Near ∧ (brk b address).2.InHeap ∧
      (brk b address).2.heapStart.toNat ≤ (brk b address).2.sbrkBase.toNat := by
  have high := near.high
  have busy : (-1 : Int) ≠ 0 := by decide
  have invalid : (-12 : Int) ≠ 0 := by decide
  unfold brk at accepted ⊢
  split at accepted
  · exact absurd accepted busy
  · rename_i fresh
    rw [if_neg fresh]
    split at accepted
    · exact absurd accepted invalid
    · rename_i inside
      rw [if_neg inside]
      have limit : (b.heapStart + b.heapSize).toNat = b.heapStart.toNat + b.heapSize.toNat := by bv_omega
      rw [not_or, BitVec.lt_def, BitVec.lt_def, limit] at inside
      exact ⟨⟨near.low, high⟩, ⟨Nat.le_refl _, Nat.le_of_not_lt inside.2⟩, Nat.le_of_not_lt inside.1⟩

/-- After a base was accepted, every call of a run does what it should and leaves the
break in its heap exactly when no positive length of the run wraps when it is added. -/
theorem break_runs_kept_iff (shared : Bool) {b : HeapBreak} (near : b.Near) (address : Word)
    (accepted : (if shared then sharedBrk b address else kBrk b address).1 = 0) (lengths : List Word) :
    let start := (if shared then sharedBrk b address else kBrk b address).2
    (start.InHeap ∧ Along (sbrkNext shared) (SbrkKept shared) start lengths) ↔
      Along (sbrkNext shared) SumFits start lengths := by
  have same : (if shared then sharedBrk b address else kBrk b address) = brk b address := by
    cases shared <;> rfl
  rw [same] at accepted ⊢
  obtain ⟨nearStart, inHeap, inside⟩ := brk_accepted near accepted
  intro start
  have agree := @along_iff _ _ (sbrkNext shared) (SbrkKept shared) SumFits
    (fun b => b.Near ∧ b.InHeap ∧ b.heapStart.toNat ≤ b.sbrkBase.toNat)
    (fun b length good => sbrk_kept_iff good.1 good.2.1 good.2.2) (fun b length good fits => ?_)
    start ⟨nearStart, inHeap, inside⟩ lengths
  · exact ⟨fun kept => agree.mp kept.2, fun fits => ⟨inHeap, agree.mpr fits⟩⟩
  · obtain ⟨moved, after⟩ := (sbrk_kept_iff good.1 good.2.1 good.2.2).mpr fits
    have base : (sbrkNext shared b length).sbrkBase = b.sbrkBase := by rw [moved.fixed]
    have heap : (sbrkNext shared b length).heapStart = b.heapStart ∧
        (sbrkNext shared b length).heapSize = b.heapSize := by
      rw [moved.fixed]
      exact ⟨rfl, rfl⟩
    refine ⟨⟨?_, ?_⟩, after, ?_⟩
    · rw [heap.1]
      exact good.1.low
    · rw [heap.1, heap.2]
      exact good.1.high
    · rw [heap.1, base]
      exact good.2.2

/- The private heap of 16 MB behind `KERNEL_VA_BASE`, before a base is set. -/
def breakAtBoot : HeapBreak := ⟨0xFFFFF00000600000, 0x1000000, 0, 0⟩

theorem breakAtBoot_near : breakAtBoot.Near := ⟨by decide, by decide⟩

theorem break_runs_kept_iff_up_and_down :
    Along (sbrkNext false) (SbrkKept false) (kBrk breakAtBoot 0xFFFFF00000600000).2 [0x2000, -0x3000, 0x2000000] := by
  have fits : Along (sbrkNext false) SumFits (kBrk breakAtBoot 0xFFFFF00000600000).2 [0x2000, -0x3000, 0x2000000] :=
    ⟨fun _ => by decide, fun up => absurd up (by decide), fun _ => by decide, trivial⟩
  exact ((break_runs_kept_iff false breakAtBoot_near 0xFFFFF00000600000 (by decide) _).mpr fits).2

/-- A length of 16 TB wraps: `k_sbrk` leaves the break below its base, `shared_sbrk` moves it
back to the base, and neither returns `-ENOMEM`. -/
theorem sixteen_terabytes_wrap :
    ¬ Along (sbrkNext false) (SbrkKept false) (kBrk breakAtBoot 0xFFFFF00000600000).2 [0x2000, 0x100000000000] ∧
    ¬ Along (sbrkNext true) (SbrkKept true) (sharedBrk breakAtBoot 0xFFFFF00000600000).2 [0x2000, 0x100000000000] := by
  constructor
  · rintro ⟨_, ⟨_, above, _⟩, _⟩
    revert above
    decide
  · rintro ⟨_, ⟨moved, _⟩, _⟩
    have up : (0 : Int) < (0x100000000000 : Word).toInt := by decide
    cases moved.up up with
    | inl refused =>
      have ret := refused.1
      revert ret
      decide
    | inr moved =>
      have sum := moved.1
      revert sum
      decide

end RealmVm
