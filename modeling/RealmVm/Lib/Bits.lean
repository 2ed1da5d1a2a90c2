import Mathlib.Data.Nat.Bits
import Mathlib.Tactic.Ring

/-! Masks and fields of fixed-width words, read back as arithmetic on naturals.
Every statement is about an arbitrary width; `2 ^ k - 1` is the mask of the low `k` bits. -/
namespace Lib.Bits

variable {w : Nat}

theorem toNat_mask (k : Nat) (fits : k ≤ w) : (BitVec.ofNat w (2 ^ k - 1)).toNat = 2 ^ k - 1 := by
  have bound : 2 ^ k ≤ 2 ^ w := Nat.pow_le_pow_right (by decide) fits
  have positive : 0 < 2 ^ k := Nat.two_pow_pos k
  rw [BitVec.toNat_ofNat, Nat.mod_eq_of_lt (by omega)]

/-- The `k` bits of `x` from bit `s` on, as a number. -/
theorem toNat_field (x : BitVec w) (s k : Nat) (fits : k ≤ w) :
    ((x >>> s) &&& BitVec.ofNat w (2 ^ k - 1)).toNat = x.toNat / 2 ^ s % 2 ^ k := by
  rw [BitVec.toNat_and, BitVec.toNat_ushiftRight, toNat_mask k fits, Nat.shiftRight_eq_div_pow,
    Nat.and_two_pow_sub_one_eq_mod]

theorem getLsbD_mask (k i : Nat) (hi : i < w) :
    (BitVec.ofNat w (2 ^ k - 1)).getLsbD i = decide (i < k) := by
  rw [BitVec.getLsbD_ofNat, Nat.testBit_two_pow_sub_one]
  simp [hi]

/-- Clearing the low `k` bits. -/
theorem and_not_mask (x : BitVec w) (k : Nat) :
    x &&& ~~~BitVec.ofNat w (2 ^ k - 1) = (x >>> k) <<< k := by
  apply BitVec.eq_of_getLsbD_eq
  intro i hi
  rw [BitVec.getLsbD_and, BitVec.getLsbD_not, getLsbD_mask k i hi, BitVec.getLsbD_shiftLeft,
    BitVec.getLsbD_ushiftRight]
  by_cases low : i < k
  · simp [low]
  · have back : k + (i - k) = i := by omega
    simp [low, hi, back]

theorem toNat_and_not_mask (x : BitVec w) (k : Nat) :
    (x &&& ~~~BitVec.ofNat w (2 ^ k - 1)).toNat = x.toNat / 2 ^ k * 2 ^ k := by
  have small : x.toNat / 2 ^ k * 2 ^ k ≤ x.toNat := Nat.div_mul_le_self _ _
  have bound := x.isLt
  rw [and_not_mask x k, BitVec.toNat_shiftLeft, BitVec.toNat_ushiftRight,
    Nat.shiftLeft_eq, Nat.shiftRight_eq_div_pow, Nat.mod_eq_of_lt (by omega)]

/-- Joining a value below `2 ^ k` to one whose low `k` bits are clear is an addition. -/
theorem toNat_or_low (x y : BitVec w) (k : Nat) (clear : x.toNat % 2 ^ k = 0)
    (small : y.toNat < 2 ^ k) : (x ||| y).toNat = x.toNat + y.toNat := by
  have split : x.toNat = 2 ^ k * (x.toNat / 2 ^ k) := by
    rw [Nat.mul_div_cancel' (Nat.dvd_of_mod_eq_zero clear)]
  rw [BitVec.toNat_or, split, ← Nat.two_pow_add_eq_or_of_lt small]

/-- A word with clear low bits is the shift of its high part. -/
theorem toNat_shiftLeft_lt (x : BitVec w) (k : Nat) (fits : x.toNat * 2 ^ k < 2 ^ w) :
    (x <<< k).toNat = x.toNat * 2 ^ k := by
  rw [BitVec.toNat_shiftLeft, Nat.shiftLeft_eq, Nat.mod_eq_of_lt fits]

/-- A bit field of `k` bits at position `lo`, set the way a C compiler sets one. -/
def setField (reg : BitVec w) (lo k : Nat) (v : BitVec w) : BitVec w :=
  (reg &&& ~~~(BitVec.ofNat w (2 ^ k - 1) <<< lo)) |||
    ((v &&& BitVec.ofNat w (2 ^ k - 1)) <<< lo)

/-- The field itself, as a word. -/
def field (reg : BitVec w) (lo k : Nat) : BitVec w := (reg >>> lo) &&& BitVec.ofNat w (2 ^ k - 1)

theorem getLsbD_setField (reg v : BitVec w) (lo k i : Nat) (hi : i < w) :
    (setField reg lo k v).getLsbD i =
      if lo ≤ i ∧ i < lo + k then v.getLsbD (i - lo) else reg.getLsbD i := by
  have shifted : i - lo < w := by omega
  simp only [setField, BitVec.getLsbD_or, BitVec.getLsbD_and, BitVec.getLsbD_not,
    BitVec.getLsbD_shiftLeft, getLsbD_mask k _ shifted, hi, decide_true, Bool.true_and]
  by_cases below : i < lo
  · simp [below, Nat.not_le.mpr below]
  · have above : lo ≤ i := by omega
    by_cases inside : i - lo < k
    · have upper : i < lo + k := by omega
      simp [below, above, inside, upper]
    · have upper : ¬ i < lo + k := by omega
      simp [below, inside, upper]

theorem getLsbD_field (reg : BitVec w) (lo k i : Nat) (hi : i < w) :
    (field reg lo k).getLsbD i = (decide (i < k) && reg.getLsbD (lo + i)) := by
  rw [field, BitVec.getLsbD_and, getLsbD_mask k i hi, BitVec.getLsbD_ushiftRight, Bool.and_comm]

theorem field_setField (reg v : BitVec w) (lo k : Nat) (fits : lo + k ≤ w) :
    field (setField reg lo k v) lo k = field v 0 k := by
  apply BitVec.eq_of_getLsbD_eq
  intro i hi
  rw [getLsbD_field _ _ _ _ hi, getLsbD_field _ _ _ _ hi]
  by_cases inside : i < k
  · rw [getLsbD_setField _ _ _ _ _ (by omega), if_pos (by omega), Nat.add_sub_cancel_left,
      Nat.zero_add]
  · simp [inside]

theorem field_or (x y : BitVec w) (lo k : Nat) :
    field (x ||| y) lo k = field x lo k ||| field y lo k := by
  apply BitVec.eq_of_getLsbD_eq
  intro i hi
  simp only [getLsbD_field _ _ _ _ hi, BitVec.getLsbD_or, Bool.and_or_distrib_left]

theorem field_field (x : BitVec w) (lo k : Nat) : field (field x lo k) 0 k = field x lo k := by
  apply BitVec.eq_of_getLsbD_eq
  intro i hi
  simp only [getLsbD_field _ _ _ _ hi, Nat.zero_add]
  cases decide (i < k) <;> rfl

theorem toNat_field_eq (x : BitVec w) (lo k : Nat) (fits : k ≤ w) :
    (field x lo k).toNat = x.toNat / 2 ^ lo % 2 ^ k :=
  toNat_field x lo k fits

/-- A word with clear low bits and nothing above the field is its field, shifted back. -/
theorem field_shiftLeft (x : BitVec w) (lo k : Nat) (fits : lo + k ≤ w)
    (aligned : x.toNat % 2 ^ lo = 0) (bounded : x.toNat < 2 ^ (lo + k)) :
    field x lo k <<< lo = x := by
  have width : 2 ^ (lo + k) ≤ 2 ^ w := Nat.pow_le_pow_right (by decide) fits
  have small : x.toNat / 2 ^ lo < 2 ^ k := by
    rw [Nat.div_lt_iff_lt_mul (Nat.two_pow_pos lo), ← Nat.pow_add, Nat.add_comm k lo]
    exact bounded
  have back : x.toNat / 2 ^ lo * 2 ^ lo = x.toNat :=
    Nat.div_mul_cancel (Nat.dvd_of_mod_eq_zero aligned)
  have value : (field x lo k).toNat = x.toNat / 2 ^ lo := by
    rw [toNat_field_eq x lo k (by omega), Nat.mod_eq_of_lt small]
  apply BitVec.eq_of_toNat_eq
  rw [toNat_shiftLeft_lt _ _ (by rw [value, back]; omega), value, back]

/- A count that 32 bits hold with a sign. -/
theorem signExtend_count {n : Nat} (small : n < 2 ^ 31) :
    BitVec.signExtend 64 (BitVec.ofNat 32 n) = BitVec.ofNat 64 n := by
  have positive : (BitVec.ofNat 32 n).msb = false := by
    rw [BitVec.msb_eq_false_iff_two_mul_lt, BitVec.toNat_ofNat]
    omega
  rw [BitVec.signExtend_eq_setWidth_of_msb_false positive]
  bv_omega

theorem toInt_count {n : Nat} (small : n < 2 ^ 31) : (BitVec.ofNat 32 n).toInt = n := by
  have number : (BitVec.ofNat 32 n).toNat = n := Nat.mod_eq_of_lt (by omega)
  rw [BitVec.toInt_eq_toNat_of_lt (by omega), number]

end Lib.Bits
