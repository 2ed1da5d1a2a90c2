import RealmVm.Lib.Bits
import RealmVm.Lib.Bytes
import Mathlib.Logic.Function.Basic

/-! A memory of 64-bit words, read and written by bytes. Only the words at multiples of 8
are used; byte 0 of a word is its lowest. -/
namespace Lib.WordBytes

open Lib.Bits

/-- The word in which a byte lies. -/
def wordOf (a : BitVec 64) : BitVec 64 := a &&& ~~~7

/-- The position of its lowest bit there. -/
def lowBit (a : BitVec 64) : Nat := 8 * (a.toNat % 8)

def byte (word : BitVec 64 → BitVec 64) (a : BitVec 64) : BitVec 8 := (word (wordOf a)).extractLsb' (lowBit a) 8

def setByte (word : BitVec 64 → BitVec 64) (a : BitVec 64) (b : BitVec 8) : BitVec 64 → BitVec 64 :=
  Function.update word (wordOf a) (setField (word (wordOf a)) (lowBit a) 8 (b.setWidth 64))

variable {word word' : BitVec 64 → BitVec 64} {a c x : BitVec 64} {b : BitVec 8}

theorem wordOf_toNat (a : BitVec 64) : (wordOf a).toNat = a.toNat / 8 * 8 := toNat_and_not_mask a 3

theorem lowBit_le (a : BitVec 64) : lowBit a + 8 ≤ 64 := by
  unfold lowBit
  omega

theorem setByte_elsewhere (elsewhere : wordOf a ≠ x) : setByte word a b x = word x :=
  Function.update_of_ne (Ne.symm elsewhere) _ _

theorem byte_congr (same : word' (wordOf a) = word (wordOf a)) : byte word' a = byte word a := by
  rw [byte, byte, same]

@[simp] theorem byte_setByte (word : BitVec 64 → BitVec 64) (a : BitVec 64) (b : BitVec 8) :
    byte (setByte word a b) a = b := by
  have high := lowBit_le a
  apply BitVec.eq_of_getLsbD_eq
  intro i small
  rw [byte, setByte, Function.update_self, BitVec.getLsbD_extractLsb', getLsbD_setField _ _ _ _ _ (by omega),
    if_pos (by omega), BitVec.getLsbD_setWidth, Nat.add_sub_cancel_left]
  simp only [small, decide_true, Bool.true_and, show i < 64 by omega]

/-- Two bytes of one word differ in their position. -/
theorem eq_of_wordOf (same : wordOf a = wordOf c) (place : lowBit a = lowBit c) : a = c := by
  have first := wordOf_toNat a
  have second := wordOf_toNat c
  rw [same] at first
  unfold lowBit at place
  apply BitVec.eq_of_toNat_eq
  omega

theorem byte_setByte_of_ne (other : a ≠ c) : byte (setByte word a b) c = byte word c := by
  cases decEq (wordOf a) (wordOf c) with
  | isFalse apart => exact byte_congr (setByte_elsewhere apart)
  | isTrue same =>
    have place : lowBit a ≠ lowBit c := fun equal => other (eq_of_wordOf same equal)
    have high := lowBit_le c
    have apart : lowBit a + 8 ≤ lowBit c ∨ lowBit c + 8 ≤ lowBit a := by
      unfold lowBit at place ⊢
      omega
    apply BitVec.eq_of_getLsbD_eq
    intro i small
    rw [byte, byte, setByte, ← same, Function.update_self, BitVec.getLsbD_extractLsb', BitVec.getLsbD_extractLsb',
      getLsbD_setField _ _ _ _ _ (by omega), if_neg (by omega)]

section OfBytes

variable {m m' : BitVec 64 → BitVec 8}

/-- The words of a memory of bytes. -/
def ofBytes (m : BitVec 64 → BitVec 8) : BitVec 64 → BitVec 64 := fun a => BitVec.ofNat 64 (Bytes.load m a 8)

theorem ofBytes_congr (same : ∀ x ∈ Bytes.span a 8, m' x = m x) : ofBytes m' a = ofBytes m a :=
  congrArg (BitVec.ofNat 64) (Bytes.load_congr (by decide) same)

theorem byte_toNat (word : BitVec 64 → BitVec 64) (a : BitVec 64) :
    (byte word a).toNat = (word (wordOf a)).toNat / 256 ^ (a.toNat % 8) % 256 := by
  have power : 2 ^ lowBit a = 256 ^ (a.toNat % 8) := by
    rw [lowBit, Nat.pow_mul]
  rw [byte, BitVec.extractLsb'_toNat, Nat.shiftRight_eq_div_pow, power]

@[simp] theorem byte_ofBytes (m : BitVec 64 → BitVec 8) (a : BitVec 64) : byte (ofBytes m) a = m a := by
  have small : a.toNat % 8 < (Bytes.bytesAt m (wordOf a) 8).length := by
    rw [Bytes.length_bytesAt]
    exact Nat.mod_lt _ (by decide)
  have value : (ofBytes m (wordOf a)).toNat = Bytes.decode (Bytes.bytesAt m (wordOf a) 8) :=
    Nat.mod_eq_of_lt (Bytes.load_lt m (wordOf a) 8)
  have place : wordOf a + BitVec.ofNat 64 (a.toNat % 8) = a := by
    have whole := wordOf_toNat a
    bv_omega
  apply BitVec.eq_of_toNat_eq
  rw [byte_toNat, value, Bytes.decode_getElem small]
  simp only [Bytes.bytesAt, List.getElem_map, List.getElem_range, place]

theorem ofBytes_byte (word : BitVec 64 → BitVec 64) (aligned : a.toNat % 8 = 0) : ofBytes (byte word) a = word a := by
  have bytes : Bytes.bytesAt (byte word) a 8 = Bytes.encode 8 (word a).toNat := by
    apply List.ext_getElem
    · rw [Bytes.length_bytesAt, Bytes.length_encode]
    · intro i first second
      have few : i < 8 := by rwa [Bytes.length_bytesAt] at first
      have place : (a + BitVec.ofNat 64 i).toNat = a.toNat + i := by
        bv_omega
      have here : wordOf (a + BitVec.ofNat 64 i) = a := by
        apply BitVec.eq_of_toNat_eq
        rw [wordOf_toNat, place]
        omega
      rw [Bytes.getElem_encode]
      simp only [Bytes.bytesAt, List.getElem_map, List.getElem_range]
      apply BitVec.eq_of_toNat_eq
      rw [byte_toNat, here, place, BitVec.toNat_ofNat]
      have rest : (a.toNat + i) % 8 = i := by omega
      rw [rest]
  rw [ofBytes, Bytes.load, bytes]
  exact Bytes.ofNat_decode_encode 8 (by decide) (word a)

end OfBytes

end Lib.WordBytes
