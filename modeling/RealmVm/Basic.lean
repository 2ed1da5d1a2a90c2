import RealmVm.Lib.Bits

/-! Machine words and the page constants shared by every part of the kernel.
`uint64_t` and pointers are 64-bit words with wrap-around arithmetic; a C `int`
that takes part in a conversion is a 32-bit word, otherwise an `Int`. -/
namespace RealmVm

abbrev Word := BitVec 64
abbrev Byte := BitVec 8

def pageSize4KB : Word := 0x1000

/-- `PAGE_UP(x)`: the sum may wrap. -/
def pageUp (x : Word) : Word := (x + 0xFFF) &&& ~~~0xFFF

def pageDown (x : Word) : Word := x &&& ~~~0xFFF

/-- The in-band failure value of the allocators and of the mapping functions. -/
def mapFailed : Word := -1

theorem pageDown_toNat (x : Word) : (pageDown x).toNat = x.toNat / 4096 * 4096 :=
  Lib.Bits.toNat_and_not_mask x 12

theorem pageUp_toNat (x : Word) (fits : x.toNat + 4095 < 2 ^ 64) :
    (pageUp x).toNat = (x.toNat + 4095) / 4096 * 4096 := by
  have sum : (x + 0xFFF).toNat = x.toNat + 4095 := by bv_omega
  calc (pageUp x).toNat = (x + 0xFFF).toNat / 4096 * 4096 :=
        Lib.Bits.toNat_and_not_mask (x + 0xFFF) 12
    _ = (x.toNat + 4095) / 4096 * 4096 := by rw [sum]

/-- The number of pages that `x` bytes take. -/
theorem pageUp_count (x : Word) (fits : x.toNat + 4095 < 2 ^ 64) :
    (pageUp x / pageSize4KB).toNat = (x.toNat + 4095) / 4096 := by
  rw [BitVec.toNat_udiv, pageUp_toNat x fits]
  exact Nat.mul_div_cancel _ (by decide)

end RealmVm
