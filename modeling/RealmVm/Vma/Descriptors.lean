import RealmVm.Basic

/-! Descriptor formats and mapping flags of the 4 KB granule with 48-bit addresses.
A C `int` that carries flags is a 32-bit word, so that a flag above bit 31 is lost
exactly where the source loses it. -/
namespace RealmVm

open Lib.Bits

abbrev CInt := BitVec 32

/-- `MASK_VA(address, shift, MASK_9BIT)` for the four levels. -/
def vaOffset48L0 (address : Word) : Word := field address 39 9
def vaOffset48L1 (address : Word) : Word := field address 30 9
def vaOffset48L2 (address : Word) : Word := field address 21 9
def vaOffset48L3 (address : Word) : Word := field address 12 9

def maskVa36TableAddress (address : Word) : Word := (address &&& 0x0000FFFFFFFFF000) >>> 12

def bdOaL3Get (entry : Word) : Word := field entry 12 36

def isValid (reg : Word) : Bool := reg.getLsbD 0
def isLink (reg : Word) : Bool := reg.getLsbD 1

/-- The table a link descriptor points to. -/
def nextLevelTableAddress (reg : Word) : Word := field reg 12 36 <<< 12

/-- `is_valid = 1; is_link = 1; next_level_table_address = MASK_VA_36_TABLE_ADDRESS(table)`. -/
def linkEntry (reg table : Word) : Word :=
  setField (setField (setField reg 0 1 1) 1 1 1) 12 36 (maskVa36TableAddress table)

def ptPage : CInt := 0b11
def ptKernel : CInt := 0 <<< 6
def ptUser : CInt := 1 <<< 6
def ptRw : CInt := 0 <<< 7
def ptRo : CInt := 1 <<< 7
def ptAf : CInt := 1 <<< 10
def ptNx : Word := 1 <<< 54
def ptIsh : CInt := 3 <<< 8
def ptMem : CInt := 0 <<< 2
def ptDev : CInt := 1 <<< 2

def protR : CInt := 1
def protW : CInt := 2
def protX : CInt := 4
def protRw : CInt := protR ||| protW
def protRwx : CInt := protRw ||| protX

/-- `pt |= PT_NX` widens to 64 bits and is narrowed again by the assignment to an `int`. -/
def orAssign (pt : CInt) (flag : Word) : CInt := (pt.signExtend 64 ||| flag).truncate 32

def permToPt (prot : CInt) : CInt :=
  let pt : CInt := orAssign 0 (if protX &&& prot ≠ 0 then 0 else ptNx)
  if protRw = prot ∨ protRwx = prot ∨ protW &&& prot ≠ 0 then pt ||| ptRw
  else if protR &&& prot ≠ 0 then pt ||| ptRo
  else pt

/-- The level-3 descriptor that `page_table_map` installs. -/
def leafEntry (pa : Word) (flags isDev : CInt) : Word :=
  let entry := setField (setField (setField 0 0 1 1) 1 1 0) 12 36 (bdOaL3Get pa)
  let attributes : Word := (ptPage ||| ptIsh ||| flags).signExtend 64
  let kind : Word :=
    if isDev = 1 then ptNx ||| ptDev.signExtend 64 ||| ptAf.signExtend 64
    else (ptMem ||| ptAf).signExtend 64
  entry ||| (attributes ||| kind)

theorem maskVa36TableAddress_eq (address : Word) :
    maskVa36TableAddress address = field address 12 36 := by
  apply BitVec.eq_of_getLsbD_eq
  intro i hi
  have mask : (0x0000FFFFFFFFF000 : Word) = BitVec.ofNat 64 (2 ^ 36 - 1) <<< 12 := by decide
  rw [maskVa36TableAddress, mask, getLsbD_field _ _ _ _ hi, BitVec.getLsbD_ushiftRight,
    BitVec.getLsbD_and, BitVec.getLsbD_shiftLeft]
  by_cases inside : i < 36
  · have shifted : 12 + i - 12 < 64 := by omega
    rw [getLsbD_mask 36 _ shifted]
    have bound : 12 + i < 64 := by omega
    simp [inside, bound]
  · by_cases bound : 12 + i < 64
    · rw [getLsbD_mask 36 _ (by omega)]
      simp [inside]
    · simp [inside, bound]

@[simp] theorem isValid_linkEntry (reg table : Word) : isValid (linkEntry reg table) = true := by
  simp only [isValid, linkEntry, getLsbD_setField _ _ _ _ 0 (by decide : 0 < 64)]
  rfl

@[simp] theorem isLink_linkEntry (reg table : Word) : isLink (linkEntry reg table) = true := by
  simp only [isLink, linkEntry, getLsbD_setField _ _ _ _ 1 (by decide : 1 < 64)]
  rfl

/-- A link to a page-aligned table below 2^48 leads to that table. -/
theorem nextLevelTableAddress_linkEntry (reg table : Word) (aligned : table.toNat % 4096 = 0)
    (bounded : table.toNat < 2 ^ 48) :
    nextLevelTableAddress (linkEntry reg table) = table := by
  rw [nextLevelTableAddress, linkEntry, field_setField _ _ _ _ (by decide),
    maskVa36TableAddress_eq, field_field]
  exact field_shiftLeft table 12 36 (by decide) aligned bounded

/-! The leaf descriptor, for flags that stay inside the lower attributes. The flags the
wrappers pass are of this kind: PT_NX does not survive the conversion to `int`. -/

def PlainFlags (flags : CInt) : Prop := flags.toNat < 2 ^ 12

instance (flags : CInt) : Decidable (PlainFlags flags) := inferInstanceAs (Decidable (_ < _))

theorem permToPt_cases (prot : CInt) : permToPt prot = 0 ∨ permToPt prot = ptRo := by
  have zero : orAssign 0 (if protX &&& prot ≠ 0 then 0 else ptNx) = 0 := by
    split <;> decide
  simp only [permToPt, zero]
  split
  · left; decide
  · split
    · right; decide
    · left; rfl

/-- The attribute bits that `page_table_map` joins to the output address. -/
def leafAttributes (flags isDev : CInt) : Word :=
  (ptPage ||| ptIsh ||| flags).signExtend 64 |||
    (if isDev = 1 then ptNx ||| ptDev.signExtend 64 ||| ptAf.signExtend 64
     else (ptMem ||| ptAf).signExtend 64)

theorem leafEntry_eq (pa : Word) (flags isDev : CInt) :
    leafEntry pa flags isDev =
      setField (setField (setField 0 0 1 1) 1 1 0) 12 36 (bdOaL3Get pa) |||
        leafAttributes flags isDev := rfl

/-- Outside its three fields the descriptor holds the attributes. -/
theorem getLsbD_leafEntry (pa : Word) (flags isDev : CInt) {i : Nat} (small : i < 64)
    (other : 1 < i ∧ (i < 12 ∨ 48 ≤ i)) :
    (leafEntry pa flags isDev).getLsbD i = (leafAttributes flags isDev).getLsbD i := by
  rw [leafEntry_eq, BitVec.getLsbD_or]
  simp only [getLsbD_setField _ _ _ _ i small]
  rw [if_neg (by omega), if_neg (by omega), if_neg (by omega)]
  simp

theorem plain_attributes {flags : CInt} (plain : PlainFlags flags) :
    ((ptPage ||| ptIsh ||| flags).signExtend 64).toNat < 2 ^ 12 ∧
      ((ptPage ||| ptIsh ||| flags).signExtend 64).getLsbD 0 = true ∧
      ((ptPage ||| ptIsh ||| flags).signExtend 64).getLsbD 1 = true := by
  have page : (ptPage ||| ptIsh).toNat < 2 ^ 12 := by decide
  have small : (ptPage ||| ptIsh ||| flags).toNat < 2 ^ 12 := by
    rw [BitVec.toNat_or]
    exact Nat.or_lt_two_pow page plain
  have positive : (ptPage ||| ptIsh ||| flags).msb = false := by
    rw [BitVec.msb_eq_false_iff_two_mul_lt]
    omega
  have low : ∀ i, i < 2 → (ptPage ||| ptIsh).getLsbD i = true := by decide
  rw [BitVec.signExtend_eq_setWidth_of_msb_false positive]
  refine ⟨?_, ?_, ?_⟩
  · rw [BitVec.toNat_setWidth, Nat.mod_eq_of_lt (by omega)]
    exact small
  · simp only [BitVec.getLsbD_setWidth, BitVec.getLsbD_or (x := ptPage ||| ptIsh), low 0 (by decide),
      Bool.true_or, Bool.and_true, decide_eq_true_eq]
    decide
  · simp only [BitVec.getLsbD_setWidth, BitVec.getLsbD_or (x := ptPage ||| ptIsh), low 1 (by decide),
      Bool.true_or, Bool.and_true, decide_eq_true_eq]
    decide

theorem field_leafAttributes {flags : CInt} (plain : PlainFlags flags) (isDev : CInt) :
    field (leafAttributes flags isDev) 12 36 = 0 := by
  have first : field ((ptPage ||| ptIsh ||| flags).signExtend 64) 12 36 = 0 := by
    apply BitVec.eq_of_toNat_eq
    rw [toNat_field_eq _ _ _ (by decide), Nat.div_eq_of_lt (plain_attributes plain).1]
    rfl
  have second : field (if isDev = 1 then ptNx ||| ptDev.signExtend 64 ||| ptAf.signExtend 64
      else (ptMem ||| ptAf).signExtend 64) 12 36 = 0 := by
    split <;> decide
  rw [leafAttributes, field_or, first, second]
  rfl

theorem isValid_leafEntry (pa : Word) {flags : CInt} (plain : PlainFlags flags) (isDev : CInt) :
    isValid (leafEntry pa flags isDev) = true := by
  simp only [isValid, leafEntry_eq, leafAttributes, BitVec.getLsbD_or, (plain_attributes plain).2.1,
    Bool.true_or, Bool.or_true]

theorem isLink_leafEntry (pa : Word) {flags : CInt} (plain : PlainFlags flags) (isDev : CInt) :
    isLink (leafEntry pa flags isDev) = true := by
  simp only [isLink, leafEntry_eq, leafAttributes, BitVec.getLsbD_or, (plain_attributes plain).2.2,
    Bool.true_or, Bool.or_true]

/-- The output-address field of the leaf is bits 47..12 of `pa`. -/
theorem field_leafEntry (pa : Word) {flags : CInt} (plain : PlainFlags flags) (isDev : CInt) :
    field (leafEntry pa flags isDev) 12 36 = field pa 12 36 := by
  rw [leafEntry_eq, field_or, field_leafAttributes plain, field_setField _ _ _ _ (by decide),
    bdOaL3Get, field_field]
  exact BitVec.or_zero

end RealmVm
