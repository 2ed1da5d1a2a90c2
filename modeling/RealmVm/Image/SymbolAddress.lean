import RealmVm.Elf.Format
import RealmVm.Exec.NewProcess

/-! `get_symbol_address` of `image_generator.c`: the value of a dynamic symbol, by its name. -/
namespace RealmVm.ImageGenerator

open Lib

/-- `strncmp` of the string at `a` with the bytes of another, which has no 0 before its end. -/
def strncmp (m : Word → Byte) : Word → List Byte → Nat → Int
  | _, _, 0 => 0
  | a, [], _ + 1 => (m a).toNat
  | a, c :: rest, n + 1 => if m a = c then strncmp m (a + 1) rest n else (m a).toNat - c.toNat

/- `int len = strlen(name)`, as the third argument of `strncmp`. -/
def compareLen (name : CString) : Nat := ((BitVec.ofNat 32 name.strlen : CInt).signExtend 64).toNat

/- The locals that the loop over the sections sets. -/
structure SymbolTable where
  dynsym : Word
  num : CInt
  entsize : CInt
  strtab : Word

/- `int addr = sym->st_value; return addr` -/
def returnAddr (value : Word) : Word := (value.setWidth 32).signExtend 64

/-- The loop over the symbols, `n` turns from `s` on. `none` where `entsize * s` is more than an `int` can hold. -/
def searchSymbols (m : Word → Byte) (name : CString) (t : SymbolTable) : Nat → Nat → Option (Option Word)
  | 0, _ => some none
  | n + 1, s =>
    if t.entsize.smulOverflow (BitVec.ofNat 32 s) then none
    else
      let sym := t.dynsym + (t.entsize * BitVec.ofNat 32 s).signExtend 64
      if strncmp m ((stName m sym).setWidth 64 + t.strtab) name.bytes (compareLen name) = 0 then
        some (some (returnAddr (stValue m sym)))
      else searchSymbols m name t n (s + 1)

/- `shdr[i]` -/
def sectionHeader (m : Word → Byte) (elf : Word) (i : Nat) : Word := elf + eShoff m elf + 64 * BitVec.ofNat 64 i

/-- What one section does to the locals. `none` is a division by zero. -/
def readSection (m : Word → Byte) (elf : Word) (i : Nat) (t : SymbolTable) : Option SymbolTable :=
  let shdr := sectionHeader m elf i
  if shType m shdr = shtDynsym then
    if shEntsize m shdr = 0 then none
    else
      some
        { dynsym := shOffset m shdr + elf
          num := (shSize m shdr / shEntsize m shdr).setWidth 32
          entsize := (shEntsize m shdr).setWidth 32
          strtab := shOffset m (sectionHeader m elf (shLink m shdr).toNat) + elf }
  else some t

/-- The loop over the sections, `n` turns from `i` on. -/
def searchSections (m : Word → Byte) (elf : Word) (name : CString) : Nat → Nat → SymbolTable → Option Word
  | 0, _, _ => some 0
  | n + 1, i, t =>
    match readSection m elf i t with
    | none => none
    | some t =>
      if t.strtab ≠ 0 ∧ t.dynsym ≠ 0 then
        match searchSymbols m name t t.num.toInt.toNat 0 with
        | none => none
        | some (some addr) => some addr
        | some none => searchSections m elf name n (i + 1) { t with strtab := 0 }
      else searchSections m elf name n (i + 1) t

def getSymbolAddress (m : Word → Byte) (elf : Word) (name : CString) : Option Word :=
  searchSections m elf name (eShnum m elf).toNat 0 ⟨0, 0, 0, 0⟩

/-- What is used of a well-formed image: section `d` is the one of type `SHT_DYNSYM` and has `count` symbols; it
and its string table lie in the mapped file. -/
@[mk_iff]
structure DynamicImage (m : Word → Byte) (elf : Word) (d count : Nat) : Prop where
  inTable : d < (eShnum m elf).toNat
  dynsym : shType m (sectionHeader m elf d) = shtDynsym
  only : ∀ i < (eShnum m elf).toNat, i ≠ d → shType m (sectionHeader m elf i) ≠ shtDynsym
  entsize : shEntsize m (sectionHeader m elf d) = 24
  size : (shSize m (sectionHeader m elf d)).toNat = 24 * count
  loaded : elf ≠ 0
  symbols : elf.toNat + (shOffset m (sectionHeader m elf d)).toNat < 2 ^ 64
  strings : elf.toNat + (shOffset m (sectionHeader m elf (shLink m (sectionHeader m elf d)).toNat)).toNat < 2 ^ 64

/- Symbol `k` of the table in section `d`. -/
def symbolAt (m : Word → Byte) (elf : Word) (d k : Nat) : Word :=
  shOffset m (sectionHeader m elf d) + elf + BitVec.ofNat 64 (24 * k)

def nameOf (m : Word → Byte) (elf : Word) (d k : Nat) : Word :=
  (stName m (symbolAt m elf d k)).setWidth 64 +
    (shOffset m (sectionHeader m elf (shLink m (sectionHeader m elf d)).toNat) + elf)

def valueOf (m : Word → Byte) (elf : Word) (d k : Nat) : Word := stValue m (symbolAt m elf d k)

/-- The value of the first symbol of exactly this name, 0 if there is none. -/
def wantedAddress (m : Word → Byte) (elf : Word) (d count : Nat) (name : CString) : Word :=
  ((List.range count).find? fun k => decide (StringAt m (nameOf m elf d k) name)).elim 0 (valueOf m elf d)

/-- What is compared: the name, without its end where it is shorter than 2^31. -/
def comparedPart (name : CString) : List Byte := (name.bytes ++ [0]).take (compareLen name)

def NameBegins (m : Word → Byte) (a : Word) (name : CString) : Prop :=
  Bytes.bytesAt m a (comparedPart name).length = comparedPart name

/-- The turns of the loop over the symbols. -/
def turns (count : Nat) : Nat := (BitVec.ofNat 32 count : CInt).toInt.toNat

/-- The turns before `entsize * s` is more than an `int` can hold: 24 * 89478486 is the first such product. -/
def reached (count : Nat) : Nat := min (turns count) 89478486

/- Numbers that keep their value as an `int`. -/
def FitsInt (v : Word) : Prop := v.toNat < 2 ^ 31 ∨ 2 ^ 64 - 2 ^ 31 ≤ v.toNat

/-- Symbol `b` is the first whose name begins with the searched one. -/
def FirstBegins (m : Word → Byte) (elf : Word) (d : Nat) (name : CString) (b : Nat) : Prop :=
  NameBegins m (nameOf m elf d b) name ∧ ∀ k < b, ¬ NameBegins m (nameOf m elf d k) name

/-- The first symbol whose name begins with the searched one has just this name and a value that an `int` keeps;
or it is another one and its value happens to be the wanted one as an `int`; or there is none and none is wanted. -/
def FindsExactName (m : Word → Byte) (elf : Word) (d count : Nat) (name : CString) : Prop :=
  (∃ b < reached count, FirstBegins m elf d name b ∧ StringAt m (nameOf m elf d b) name ∧ FitsInt (valueOf m elf d b)) ∨
  (∃ b < reached count, FirstBegins m elf d name b ∧ ¬ StringAt m (nameOf m elf d b) name ∧
    (valueOf m elf d b).setWidth 32 = (wantedAddress m elf d count name).setWidth 32 ∧
    FitsInt (wantedAddress m elf d count name)) ∨
  ((∀ k < reached count, ¬ NameBegins m (nameOf m elf d k) name) ∧ turns count ≤ 89478486 ∧
    wantedAddress m elf d count name = 0)

instance (m : Word → Byte) (elf : Word) (d count : Nat) : Decidable (DynamicImage m elf d count) :=
  decidable_of_iff _ (dynamicImage_iff m elf d count).symm

instance (m : Word → Byte) (a : Word) (name : CString) : Decidable (NameBegins m a name) :=
  inferInstanceAs (Decidable (_ = _))

variable {m : Word → Byte} {elf : Word} {name : CString} {d count : Nat}

theorem returnAddr_toNat (v : Word) :
    (returnAddr v).toNat = v.toNat % 2 ^ 32 + if 2 ^ 31 ≤ v.toNat % 2 ^ 32 then 2 ^ 64 - 2 ^ 32 else 0 := by
  have low : v.toNat % 2 ^ 32 < 2 ^ 64 := Nat.lt_trans (Nat.mod_lt _ (by decide)) (by decide)
  rw [returnAddr, BitVec.toNat_signExtend, BitVec.msb_eq_decide, BitVec.toNat_setWidth, BitVec.toNat_setWidth,
    Nat.mod_eq_of_lt low]
  simp only [decide_eq_true_eq]

theorem returnAddr_low (v : Word) : (returnAddr v).setWidth 32 = v.setWidth 32 := by
  apply BitVec.eq_of_toNat_eq
  rw [BitVec.toNat_setWidth, BitVec.toNat_setWidth, returnAddr_toNat]
  split <;> omega

theorem returnAddr_eq_self_iff (v : Word) : returnAddr v = v ↔ FitsInt v := by
  have bound := v.isLt
  rw [← BitVec.toNat_inj, returnAddr_toNat, FitsInt]
  split <;> omega

/-- The address is the wanted one if the low halves are equal and the wanted one is an `int`. -/
theorem returnAddr_eq_iff (v w : Word) : returnAddr v = w ↔ v.setWidth 32 = w.setWidth 32 ∧ FitsInt w := by
  constructor
  · intro same
    have low : v.setWidth 32 = w.setWidth 32 := by rw [← same, returnAddr_low]
    refine ⟨low, (returnAddr_eq_self_iff w).mp ?_⟩
    rw [← same, returnAddr, returnAddr_low]
    rfl
  · rintro ⟨low, fits⟩
    rw [returnAddr, low]
    exact (returnAddr_eq_self_iff w).mpr fits

theorem strncmp_eq_zero_iff (m : Word → Byte) (a : Word) {bytes : List Byte} (n : Nat) (noZero : 0 ∉ bytes) :
    strncmp m a bytes n = 0 ↔ Bytes.bytesAt m a ((bytes ++ [0]).take n).length = (bytes ++ [0]).take n := by
  induction bytes generalizing a n with
  | nil =>
    cases n with
    | zero => exact iff_of_true rfl rfl
    | succ n =>
      have last : ([] ++ [0] : List Byte).take (n + 1) = [0] :=
        List.take_of_length_le (Nat.succ_le_succ (Nat.zero_le n))
      rw [last, strncmp, List.length_singleton, Bytes.bytesAt_succ]
      constructor
      · intro zero
        have null : m a = 0 := BitVec.eq_of_toNat_eq (Int.ofNat.inj zero)
        rw [null]
        rfl
      · intro same
        have null : m a = 0 := (List.cons.inj same).1
        rw [null]
        rfl
  | cons c rest ih =>
    cases n with
    | zero => exact iff_of_true rfl rfl
    | succ n =>
      obtain ⟨first, others⟩ := not_or.mp (mt List.mem_cons.mpr noZero)
      rw [List.cons_append, List.take_succ_cons, List.length_cons, Bytes.bytesAt_succ, List.cons_eq_cons, strncmp]
      cases decEq (m a) c with
      | isTrue same => rw [if_pos same, ih (a + 1) n others, and_iff_right same]
      | isFalse other =>
        rw [if_neg other]
        refine iff_of_false (fun zero => other ?_) fun same => other same.1
        exact BitVec.eq_of_toNat_eq (by omega)

theorem compares_name (m : Word → Byte) (a : Word) (name : CString) :
    strncmp m a name.bytes (compareLen name) = 0 ↔ NameBegins m a name :=
  strncmp_eq_zero_iff m a (compareLen name) name.noZero

theorem begins_of_same {a : Word} (same : StringAt m a name) : NameBegins m a name := by
  have shorter : (comparedPart name).length ≤ name.strlen + 1 := by
    rw [comparedPart, List.length_take, List.length_append]
    exact Nat.min_le_right ..
  obtain ⟨rest, split⟩ := Nat.exists_eq_add_of_le shorter
  rw [StringAt, split, Bytes.bytesAt_append] at same
  have front := congrArg (List.take (comparedPart name).length) same
  have length := Bytes.length_bytesAt m a (comparedPart name).length
  rw [List.take_append_of_le_length (Nat.le_of_eq length.symm), List.take_of_length_le (Nat.le_of_eq length)] at front
  rw [NameBegins, front, comparedPart, List.length_take, List.take_eq_take_iff]
  omega

theorem turns_le (count : Nat) : turns count ≤ count := by
  have cut : (BitVec.ofNat 32 count).toNat ≤ count := Nat.mod_le _ _
  rw [turns, BitVec.toInt_eq_toNat_cond]
  split <;> omega

theorem reached_le (count : Nat) : reached count ≤ count := Nat.le_trans (Nat.min_le_left ..) (turns_le count)

/- Symbol number `s` lies where the code looks for it. -/
theorem smulOverflow_entsize {s : Nat} (small : s < 2 ^ 31) :
    (24 : CInt).smulOverflow (BitVec.ofNat 32 s) = true ↔ 89478486 ≤ s := by
  have size : (24 : CInt).toInt = 24 := rfl
  rw [BitVec.smulOverflow, size, Bits.toInt_count small, Bool.or_eq_true, decide_eq_true_eq, decide_eq_true_eq]
  omega

theorem symbol_offset {s : Nat} (near : s < 89478486) :
    ((24 : CInt) * BitVec.ofNat 32 s).signExtend 64 = BitVec.ofNat 64 (24 * s) := by
  have product : (24 : CInt) * BitVec.ofNat 32 s = BitVec.ofNat 32 (24 * s) := (BitVec.ofNat_mul 24 s).symm
  rw [product, Bits.signExtend_count (by omega)]

/-- The locals of `get_symbol_address` behind section `d`. -/
def dynamicTable (m : Word → Byte) (elf : Word) (d count : Nat) : SymbolTable where
  dynsym := shOffset m (sectionHeader m elf d) + elf
  num := BitVec.ofNat 32 count
  entsize := 24
  strtab := shOffset m (sectionHeader m elf (shLink m (sectionHeader m elf d)).toNat) + elf

theorem searchSymbols_far {n s : Nat} (small : s < 2 ^ 31) (far : 89478486 ≤ s) :
    searchSymbols m name (dynamicTable m elf d count) (n + 1) s = none :=
  if_pos ((smulOverflow_entsize small).mpr far)

theorem searchSymbols_near {n s : Nat} (near : s < 89478486) :
    searchSymbols m name (dynamicTable m elf d count) (n + 1) s =
      if NameBegins m (nameOf m elf d s) name then some (some (returnAddr (valueOf m elf d s)))
      else searchSymbols m name (dynamicTable m elf d count) n (s + 1) := by
  have fits : ¬ (dynamicTable m elf d count).entsize.smulOverflow (BitVec.ofNat 32 s) = true :=
    fun far => Nat.not_le_of_lt near ((smulOverflow_entsize (by omega)).mp far)
  have place : (dynamicTable m elf d count).dynsym +
      ((dynamicTable m elf d count).entsize * BitVec.ofNat 32 s).signExtend 64 = symbolAt m elf d s :=
    congrArg (_ + ·) (symbol_offset near)
  rw [searchSymbols, if_neg fits, place]
  exact if_congr (compares_name m (nameOf m elf d s) name) rfl rfl

/-- The symbols before the first match are passed over. -/
theorem searchSymbols_skip {j s : Nat} (n : Nat)
    (others : ∀ k, s ≤ k → k < s + j → k < 89478486 ∧ ¬ NameBegins m (nameOf m elf d k) name) :
    searchSymbols m name (dynamicTable m elf d count) (j + n) s =
      searchSymbols m name (dynamicTable m elf d count) n (s + j) := by
  induction j generalizing s with
  | zero => rw [Nat.zero_add, Nat.add_zero]
  | succ j ih =>
    obtain ⟨near, other⟩ := others s (Nat.le_refl s) (by omega)
    have turn : j + 1 + n = j + n + 1 := by omega
    have next : s + (j + 1) = s + 1 + j := by omega
    rw [turn, searchSymbols_near near, if_neg other, next]
    exact ih fun k behind before => others k (by omega) (by omega)

theorem searchSymbols_found {b : Nat} (inside : b < reached count) (first : FirstBegins m elf d name b) :
    searchSymbols m name (dynamicTable m elf d count) (turns count) 0 =
      some (some (returnAddr (valueOf m elf d b))) := by
  have both : b < turns count ∧ b < 89478486 := lt_min_iff.mp inside
  obtain ⟨rest, split⟩ := Nat.exists_eq_add_of_lt both.1
  rw [split, Nat.add_assoc, searchSymbols_skip (rest + 1) fun k _ before => ⟨by omega, first.2 k (by omega)⟩,
    Nat.zero_add, searchSymbols_near both.2, if_pos first.1]

theorem searchSymbols_missing (missing : ∀ k < reached count, ¬ NameBegins m (nameOf m elf d k) name) :
    searchSymbols m name (dynamicTable m elf d count) (turns count) 0 =
      if turns count ≤ 89478486 then some none else none := by
  have others : ∀ k, 0 ≤ k → k < 0 + reached count → k < 89478486 ∧ ¬ NameBegins m (nameOf m elf d k) name := by
    intro k _ before
    rw [Nat.zero_add] at before
    exact ⟨(lt_min_iff.mp before).2, missing k before⟩
  have skipped (n : Nat) : searchSymbols m name (dynamicTable m elf d count) (reached count + n) 0 =
      searchSymbols m name (dynamicTable m elf d count) n (reached count) := by
    rw [searchSymbols_skip n others, Nat.zero_add]
  cases Nat.lt_or_ge 89478486 (turns count) with
  | inr few =>
    have all : reached count = turns count := Nat.min_eq_left few
    rw [if_pos few, ← all]
    exact skipped 0
  | inl many =>
    have end_ : reached count = 89478486 := Nat.min_eq_right (Nat.le_of_lt many)
    obtain ⟨rest, split⟩ := Nat.exists_eq_add_of_lt many
    rw [if_neg (Nat.not_le_of_lt many), split, Nat.add_assoc, ← end_, skipped (rest + 1), end_]
    exact searchSymbols_far (by decide) (Nat.le_refl _)

/-- Sections of other types leave the locals as they are. -/
theorem searchSections_skip {t : SymbolTable} (passed : t.strtab = 0) {j i : Nat} (n : Nat)
    (others : ∀ k, i ≤ k → k < i + j → shType m (sectionHeader m elf k) ≠ shtDynsym) :
    searchSections m elf name (j + n) i t = searchSections m elf name n (i + j) t := by
  induction j generalizing i with
  | zero => rw [Nat.zero_add, Nat.add_zero]
  | succ j ih =>
    have turn : j + 1 + n = j + n + 1 := by omega
    have next : i + (j + 1) = i + 1 + j := by omega
    have unchanged : readSection m elf i t = some t := if_neg (others i (Nat.le_refl i) (by omega))
    have skipped : ¬ (t.strtab ≠ 0 ∧ t.dynsym ≠ 0) := fun both => both.1 passed
    rw [turn, searchSections, unchanged]
    dsimp only
    rw [if_neg skipped, next]
    exact ih fun k behind before => others k (by omega) (by omega)

namespace DynamicImage

variable (image : DynamicImage m elf d count)
include image

theorem readSection_dynsym (t : SymbolTable) : readSection m elf d t = some (dynamicTable m elf d count) := by
  have entries : shSize m (sectionHeader m elf d) / shEntsize m (sectionHeader m elf d) = BitVec.ofNat 64 count := by
    apply BitVec.eq_of_toNat_eq
    have bound := (shSize m (sectionHeader m elf d)).isLt
    have size := image.size
    have entry : (24 : Word).toNat = 24 := rfl
    rw [image.entsize, BitVec.toNat_udiv, size, BitVec.toNat_ofNat, entry]
    omega
  have number : (BitVec.ofNat 64 count).setWidth 32 = BitVec.ofNat 32 count :=
    BitVec.setWidth_ofNat_of_le (by decide) count
  have nonzero : shEntsize m (sectionHeader m elf d) ≠ 0 := by
    rw [image.entsize]
    decide
  have read : readSection m elf d t = some _ := (if_pos image.dynsym).trans (if_neg nonzero)
  rw [read, entries, number, image.entsize]
  rfl

/-- The file is not mapped at 0, and what lies in it is not either. -/
theorem place_ne_zero {offset : Word} (inside : elf.toNat + offset.toNat < 2 ^ 64) : offset + elf ≠ 0 := by
  have mapped := image.loaded
  bv_omega

theorem getSymbolAddress_eq : getSymbolAddress m elf name =
    (searchSymbols m name (dynamicTable m elf d count) (turns count) 0).map fun found => found.getD 0 := by
  obtain ⟨rest, split⟩ := Nat.exists_eq_add_of_lt image.inTable
  have front : ∀ k, 0 ≤ k → k < 0 + d → shType m (sectionHeader m elf k) ≠ shtDynsym :=
    fun k _ before => image.only k (by omega) (by omega)
  have back : ∀ k, d + 1 ≤ k → k < d + 1 + rest → shType m (sectionHeader m elf k) ≠ shtDynsym :=
    fun k behind before => image.only k (by omega) (by omega)
  have pointers : (dynamicTable m elf d count).strtab ≠ 0 ∧ (dynamicTable m elf d count).dynsym ≠ 0 :=
    ⟨image.place_ne_zero image.strings, image.place_ne_zero image.symbols⟩
  rw [getSymbolAddress, split, Nat.add_assoc, searchSections_skip rfl (rest + 1) front, Nat.zero_add, searchSections,
    image.readSection_dynsym]
  dsimp only
  rw [if_pos pointers]
  have same : (dynamicTable m elf d count).num.toInt.toNat = turns count := rfl
  rw [same]
  cases searchSymbols m name (dynamicTable m elf d count) (turns count) 0 with
  | none => rfl
  | some found =>
    cases found with
    | some addr => rfl
    | none => exact searchSections_skip rfl 0 back

end DynamicImage

/- Which symbol is found first, and which is wanted. -/
section Wanted

theorem FirstBegins.unique {a b : Nat} (first : FirstBegins m elf d name a) (second : FirstBegins m elf d name b) :
    a = b := by
  rcases Nat.lt_trichotomy a b with before | same | behind
  · exact absurd first.1 (second.2 a before)
  · exact same
  · exact absurd second.1 (first.2 b behind)

/-- A match within reach, or none. -/
theorem firstBegins_or_missing (m : Word → Byte) (elf : Word) (d count : Nat) (name : CString) :
    (∃ b < reached count, FirstBegins m elf d name b) ∨
      ∀ k < reached count, ¬ NameBegins m (nameOf m elf d k) name := by
  cases found : (List.range (reached count)).find? fun k => decide (NameBegins m (nameOf m elf d k) name) with
  | some b =>
    obtain ⟨begins, inside, others⟩ := List.find?_range_eq_some.mp found
    refine .inl ⟨b, List.mem_range.mp inside, of_decide_eq_true begins, fun k before => ?_⟩
    simpa using others k before
  | none =>
    refine .inr fun k inside => ?_
    simpa using List.find?_range_eq_none.mp found k inside

/-- The first match is the wanted symbol, if it has the name. -/
theorem wantedAddress_eq {b : Nat} (inside : b < reached count) (first : FirstBegins m elf d name b)
    (same : StringAt m (nameOf m elf d b) name) : wantedAddress m elf d count name = valueOf m elf d b := by
  have found : ((List.range count).find? fun k => decide (StringAt m (nameOf m elf d k) name)) = some b := by
    refine List.find?_range_eq_some.mpr ⟨decide_eq_true same, List.mem_range.mpr ?_, fun k before => ?_⟩
    · exact Nat.lt_of_lt_of_le inside (reached_le count)
    · have other : ¬ StringAt m (nameOf m elf d k) name := fun exact_ => first.2 k before (begins_of_same exact_)
      rw [decide_eq_false other]
      rfl
  rw [wantedAddress, found]
  rfl

theorem FirstBegins.findsExactName_iff {b : Nat} (first : FirstBegins m elf d name b) (inside : b < reached count) :
    FindsExactName m elf d count name ↔ returnAddr (valueOf m elf d b) = wantedAddress m elf d count name := by
  rw [returnAddr_eq_iff]
  constructor
  · rintro (⟨a, near, other, same, fits⟩ | ⟨a, near, other, -, low, fits⟩ | ⟨missing, -, -⟩)
    · rw [wantedAddress_eq near other same, other.unique first]
      exact ⟨rfl, other.unique first ▸ fits⟩
    · exact ⟨other.unique first ▸ low, fits⟩
    · exact absurd first.1 (missing b inside)
  · rintro ⟨low, fits⟩
    cases Classical.em (StringAt m (nameOf m elf d b) name) with
    | inl same => exact .inl ⟨b, inside, first, same, wantedAddress_eq inside first same ▸ fits⟩
    | inr different => exact .inr (.inl ⟨b, inside, first, different, low, fits⟩)

theorem findsExactName_missing_iff (missing : ∀ k < reached count, ¬ NameBegins m (nameOf m elf d k) name) :
    FindsExactName m elf d count name ↔ turns count ≤ 89478486 ∧ wantedAddress m elf d count name = 0 := by
  constructor
  · rintro (⟨b, inside, first, -⟩ | ⟨b, inside, first, -⟩ | ⟨-, few, zero⟩)
    · exact absurd first.1 (missing b inside)
    · exact absurd first.1 (missing b inside)
    · exact ⟨few, zero⟩
  · exact fun zero => .inr (.inr ⟨missing, zero⟩)

end Wanted

/-- The value of the first symbol of this name in all 64 bits, and 0 without one, is returned exactly then. -/
theorem symbolAddress_exact_iff (image : DynamicImage m elf d count) (name : CString) :
    getSymbolAddress m elf name = some (wantedAddress m elf d count name) ↔ FindsExactName m elf d count name := by
  rw [image.getSymbolAddress_eq]
  rcases firstBegins_or_missing m elf d count name with ⟨b, inside, first⟩ | missing
  · rw [searchSymbols_found inside first, first.findsExactName_iff inside]
    exact Option.some_inj
  · rw [searchSymbols_missing missing, findsExactName_missing_iff missing]
    split
    · rename_i few
      rw [and_iff_right few, eq_comm (b := 0)]
      exact Option.some_inj
    · rename_i many
      exact iff_of_false (Option.some_ne_none _).symm fun both => many both.1

/-- An image at 4096 with three sections: the empty one, one symbol of the name and the value behind the empty
symbol, and its string table. -/
def oneSymbol (stored : List Byte) (value : Word) : Word → Byte :=
  Bytes.storeAll (fun _ => 0)
    [ -- `e_ident`, `e_type`, `e_machine`, `e_version`, and the sizes and places of the headers
      (4096, [0x7f, 0x45, 0x4c, 0x46, 2, 1, 1]), (4096 + 16, [3, 0, 183, 0, 1]), (4096 + 40, [64]),
      (4096 + 52, [64]), (4096 + 58, [64, 0, 3, 0, 2]),
      -- `SHT_DYNSYM` at 256
      (4096 + 132, [11]), (4096 + 152, [0, 1]), (4096 + 160, [48]), (4096 + 168, [2, 0, 0, 0, 1]),
      (4096 + 176, [8]), (4096 + 184, [24]),
      -- `SHT_STRTAB` at 304
      (4096 + 196, [3]), (4096 + 216, [48, 1]), (4096 + 224, [BitVec.ofNat 8 (stored.length + 2)]), (4096 + 240, [1]),
      (4096 + 280, [1, 0, 0, 0, 0x12, 0, 0xf1, 0xff]), (4096 + 288, Bytes.encode 8 value.toNat), (4096 + 305, stored)]

theorem symbolA_noZero : 0 ∉ ([0x61] : List Byte) := by decide

def symbolA : CString := ⟨[0x61], symbolA_noZero⟩

theorem oneSymbol_image : DynamicImage (oneSymbol [0x61] 0x40000) 4096 1 2 := by decide

theorem symbolAddress_exact_iff_small : getSymbolAddress (oneSymbol [0x61] 0x40000) 4096 symbolA = some 0x40000 ∧
    (getSymbolAddress (oneSymbol [0x61] 0x40000) 4096 symbolA =
        some (wantedAddress (oneSymbol [0x61] 0x40000) 4096 1 2 symbolA) ↔
      FindsExactName (oneSymbol [0x61] 0x40000) 4096 1 2 symbolA) :=
  ⟨by decide, symbolAddress_exact_iff oneSymbol_image symbolA⟩

/-- Searched for "a", the symbol "ab" is found. From the value of "a" itself bit 31 goes into the upper half. -/
theorem longer_name_found :
    DynamicImage (oneSymbol [0x61, 0x62] 0x40000) 4096 1 2 ∧ DynamicImage (oneSymbol [0x61] 0x80000000) 4096 1 2 ∧
      wantedAddress (oneSymbol [0x61, 0x62] 0x40000) 4096 1 2 symbolA = 0 ∧
      getSymbolAddress (oneSymbol [0x61, 0x62] 0x40000) 4096 symbolA = some 0x40000 ∧
      wantedAddress (oneSymbol [0x61] 0x80000000) 4096 1 2 symbolA = 0x80000000 ∧
      getSymbolAddress (oneSymbol [0x61] 0x80000000) 4096 symbolA = some 0xFFFFFFFF80000000 := by
  decide

end RealmVm.ImageGenerator
