import RealmVm.Elf.Mapping
import RealmVm.Exec.NewProcess
import RealmVm.Lib.PointerTable

/-! The stores of `create_new_process` as the process sees them, on a stack that is mapped. -/
namespace RealmVm

open Lib Lib.Bytes

/-- The stack of a process, below 8MB, is mapped and may be written to. -/
structure StackReady (m : Memory) (p : Process) (pages : PageMap) : Prop where
  lower : p.t.startVa = 0
  backed : Backed m p.t pages
  own : OwnFrames p.t pages
  top : p.stackBase.toNat ≤ 2 ^ 23
  room : p.stackSize.toNat ≤ p.stackBase.toNat
  mapped : ∀ n, p.stackBase.toNat - p.stackSize.toNat ≤ n → n < p.stackBase.toNat →
    ∃ x, pages (n / 4096) = some x ∧ protW &&& x.2 ≠ 0

/- The bytes of a process by address; 0 where nothing is mapped. -/
def pageView (m : Memory) (pages : PageMap) : Word → Byte := fun va =>
  ((pageByte pages va.toNat).map (WordBytes.byte m.word)).getD 0

/-- After these stores, with places counted from `base`, the process reads `m'`. -/
structure Stores (m m' : Memory) (t : TranslationTables) (pages : PageMap) (base : Word)
    (stores : List (Nat × List Byte)) : Prop where
  backed : Backed m' t pages
  view : pageView m' pages = storeAll (pageView m pages) (stores.map fun s => (base + BitVec.ofNat 64 s.1, s.2))

section Stores

variable {m m₁ m' : Memory} {t : TranslationTables} {p : Process} {pages : PageMap} {base : Word}
  {first second : List (Nat × List Byte)}

theorem Stores.append (one : Stores m m₁ t pages base first) (two : Stores m₁ m' t pages base second) :
    Stores m m' t pages base (first ++ second) := by
  refine ⟨two.backed, ?_⟩
  rw [List.map_append, storeAll_append, ← one.view]
  exact two.view

/-- One byte. -/
theorem pageView_setByte (backed : Backed m t pages) (own : OwnFrames t pages) {va a : Word}
    (found : pageByte pages va.toNat = some a) (b : Byte) :
    pageView { m with word := WordBytes.setByte m.word a b } pages = store (pageView m pages) va [b] := by
  funext c
  cases decEq c va with
  | isTrue here =>
    subst here
    simp [pageView, found, store]
  | isFalse other =>
    have outside : c ∉ span va [b].length := by
      intro inside
      have distance : (c - va).toNat < 1 := inside
      apply other
      bv_omega
    rw [Bytes.store_outside outside, pageView, pageView]
    cases reached : pageByte pages c.toNat with
    | none => rfl
    | some d =>
      have apart : a ≠ d := by
        rintro rfl
        exact other (BitVec.eq_of_toNat_eq (pageByte_injective backed own reached found))
      simp only [Option.map_some, Option.getD_some]
      exact WordBytes.byte_setByte_of_ne apart

theorem storeBytes_spec (ready : StackReady m₁ p pages) (ttbr1 : Word) (bytes : List Byte)
    (backed : Backed m p.t pages) {va : Word} (low : p.stackBase.toNat - p.stackSize.toNat ≤ va.toNat)
    (high : va.toNat + bytes.length ≤ p.stackBase.toNat) :
    ∃ m', m.storeBytes p.t.pgd ttbr1 va bytes = some m' ∧ Backed m' p.t pages ∧
      pageView m' pages = store (pageView m pages) va bytes := by
  induction bytes generalizing m va with
  | nil => exact ⟨m, rfl, backed, rfl⟩
  | cons b rest ih =>
    rw [List.length_cons] at high
    have top := ready.top
    obtain ⟨x, page, write⟩ := ready.mapped va.toNat low (by omega)
    have lower : va.toNat < 2 ^ 48 := by omega
    obtain ⟨a, target⟩ : ∃ a, pageByte pages va.toNat = some a := ⟨_, congrArg _ page⟩
    have translated : Mmu.translate ⟨m.word, p.t.pgd, ttbr1⟩ va = some a :=
      (backed.translate_eq ready.lower ttbr1 lower).trans target
    have permitted : Mmu.permits ⟨m.word, p.t.pgd, ttbr1⟩ .el1 true va = true :=
      backed.permits ready.lower ttbr1 lower page fun _ => write
    have next : (va + 1).toNat = va.toNat + 1 := by bv_omega
    have above : p.stackBase.toNat - p.stackSize.toNat ≤ (va + 1).toNat := by omega
    obtain ⟨m', ran, backed', view⟩ := ih (backed.write ready.own target b) above (by omega)
    refine ⟨m', ?_, backed', ?_⟩
    · simp only [Memory.storeBytes, permitted, if_true, translated]
      exact ran
    · have joined := store_append (pageView m pages) va [b] rest (by rw [List.length_singleton]; omega)
      rw [view, pageView_setByte backed ready.own target]
      exact joined

/-- A store of the call, at `place` from `base` on. -/
theorem storeBytes_at (ready : StackReady m₁ p pages) (ttbr1 : Word) (bytes : List Byte) (backed : Backed m p.t pages)
    {place : Nat} (low : p.stackBase.toNat - p.stackSize.toNat ≤ base.toNat)
    (high : base.toNat + place + bytes.length ≤ p.stackBase.toNat) :
    ∃ m', m.storeBytes p.t.pgd ttbr1 (base + BitVec.ofNat 64 place) bytes = some m' ∧
      Stores m m' p.t pages base [(place, bytes)] := by
  have top := ready.top
  have at_ : (base + BitVec.ofNat 64 place).toNat = base.toNat + place := by bv_omega
  have above : p.stackBase.toNat - p.stackSize.toNat ≤ (base + BitVec.ofNat 64 place).toNat := by omega
  obtain ⟨m', ran, backed', view⟩ := storeBytes_spec ready ttbr1 bytes backed above (by omega)
  exact ⟨m', ran, backed', view⟩

end Stores

section Tables

/-- What `strcpy` writes. -/
def CString.copied (s : CString) : List Byte := s.bytes ++ [0]

@[simp] theorem CString.length_copied (s : CString) : s.copied.length = s.strlen + 1 := List.length_append

/-- Eight bytes above the stack pointer the pointers begin. -/
theorem stringSlot_at (base : Word) {i : Nat} (small : i < 2 ^ 31) :
    stringSlot (base + 8) (BitVec.ofNat 32 i) = base + BitVec.ofNat 64 (8 + 8 * i) := by
  rw [stringSlot, Bits.signExtend_count small]
  bv_omega

variable {m m₁ : Memory} {p : Process} {pages : PageMap} {base : Word}

/-- One of the loops with the null pointer behind it. -/
theorem storeStrings_spec (ready : StackReady m₁ p pages) (ttbr1 : Word) (strings : List CString)
    (backed : Backed m p.t pages) {i place : Nat} (few : i + strings.length < 2 ^ 31)
    (low : p.stackBase.toNat - p.stackSize.toNat ≤ base.toNat)
    (order : 8 + 8 * i + 8 * (strings.length + 1) ≤ place)
    (high : base.toNat + place + totalLength (strings.map CString.copied) ≤ p.stackBase.toNat) :
    ∃ m₂ m', m.storeStrings p.t.pgd ttbr1 (base + 8) (BitVec.ofNat 32 i) (base + BitVec.ofNat 64 place) strings =
        some (BitVec.ofNat 32 (i + strings.length),
          base + BitVec.ofNat 64 (place + totalLength (strings.map CString.copied)), m₂) ∧
      m₂.storePointer p.t.pgd ttbr1 (base + 8) (BitVec.ofNat 32 (i + strings.length)) 0 = some m' ∧
      Stores m m' p.t pages base (tableStores 8 base (8 + 8 * i) place (strings.map CString.copied)) := by
  induction strings generalizing m i place with
  | nil =>
    have width : (encode 8 (0 : Word).toNat).length = 8 := length_encode 8 _
    simp only [List.length_nil, List.map_nil] at few order high ⊢
    have inside : base.toNat + (8 + 8 * i) + (encode 8 (0 : Word).toNat).length ≤ p.stackBase.toNat := by omega
    obtain ⟨m', ran, stored⟩ := storeBytes_at ready ttbr1 (encode 8 (0 : Word).toNat) backed low inside
    refine ⟨m, m', rfl, ?_, stored⟩
    rw [Memory.storePointer, stringSlot_at base few]
    exact ran
  | cons s rest ih =>
    have width : (encode 8 (base + BitVec.ofNat 64 place).toNat).length = 8 := length_encode 8 _
    have copied : s.copied.length = s.strlen + 1 := s.length_copied
    simp only [List.length_cons, List.map_cons, totalLength_cons, copied] at few order high ⊢
    have slot : base.toNat + (8 + 8 * i) + (encode 8 (base + BitVec.ofNat 64 place).toNat).length ≤
        p.stackBase.toNat := by omega
    obtain ⟨m₁, pointed, pointer⟩ := storeBytes_at ready ttbr1 _ backed low slot
    have area : base.toNat + place + s.copied.length ≤ p.stackBase.toNat := by omega
    obtain ⟨m₂, written, string⟩ := storeBytes_at ready ttbr1 s.copied pointer.backed low area
    have further : base.toNat + (place + (s.strlen + 1)) + totalLength (rest.map CString.copied) ≤
        p.stackBase.toNat := by omega
    obtain ⟨m₃, m', ran, null, tables⟩ := ih string.backed (i := i + 1) (by omega) (by omega) further
    have count : i + 1 + rest.length = i + (rest.length + 1) := by omega
    have index : BitVec.ofNat 32 i + 1 = BitVec.ofNat 32 (i + 1) := (BitVec.ofNat_add i 1).symm
    have next : base + BitVec.ofNat 64 place + BitVec.ofNat 64 (s.strlen + 1) =
        base + BitVec.ofNat 64 (place + (s.strlen + 1)) := by rw [BitVec.add_assoc, ← BitVec.ofNat_add]
    have second : 8 + 8 * (i + 1) = 8 + 8 * i + 8 := by omega
    rw [count, Nat.add_assoc place] at ran
    rw [count] at null
    rw [second] at tables
    refine ⟨m₃, m', ?_, null, ?_⟩
    · simp only [Memory.storeStrings, Memory.storePointer, stringSlot_at base (show i < 2 ^ 31 by omega), pointed]
      rw [CString.copied] at written
      simp only [written, index, next]
      exact ran
    · have both := pointer.append (string.append tables)
      rw [tableStores, copied]
      exact both

/-- Where the strings begin: behind both tables. -/
def stringsPlace (argv envp : List CString) : Nat := 8 + 8 * (argv.length + envp.length + 2)

/-- The stores to the stack from the pointers on. -/
def stackStores (base : Word) (argv envp : List CString) : List (Nat × List Byte) :=
  let place := stringsPlace argv envp
  tableStores 8 base 8 place (argv.map CString.copied) ++
    tableStores 8 base (8 + 8 * (argv.length + 1)) (place + totalLength (argv.map CString.copied))
      (envp.map CString.copied)

theorem upTo_length (strings : List CString) (few : strings.length < 2 ^ 31) :
    StringArray.upTo (some strings) (BitVec.ofNat 32 strings.length) = strings := by
  rw [StringArray.upTo, Bits.toInt_count few, Int.toNat_natCast]
  exact List.take_length

theorem storeTables_spec (ready : StackReady m₁ p pages) (ttbr1 : Word) (argv envp : List CString)
    (backed : Backed m p.t pages) (few : argv.length + envp.length + 2 < 2 ^ 31)
    (low : p.stackBase.toNat - p.stackSize.toNat ≤ base.toNat)
    (high : base.toNat + stringsPlace argv envp + totalLength (argv.map CString.copied) +
      totalLength (envp.map CString.copied) ≤ p.stackBase.toNat) :
    ∃ m', m.storeTables p.t.pgd ttbr1 (base + 8) (some argv) (some envp) (BitVec.ofNat 32 argv.length)
        (BitVec.ofNat 32 envp.length) = some m' ∧ Stores m m' p.t pages base (stackStores base argv envp) := by
  have strings : stringSlot (base + 8) (BitVec.ofNat 32 argv.length + BitVec.ofNat 32 envp.length + 2) =
      base + BitVec.ofNat 64 (stringsPlace argv envp) := by
    have index : BitVec.ofNat 32 argv.length + BitVec.ofNat 32 envp.length + 2 =
        BitVec.ofNat 32 (argv.length + envp.length + 2) := by
      rw [BitVec.ofNat_add, BitVec.ofNat_add]
      rfl
    rw [index, stringSlot_at base few, stringsPlace]
  have next : BitVec.ofNat 32 argv.length + 1 = BitVec.ofNat 32 (argv.length + 1) := (BitVec.ofNat_add ..).symm
  have behind : 8 + 8 * 0 + 8 * (argv.length + 1) ≤ stringsPlace argv envp := by
    unfold stringsPlace
    omega
  have behind' : 8 + 8 * (argv.length + 1) + 8 * (envp.length + 1) ≤
      stringsPlace argv envp + totalLength (argv.map CString.copied) := by
    unfold stringsPlace
    omega
  have few' : 0 + argv.length < 2 ^ 31 := by omega
  obtain ⟨m₂, m₃, first, null, table⟩ := storeStrings_spec ready ttbr1 argv backed few' low behind (by omega)
  obtain ⟨m₄, m₅, second, null', table'⟩ := storeStrings_spec ready ttbr1 envp table.backed (i := argv.length + 1)
    (by omega) low behind' (by omega)
  have zero : BitVec.ofNat 32 0 = (0 : CInt) := rfl
  rw [Nat.zero_add] at null
  rw [zero, Nat.zero_add] at first
  refine ⟨m₅, ?_, table.append table'⟩
  simp only [Memory.storeTables, strings, upTo_length argv (by omega), upTo_length envp (by omega), first, null, next,
    second, null']

end Tables

end RealmVm
