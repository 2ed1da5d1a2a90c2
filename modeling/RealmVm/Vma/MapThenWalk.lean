import RealmVm.Vma.Translation
import Mathlib.Data.List.Find

/-! Sequences of mappings, and the hardware walk over the tables they leave. -/
namespace RealmVm

open Lib Lib.Bits

inductive Wrapper where
  | kernel | user | device
deriving DecidableEq

structure MapCall where
  wrapper : Wrapper
  va : Word
  pa : Word
  prot : CInt
deriving DecidableEq

def Wrapper.flags (prot : CInt) : Wrapper → CInt
  | .kernel => permToPt prot ||| ptKernel
  | .user => permToPt prot ||| ptUser
  | .device => orAssign (permToPt prot) (ptKernel.signExtend 64 ||| ptNx)

def Wrapper.isDev : Wrapper → CInt
  | .device => 1
  | _ => 0

def MapCall.perform (c : MapCall) (m : Memory) (t : TranslationTables) : Option (CInt × Memory) :=
  match c.wrapper with
  | .kernel => pageTableMapKernel m t c.va c.pa c.prot
  | .user => pageTableMapUser m t c.va c.pa c.prot
  | .device => pageTableMapDevice m t c.va c.pa c.prot

theorem MapCall.perform_eq (c : MapCall) (m : Memory) (t : TranslationTables) :
    c.perform m t = pageTableMap m t c.va c.pa (c.wrapper.flags c.prot) c.wrapper.isDev := by
  unfold MapCall.perform
  cases c.wrapper <;> rfl

theorem Wrapper.plain (w : Wrapper) (prot : CInt) : PlainFlags (w.flags prot) := by
  cases w with
  | kernel => exact plain_kernel prot
  | user => exact plain_user prot
  | device => exact plain_device prot

def MapCall.leaf (c : MapCall) : Word := leafEntry c.pa (c.wrapper.flags c.prot) c.wrapper.isDev

/-- Page-aligned addresses in the 4 GB that the level-3 tables describe. -/
structure MapCall.InWindow (t : TranslationTables) (c : MapCall) : Prop where
  va : c.va.toNat % 4096 = 0
  pa : c.pa.toNat % 4096 = 0
  output : c.pa.toNat < 2 ^ 48
  near : distance t c.va < 2 ^ 32

/-- The call returned 0 and left `m'`. -/
def mapStep (t : TranslationTables) (m : Memory) (c : MapCall) (m' : Memory) : Prop :=
  c.perform m t = some (0, m')

/-- What a translation should be: the address in the page the last call for it named. -/
def lastMapping (calls : List MapCall) (va : Word) : Option Word :=
  (calls.reverse.find? fun c => c.va = pageDown va).map fun c => c.pa + (va - pageDown va)

/- The descriptors the calls install, on top of those of `f`. -/
def leavesAfter (t : TranslationTables) (f : Nat → Option Word) (calls : List MapCall) :
    Nat → Option Word :=
  calls.foldl (fun f c => Function.update f (distance t c.va / 2 ^ 12) (some c.leaf)) f

variable {t : TranslationTables}

theorem leavesAfter_eq (f : Nat → Option Word) (calls : List MapCall) (p : Nat) :
    leavesAfter t f calls p =
      ((calls.reverse.find? fun c => distance t c.va / 2 ^ 12 = p).map MapCall.leaf).or (f p) := by
  rw [leavesAfter, List.foldl_eq_foldr_reverse]
  induction calls.reverse with
  | nil => rfl
  | cons c rest ih =>
    rw [List.foldr_cons, List.find?_cons]
    cases decEq (distance t c.va / 2 ^ 12) p with
    | isTrue same =>
      rw [decide_eq_true same, same, Function.update_self]
      rfl
    | isFalse other => rw [decide_eq_false other, Function.update_of_ne (Ne.symm other), ih]

/-- Two addresses are on one page of the window when their distances are. -/
theorem same_page (start : t.startVa.toNat % 2 ^ 30 = 0) (va : Word) {base : Word}
    (aligned : base.toNat % 4096 = 0) :
    distance t base / 2 ^ 12 = distance t va / 2 ^ 12 ↔ base = pageDown va := by
  have down := pageDown_toNat va
  unfold distance
  constructor
  · intro same
    apply BitVec.eq_of_toNat_eq
    rw [down]
    bv_omega
  · rintro rfl
    bv_omega

/-- A page descriptor leads to the byte of its page at which `va` is in its own. -/
theorem leafEntry_address {pa : Word} {flags : CInt} (plain : PlainFlags flags) (isDev : CInt)
    (aligned : pa.toNat % 4096 = 0) (output : pa.toNat < 2 ^ 48) (va : Word) :
    Leaf.address ⟨leafEntry pa flags isDev, 12⟩ va = pa + BitVec.ofNat 64 (va.toNat % 4096) := by
  have low : (field va 0 12).toNat = va.toNat % 4096 := by
    rw [toNat_field_eq _ _ _ (by decide)]
    simp
  have page : field (leafEntry pa flags isDev) 12 36 <<< 12 = pa := by
    rw [field_leafEntry _ plain]
    exact field_shiftLeft _ _ _ (by decide) aligned output
  show field (leafEntry pa flags isDev) 12 36 <<< 12 ||| field va 0 12 = _
  rw [page]
  apply BitVec.eq_of_toNat_eq
  rw [toNat_or_low _ _ 12 aligned (by rw [low]; omega), low]
  bv_omega

theorem leaf_address {c : MapCall} (aligned : c.pa.toNat % 4096 = 0) (output : c.pa.toNat < 2 ^ 48)
    (va : Word) : Leaf.address ⟨c.leaf, 12⟩ va = c.pa + (va - pageDown va) := by
  have offset : va - pageDown va = BitVec.ofNat 64 (va.toNat % 4096) := by
    have down := pageDown_toNat va
    bv_omega
  rw [MapCall.leaf, leafEntry_address (Wrapper.plain _ _) _ aligned output, offset]

/- The state of the tables after calls of the window. -/
structure Wired (m : Memory) (t : TranslationTables) : Prop where
  laid : LaidOut m t kernelPages
  linked : Linked m t kernelPages

theorem mapStep_eq (start : t.startVa.toNat % 2 ^ 30 = 0) {c : MapCall} (inWindow : c.InWindow t)
    (m : Memory) : c.perform m t =
      some (0, mapEntries m t c.va c.pa (c.wrapper.flags c.prot) c.wrapper.isDev) := by
  rw [c.perform_eq]
  exact pageTableMap_eq m start _ _ _ _ (Nat.lt_trans inWindow.near (by decide))

/-- One call in the window. -/
theorem Wired.step {m : Memory} (wired : Wired m t) (start : t.startVa.toNat % 2 ^ 30 = 0)
    {c : MapCall} (inWindow : c.InWindow t) :
    ∃ m', mapStep t m c m' ∧ Wired m' t ∧
      ∀ f, distance t c.va < 2 ^ 30 → Translates m t kernelPages f →
        Translates m' t kernelPages (Function.update f (distance t c.va / 2 ^ 12) (some c.leaf)) := by
  have mapped := mapEntries_spec wired.laid capacity_kernelPages c.va c.pa (c.wrapper.flags c.prot)
    c.wrapper.isDev inWindow.near
  refine ⟨_, mapStep_eq start inWindow m, ⟨wired.laid.of_pa mapped.pa_eq, ?_⟩, ?_⟩
  · exact wired.linked.step wired.laid capacity_kernelPages start inWindow.near mapped
  · intro f first translates
    exact translates.step wired.laid capacity_kernelPages start (Wrapper.plain _ _) first mapped

/-- Any sequence of calls in the window. -/
theorem Wired.run {m : Memory} (wired : Wired m t) (start : t.startVa.toNat % 2 ^ 30 = 0)
    {calls : List MapCall} (inWindow : ∀ c ∈ calls, c.InWindow t) :
    ∃ m', Run (mapStep t) m calls m' ∧ Wired m' t ∧
      ∀ f, (∀ c ∈ calls, distance t c.va < 2 ^ 30) → Translates m t kernelPages f →
        Translates m' t kernelPages (leavesAfter t f calls) := by
  induction calls generalizing m with
  | nil => exact ⟨m, .nil m, wired, fun f _ translates => translates⟩
  | cons c rest ih =>
    obtain ⟨m₁, head, wired₁, add⟩ := wired.step start (inWindow c List.mem_cons_self)
    obtain ⟨m₂, tail, wired₂, more⟩ := ih wired₁ fun c hc => inWindow c (List.mem_cons_of_mem _ hc)
    refine ⟨m₂, .cons head tail, wired₂, fun f first translates => ?_⟩
    exact more _ (fun c hc => first c (List.mem_cons_of_mem _ hc))
      (add f (first c List.mem_cons_self) translates)

theorem mapStep_unique (m : Memory) (c : MapCall) (m₁ m₂ : Memory) (first : mapStep t m c m₁)
    (second : mapStep t m c m₂) : m₁ = m₂ := by
  unfold mapStep at first second
  rw [first] at second
  cases second
  rfl

/-- Where only the first gigabyte was mapped, the walk is the last mapping. -/
theorem walk_eq_lastMapping {m : Memory} (wired : Wired m t) (start : t.startVa.toNat % 2 ^ 30 = 0)
    {calls : List MapCall} (inWindow : ∀ c ∈ calls, c.InWindow t)
    (first : ∀ c ∈ calls, distance t c.va < 2 ^ 30)
    (translates : Translates m t kernelPages (leavesAfter t (fun _ => none) calls)) {va : Word}
    (near : distance t va < 2 ^ 32) : walk m.word t.pgd va = lastMapping calls va := by
  have pages : ∀ c ∈ calls.reverse,
      decide (distance t c.va / 2 ^ 12 = distance t va / 2 ^ 12) = decide (c.va = pageDown va) :=
    fun c hc => decide_eq_decide.mpr (same_page start va (inWindow c (List.mem_reverse.mp hc)).va)
  unfold walk lastMapping
  cases Nat.lt_or_ge (distance t va) (2 ^ 30) with
  | inl low =>
    rw [translates.walkLeaf_eq wired.linked capacity_kernelPages start low near, leavesAfter_eq,
      List.find?_congr pages]
    cases found : calls.reverse.find? fun c => c.va = pageDown va with
    | none => rfl
    | some c =>
      have member := inWindow c (List.mem_reverse.mp (List.mem_of_find?_eq_some found))
      exact congrArg some (leaf_address member.pa member.output va)
  | inr far =>
    have unmapped : calls.reverse.find? (fun c => c.va = pageDown va) = none := by
      rw [← List.find?_congr pages, List.find?_eq_none]
      intro c hc same
      have low := first c (List.mem_reverse.mp hc)
      have equal := of_decide_eq_true same
      omega
    rw [wired.linked.walkLeaf_beyond capacity_kernelPages start far near, unmapped]
    rfl

/-- From zeroed tables, a sequence of mappings is what the hardware walk gives back
exactly when no call leaves the first gigabyte of the window. -/
theorem walk_gives_last_mapping_iff {m : Memory} (laid : LaidOut m t kernelPages)
    (start : t.startVa.toNat % 2 ^ 30 = 0)
    (zero : ∀ l, ∀ i < kernelPages l * 512, entry m t l i = 0)
    (calls : List MapCall) (inWindow : ∀ c ∈ calls, c.InWindow t) :
    (∃ m', Run (mapStep t) m calls m' ∧
      ∀ va, distance t va < 2 ^ 32 → walk m'.word t.pgd va = lastMapping calls va) ↔
    ∀ c ∈ calls, distance t c.va < 2 ^ 30 := by
  obtain ⟨linked, empty⟩ := zeroed (t := t) capacity_kernelPages zero
  obtain ⟨m', run, wired, translates⟩ := Wired.run ⟨laid, linked⟩ start inWindow
  constructor
  · rintro ⟨m₁, run₁, agrees⟩ c hc
    obtain rfl := run.functional mapStep_unique run₁
    cases Nat.lt_or_ge (distance t c.va) (2 ^ 30) with
    | inl low => exact low
    | inr far =>
      have window := inWindow c hc
      have lost : walk m'.word t.pgd c.va = none := by
        rw [walk, wired.linked.walkLeaf_beyond capacity_kernelPages start far window.near]
        rfl
      have own := (same_page start c.va window.va).mp rfl
      have mapped := lost.symm.trans (agrees c.va window.near)
      rw [eq_comm, lastMapping, Option.map_eq_none_iff, List.find?_eq_none] at mapped
      exact absurd (decide_eq_true own) (mapped c (List.mem_reverse.mpr hc))
  · intro first
    exact ⟨m', run, fun va near =>
      walk_eq_lastMapping wired start inWindow first (translates _ first empty) near⟩

/- Zeroed tables at the addresses of a small linker layout, seen at those addresses. -/
def bareMemory : Memory := ⟨fun _ => 0, id⟩

def bareTables : TranslationTables where
  pgd := 0x1000
  pud := 0x2000
  pmd := 0x100000
  pt3 := 0x200000
  startVa := 0xFFFFF00000000000
  startPa := 0
  vaPgd := 0x1000
  vaPud := 0x2000
  vaPmd := 0x100000
  vaPt3 := 0x200000

theorem bareTables_laidOut : LaidOut bareMemory bareTables kernelPages where
  aligned l := by cases l <;> rfl
  bounded l := by cases l <;> decide
  apart l l' := by cases l <;> cases l' <;> decide
  visible l i _ := by cases l <;> rfl

theorem walk_gives_last_mapping_iff_one_page :
    (∃ m', Run (mapStep bareTables) bareMemory [⟨.kernel, 0xFFFFF00000003000, 0x7000, 3⟩] m' ∧
      ∀ va, distance bareTables va < 2 ^ 32 → walk m'.word bareTables.pgd va =
        lastMapping [⟨.kernel, 0xFFFFF00000003000, 0x7000, 3⟩] va) ↔
    ∀ c ∈ ([⟨.kernel, 0xFFFFF00000003000, 0x7000, 3⟩] : List MapCall),
      distance bareTables c.va < 2 ^ 30 :=
  walk_gives_last_mapping_iff bareTables_laidOut (by decide) (fun _ _ _ => rfl) _
    (List.forall_mem_singleton.mpr ⟨by decide, by decide, by decide, by decide⟩)

/-- One page of the second gigabyte: the call succeeds and its page does not translate. -/
theorem second_gigabyte_lost :
    ¬ ∃ m', Run (mapStep bareTables) bareMemory [⟨.kernel, 0xFFFFF00040003000, 0x7000, 3⟩] m' ∧
      ∀ va, distance bareTables va < 2 ^ 32 → walk m'.word bareTables.pgd va =
        lastMapping [⟨.kernel, 0xFFFFF00040003000, 0x7000, 3⟩] va := by
  rintro ⟨m', run, agrees⟩
  cases run with
  | cons head tail =>
    cases tail
    have left : mapStep bareTables bareMemory ⟨.kernel, 0xFFFFF00040003000, 0x7000, 3⟩
        (mapEntries bareMemory bareTables 0xFFFFF00040003000 0x7000 (permToPt 3 ||| ptKernel) 0) :=
      mapStep_eq (by decide) ⟨by decide, by decide, by decide, by decide⟩ _
    obtain rfl := mapStep_unique _ _ _ _ left head
    have lost := agrees 0xFFFFF00040003000 (by decide)
    revert lost
    decide

end RealmVm
