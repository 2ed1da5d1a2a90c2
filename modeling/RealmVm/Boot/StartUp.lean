import RealmVm.Boot.AddressSpace
import RealmVm.Boot.RelocationPhases

/-! From the loaded image to the running kernel: `_start` relocates it and calls `kernel_init`, `shift_to_va` moves its
pointers, and with the MMU on `kernel_main` goes on. -/
namespace RealmVm

open Lib

/- What other code stores in between: the kernel's variables and its stack. -/
structure Meanwhile (own : Set Word) where
  stores : (Word → Byte) → Word → Byte
  only : ∀ m x, x ∉ own → stores m x = m x

namespace KernelImage

variable (k : KernelImage)

/- `_start` with the `kernel_main` that it ends with. The image is at its physical address, and so is what is stored
while the MMU is off. -/
def startUp (fuel : Nat) (relocations : Word) {own : Set Word} (first second third : Meanwhile own)
    (ns realmFrames : KframeAlloc) (bitmapNs bitmap : Word → Byte) (m : Word → Byte) : Option Memory :=
  (relocateKernel fuel m k.currentPaBase relocations).bind fun relocated =>
    (k.kernelInit fuel ⟨WordBytes.ofBytes (first.stores relocated.1), id⟩).bind fun initialised =>
      (enableMmap k.toMemoryLayout ns realmFrames bitmapNs bitmap).bind fun booted =>
        let shifted := shiftToVa (second.stores (WordBytes.byte initialised.word)) relocations
        k.kernelMain booted (k.mmuOn ⟨WordBytes.ofBytes (third.stores shifted), id⟩)

/- The bytes of both sets of tables. -/
def tableBytes : Set Word :=
  {x | ∃ l, x ∈ Bytes.span (k.realm l) (kernelPages l * 4096) ∨ x ∈ Bytes.span (k.lower l) (kernelPages l * 4096)}

/-- What the start-up code stores to. -/
def Stored (own : Set Word) (m : Word → Byte) (relocations : Word) (r : RelaSection) : Set Word :=
  {x | x ∈ k.tableBytes ∨ x ∈ own ∨ x ∈ storeTable relocations ∨
    ∃ i < (r.count m).toNat, x ∈ r.targetWord m k.currentPaBase i}

/-- A loaded image that can start: the linker has kept the tables, the kernel's variables and what the relocations need
apart. -/
structure Startable (own : Set Word) (m : Word → Byte) (relocations : Word) (r : RelaSection) (size : Nat) : Prop where
  placed : k.Placed ⟨WordBytes.ofBytes m, id⟩
  rela : RelaImage m k.currentPaBase relocations r size
  few : (r.count m).toNat ≤ maxRelocations
  tables : ∀ x ∈ k.tableBytes, x ∉ own ∧ x ∉ storeTable relocations ∧ x ∉ r.reads m ∧
    ∀ i < (r.count m).toNat, x ∉ r.targetWord m k.currentPaBase i
  apart : ∀ x ∈ own, x ∉ storeTable relocations ∧ x ∉ r.reads m ∧
    ∀ i < (r.count m).toNat, x ∉ r.targetWord m k.currentPaBase i

/-- The kernel after its start: everything that was not stored to is at its virtual address, and every relocated
pointer goes to the virtual address of its symbol. -/
structure Started (own : Set Word) (m : Word → Byte) (relocations : Word) (r : RelaSection) (m' : Memory) : Prop where
  map : k.AddressMap m'
  kept : ∀ n < (k.bitmapNsStart - k.binaryStart).toNat,
    k.currentPaBase + BitVec.ofNat 64 n ∉ k.Stored own m relocations r →
      (k.mmuOn m').kernelByte (kernelVaBase + BitVec.ofNat 64 n) = m (k.currentPaBase + BitVec.ofNat 64 n)
  pointers : ∀ i < (r.count m).toNat, r.handled m (BitVec.ofNat 64 i) = true →
    (rOffset m (r.entry (BitVec.ofNat 64 i))).toNat + 8 ≤ (k.bitmapNsStart - k.binaryStart).toNat →
      load64 (k.mmuOn m').kernelByte (kernelVaBase + rOffset m (r.entry (BitVec.ofNat 64 i))) =
        kernelVaBase + r.addendValue m (BitVec.ofNat 64 i)

variable {k : KernelImage} {own : Set Word} {m m' : Word → Byte} {relocations : Word} {r : RelaSection} {size : Nat}

/-- A byte outside the tables is in a word outside the tables. -/
theorem elsewhere_of_byte (placed : k.Placed ⟨WordBytes.ofBytes m, id⟩) {x : Word} (outside : x ∉ k.tableBytes) :
    Elsewhere k.upperTables kernelPages (WordBytes.wordOf x) ∧
      Elsewhere k.lowerTables kernelPages (WordBytes.wordOf x) := by
  have word := WordBytes.wordOf_toNat x
  have inTables {table : Word} {pages i : Nat} (aligned : table.toNat % 4096 = 0)
      (bounded : table.toNat + pages * 4096 ≤ 2 ^ 48) (near : i < pages * 512)
      (same : WordBytes.wordOf x = entryAddress table (BitVec.ofNat 64 i)) : x ∈ Bytes.span table (pages * 4096) := by
    have place : (entryAddress table (BitVec.ofNat 64 i)).toNat = table.toNat + 8 * i := by
      unfold entryAddress
      bv_omega
    rw [same, place] at word
    rw [Bytes.span, Set.mem_ofPred_eq, BitVec.toNat_sub]
    omega
  constructor
  · intro l i near same
    refine outside ⟨l, Or.inl ?_⟩
    have base := (k.upperTables.physical_base l).trans (k.upperTables_base l)
    exact inTables (base ▸ placed.upper.aligned l) (base ▸ placed.upper.bounded l) near (by cases l <;> exact same)
  · intro l i near same
    refine outside ⟨l, Or.inr ?_⟩
    have base := (k.lowerTables.physical_base l).trans (k.lowerTables_base l)
    exact inTables (base ▸ placed.lower.aligned l) (base ▸ placed.lower.bounded l) near (by cases l <;> exact same)

/-- An entry is made of bytes of the tables. -/
theorem tableBytes_of_entry (placed : k.Placed ⟨WordBytes.ofBytes m, id⟩) {l : Level} {i : Nat}
    (near : i < kernelPages l * 512) {x : Word} :
    (x ∈ Bytes.span (entryAddress (k.upperTables.base l) (BitVec.ofNat 64 i)) 8 → x ∈ k.tableBytes) ∧
      (x ∈ Bytes.span (entryAddress (k.lowerTables.base l) (BitVec.ofNat 64 i)) 8 → x ∈ k.tableBytes) := by
  have part {table : Word} {pages : Nat} (bounded : table.toNat + pages * 4096 ≤ 2 ^ 48) (near : i < pages * 512)
      (inside : x ∈ Bytes.span (entryAddress table (BitVec.ofNat 64 i)) 8) : x ∈ Bytes.span table (pages * 4096) := by
    have place : entryAddress table (BitVec.ofNat 64 i) = table + BitVec.ofNat 64 (8 * i) := by
      unfold entryAddress
      bv_omega
    rw [place] at inside
    exact Bytes.span_part table (by omega) (by omega) inside
  have first := (k.upperTables.physical_base l).trans (k.upperTables_base l)
  have second := (k.lowerTables.physical_base l).trans (k.lowerTables_base l)
  rw [k.upperTables_base, k.lowerTables_base]
  exact ⟨fun inside => ⟨l, Or.inl (part (first ▸ placed.upper.bounded l) near inside)⟩,
    fun inside => ⟨l, Or.inr (part (second ▸ placed.lower.bounded l) near inside)⟩⟩

theorem entries_of_bytes (placed : k.Placed ⟨WordBytes.ofBytes m, id⟩) {last : Word → Byte}
    (same : ∀ x ∈ k.tableBytes, last x = m' x) {l : Level} {i : Nat} (near : i < kernelPages l * 512) :
    WordBytes.ofBytes last (entryAddress (k.upperTables.base l) (BitVec.ofNat 64 i)) =
        WordBytes.ofBytes m' (entryAddress (k.upperTables.base l) (BitVec.ofNat 64 i)) ∧
      WordBytes.ofBytes last (entryAddress (k.lowerTables.base l) (BitVec.ofNat 64 i)) =
        WordBytes.ofBytes m' (entryAddress (k.lowerTables.base l) (BitVec.ofNat 64 i)) :=
  ⟨WordBytes.ofBytes_congr fun x inside => same x ((tableBytes_of_entry placed near).1 inside),
    WordBytes.ofBytes_congr fun x inside => same x ((tableBytes_of_entry placed near).2 inside)⟩

/-- Only the bytes of the tables matter for `Placed`. -/
theorem Placed.of_bytes (placed : k.Placed ⟨WordBytes.ofBytes m, id⟩) (same : ∀ x ∈ k.tableBytes, m' x = m x) :
    k.Placed ⟨WordBytes.ofBytes m', id⟩ := by
  obtain ⟨block, binary, short, upper, lower, apart, inside, zeroUpper, zeroLower, heaps, shared⟩ := placed
  have placed : k.Placed ⟨WordBytes.ofBytes m, id⟩ :=
    ⟨block, binary, short, upper, lower, apart, inside, zeroUpper, zeroLower, heaps, shared⟩
  refine ⟨block, binary, short, upper.of_pa rfl, lower.of_pa rfl, apart, inside, fun l i near => ?_,
    fun l i near => ?_, heaps, shared⟩
  · have zero := zeroUpper l i near
    unfold entry at zero ⊢
    exact (entries_of_bytes placed same near).1.trans zero
  · have zero := zeroLower l i near
    unfold entry at zero ⊢
    exact (entries_of_bytes placed same near).2.trans zero

/-- The words of the tables, from their bytes. -/
theorem Initialised.of_bytes {initialised : Memory} (placed : k.Placed ⟨WordBytes.ofBytes m, id⟩)
    (init : k.Initialised initialised) (same : ∀ x ∈ k.tableBytes, m' x = WordBytes.byte initialised.word x) :
    k.Initialised ⟨WordBytes.ofBytes m', id⟩ := by
  have aligned {table : Word} {i : Nat} (whole : table.toNat % 4096 = 0) :
      (entryAddress table (BitVec.ofNat 64 i)).toNat % 8 = 0 := by
    have offset : (8 * BitVec.ofNat 64 i).toNat % 8 = 0 := by
      bv_omega
    unfold entryAddress
    rw [BitVec.toNat_add]
    omega
  refine init.of_entries (fun l i near => ?_) fun l i near => ?_
  · have whole : (k.upperTables.base l).toNat % 4096 = 0 := by
      rw [← k.upperTables.physical_base]
      exact placed.upper.aligned l
    unfold entry
    exact (entries_of_bytes placed same near).1.trans (WordBytes.ofBytes_byte initialised.word (aligned whole))
  · have whole : (k.lowerTables.base l).toNat % 4096 = 0 := by
      rw [← k.lowerTables.physical_base]
      exact placed.lower.aligned l
    unfold entry
    exact (entries_of_bytes placed same near).2.trans (WordBytes.ofBytes_byte initialised.word (aligned whole))

/-- A byte of the image is read at its virtual address. -/
theorem AddressMap.kernelByte {mapped : Memory} (placed : k.Placed ⟨WordBytes.ofBytes m, id⟩)
    (map : k.AddressMap mapped) {n : Nat} (near : n < (k.bitmapNsStart - k.binaryStart).toNat) :
    (k.mmuOn mapped).kernelByte (kernelVaBase + BitVec.ofNat 64 n) =
      WordBytes.byte mapped.word (k.currentPaBase + BitVec.ofNat 64 n) := by
  obtain ⟨place, small⟩ := placed.pointer_upper near
  have away : distance k.upperTables (kernelVaBase + BitVec.ofNat 64 n) = n := by
    rw [distance_upper]
    bv_omega
  have origin : kernelVaBase.toNat = 0xFFFFF00000000000 := rfl
  have offset : 4096 * (n / 4096) + (kernelVaBase + BitVec.ofNat 64 n).toNat % 4096 = n := by omega
  have found : (k.mmu mapped).translate (kernelVaBase + BitVec.ofNat 64 n) =
      some (k.currentPaBase + BitVec.ofNat 64 n) := by
    rw [translate_upper placed (by omega), map.address _ (by omega), away, placed.page_image near, Option.map_some,
      BitVec.add_assoc, ← BitVec.ofNat_add, offset]
  exact congrArg (fun a => WordBytes.byte mapped.word (Option.getD a 0)) found

namespace Startable

variable (startable : k.Startable own m relocations r size)
include startable

/-- The memory with its pointers recorded, after anything that touches neither them nor the tables. -/
theorem recorded_of_same {physical last : Word → Byte}
    (recorded : Recorded m k.currentPaBase relocations r
      (Bytes.storeAll m (physicalStores r m k.currentPaBase (r.count m).toNat)) physical (r.count m).toNat)
    (same : ∀ x, x ∉ k.tableBytes → x ∉ own → last x = physical x) :
    Recorded m k.currentPaBase relocations r last last (r.count m).toNat ∧
      ∀ i < (r.count m).toNat, load64 last (r.target m k.currentPaBase (BitVec.ofNat 64 i)) =
        load64 (Bytes.storeAll m (physicalStores r m k.currentPaBase (r.count m).toNat))
          (r.target m k.currentPaBase (BitVec.ofNat 64 i)) := by
  have target : ∀ i < (r.count m).toNat, load64 last (r.target m k.currentPaBase (BitVec.ofNat 64 i)) =
      load64 (Bytes.storeAll m (physicalStores r m k.currentPaBase (r.count m).toNat))
        (r.target m k.currentPaBase (BitVec.ofNat 64 i)) := by
    intro i few
    apply load64_congr
    intro x inside
    have first := same x (fun table => (startable.tables x table).2.2.2 i few inside)
      fun variable_ => (startable.apart x variable_).2.2 i few inside
    exact first.trans (recorded.same x (Set.disjoint_left.mp (startable.rela.outside i few) inside))
  refine ⟨⟨fun x read => ?_, fun _ _ => rfl, fun i few => ?_⟩, target⟩
  · have first := same x (fun table => (startable.tables x table).2.2.1 read)
      fun variable_ => (startable.apart x variable_).2.1 read
    exact first.trans (recorded.agrees x read)
  · have kept : element relocations last i = element relocations physical i :=
      element_congr few fun x inside => same x (fun table => (startable.tables x table).2.1 inside)
        fun variable_ => (startable.apart x variable_).1 inside
    rw [kept, recorded.elements i few]
    cases Nat.lt_or_ge i (r.count m).toNat with
    | inl inside => rw [if_pos inside, if_pos inside, target i inside]
    | inr behind => rw [if_neg (Nat.not_lt.mpr behind), if_neg (Nat.not_lt.mpr behind)]

/-- Such an image starts, whatever is stored to the kernel's own variables and its stack on the way. -/
theorem starts (first second third : Meanwhile own) (ns realmFrames : KframeAlloc) (bitmapNs bitmap : Word → Byte) :
    ∃ m', Returns (fun fuel => k.startUp fuel relocations first second third ns realmFrames bitmapNs bitmap m) m' ∧
      k.Started own m relocations r m' := by
  obtain ⟨physical, ⟨enough, relocated⟩, recorded⟩ := startable.rela.relocateKernel_run startable.few
  have loaded : ∀ x, x ∉ storeTable relocations →
      (∀ i < (r.count m).toNat, x ∉ r.targetWord m k.currentPaBase i) → physical x = m x := fun x outside unhit =>
    (recorded.same x outside).trans (physicalStores_outside fun i few _ => unhit i few)
  have placed : k.Placed ⟨WordBytes.ofBytes (first.stores physical), id⟩ := by
    refine startable.placed.of_bytes fun x table => ?_
    obtain ⟨notOwn, notStore, _, notTarget⟩ := startable.tables x table
    exact (first.only physical x notOwn).trans (loaded x notStore notTarget)
  obtain ⟨initialised, ⟨enough', ran⟩, init, elsewhere⟩ := placed.kernelInit
  obtain ⟨before, isBefore⟩ : ∃ b, b = second.stores (WordBytes.byte initialised.word) := ⟨_, rfl⟩
  have same : ∀ x, x ∉ k.tableBytes → x ∉ own → before x = physical x := by
    intro x outside notOwn
    obtain ⟨upper, lower⟩ := elsewhere_of_byte startable.placed outside
    rw [isBefore, second.only _ x notOwn, WordBytes.byte_congr (elsewhere _ upper lower), WordBytes.byte_ofBytes,
      first.only physical x notOwn]
  obtain ⟨recorded', targets⟩ := startable.recorded_of_same recorded same
  have shifted := startable.rela.shiftToVa_run startable.few recorded'
  obtain ⟨last, isLast⟩ : ∃ b, b = third.stores (shiftToVa before relocations) := ⟨_, rfl⟩
  have same' : ∀ x, x ∉ own → (∀ i < (r.count m).toNat, x ∉ r.targetWord m k.currentPaBase i) → last x = before x := by
    intro x notOwn notTarget
    rw [isLast, third.only _ x notOwn, shifted, RelaImage.virtualStores_outside notTarget]
  have init' : k.Initialised ⟨WordBytes.ofBytes last, id⟩ := by
    refine init.of_bytes startable.placed fun x table => ?_
    obtain ⟨notOwn, _, _, notTarget⟩ := startable.tables x table
    rw [same' x notOwn notTarget, isBefore, second.only _ x notOwn]
  obtain ⟨booted, m', reserved, mapped, map, only⟩ := init'.kernelMain startable.placed ns realmFrames bitmapNs bitmap
  have final : ∀ x, x ∉ k.tableBytes → WordBytes.byte m'.word x = last x := fun x outside =>
    (WordBytes.byte_congr (only.word _ (elsewhere_of_byte startable.placed outside).1)).trans
      (WordBytes.byte_ofBytes last x)
  refine ⟨m', ⟨max enough enough', fun fuel more => ?_⟩, map, fun n near outside => ?_, fun i few handled inside => ?_⟩
  · have phase : relocateKernel fuel m k.currentPaBase relocations = some _ := relocated fuel (by omega)
    have tables : k.kernelInit fuel ⟨WordBytes.ofBytes (first.stores physical), id⟩ = some initialised :=
      ran fuel (by omega)
    show k.startUp fuel relocations first second third ns realmFrames bitmapNs bitmap m = some m'
    rw [startUp, phase, Option.bind_some, tables, Option.bind_some, reserved, Option.bind_some, ← isBefore]
    rw [isLast] at mapped
    exact mapped
  · have notTable : k.currentPaBase + BitVec.ofNat 64 n ∉ k.tableBytes := fun here => outside (Or.inl here)
    have notOwn : k.currentPaBase + BitVec.ofNat 64 n ∉ own := fun here => outside (Or.inr (Or.inl here))
    have notStore : k.currentPaBase + BitVec.ofNat 64 n ∉ storeTable relocations :=
      fun here => outside (Or.inr (Or.inr (Or.inl here)))
    have notTarget : ∀ i < (r.count m).toNat, k.currentPaBase + BitVec.ofNat 64 n ∉ r.targetWord m k.currentPaBase i :=
      fun i few here => outside (Or.inr (Or.inr (Or.inr ⟨i, few, here⟩)))
    rw [map.kernelByte startable.placed near, final _ notTable, same' _ notOwn notTarget, same _ notTable notOwn,
      loaded _ notStore notTarget]
  · obtain ⟨offset, isOffset⟩ : ∃ o, o = rOffset m (r.entry (BitVec.ofNat 64 i)) := ⟨_, rfl⟩
    have target : r.target m k.currentPaBase (BitVec.ofNat 64 i) = k.currentPaBase + offset :=
      congrArg (k.currentPaBase + ·) isOffset.symm
    have member {x : Word} (here : x ∈ Bytes.span (k.currentPaBase + offset) 8) :
        x ∉ k.tableBytes ∧ x ∉ own := by
      have here : x ∈ r.targetWord m k.currentPaBase i := by
        rw [RelaSection.targetWord, target]
        exact here
      exact ⟨fun table => (startable.tables x table).2.2.2 i few here, fun variable_ =>
        (startable.apart x variable_).2.2 i few here⟩
    rw [← isOffset] at inside ⊢
    have bytes : Bytes.bytesAt (k.mmuOn m').kernelByte (kernelVaBase + offset) 8 =
        Bytes.bytesAt last (k.currentPaBase + offset) 8 := by
      apply List.map_congr_left
      intro j short
      have short : j < 8 := List.mem_range.mp short
      have place (base : Word) : base + offset + BitVec.ofNat 64 j = base + BitVec.ofNat 64 (offset.toNat + j) := by
        rw [BitVec.ofNat_add, BitVec.ofNat_toNat, BitVec.setWidth_eq, BitVec.add_assoc]
      have outside := (member (Bytes.offset_mem (k.currentPaBase + offset) short (by decide))).1
      rw [place] at outside
      rw [place, place, map.kernelByte startable.placed (by omega), final _ outside]
    have shift : load64 last (k.currentPaBase + offset) =
        load64 (Bytes.storeAll before (virtualStores r m k.currentPaBase before (r.count m).toNat))
          (k.currentPaBase + offset) := by
      apply load64_congr
      intro x here
      rw [isLast, third.only _ x (member here).2, shifted]
    have value := startable.rela.virtual_word before before few
    rw [targets i few, startable.rela.physical_word few, if_pos handled, target] at value
    have whole : load64 (k.mmuOn m').kernelByte (kernelVaBase + offset) = load64 last (k.currentPaBase + offset) :=
      congrArg (fun bs => BitVec.ofNat 64 (Bytes.decode bs)) bytes
    rw [whole, shift, value]
    bv_omega

end Startable

end KernelImage

/- A byte behind the relocations, for the kernel's variables. -/
def tinyOwn : Set Word := Bytes.span 0x42010000 0x1000

def countUp : Meanwhile tinyOwn where
  stores m := Bytes.store m 0x42010000 [m 0x42010000 + 1]
  only _ _ outside := Bytes.store_outside fun member =>
    outside (Bytes.span_mono _ (by rw [List.length_singleton]; decide) member)

theorem linked_tables {x : Word} (member : x ∈ linkedImage.tableBytes) : 0x42100000 ≤ x.toNat := by
  have bounds : ∀ l, 0x42100000 ≤ (linkedImage.realm l).toNat ∧ 0x42100000 ≤ (linkedImage.lower l).toNat ∧
      (linkedImage.realm l).toNat + kernelPages l * 4096 ≤ 2 ^ 64 ∧
      (linkedImage.lower l).toNat + kernelPages l * 4096 ≤ 2 ^ 64 := by
    intro l
    cases l <;> decide
  obtain ⟨l, inside⟩ := member
  obtain ⟨upper, lower, fits, fits'⟩ := bounds l
  cases inside with
  | inl inside => exact Nat.le_trans upper (Bytes.span_between fits inside).1
  | inr inside => exact Nat.le_trans lower (Bytes.span_between fits' inside).1

theorem tinyImage_beyond {x : Word} (beyond : 0x42100000 ≤ x.toNat) : tinyImage false x = 0 := by
  refine Bytes.storeAll_outside fun s member inside => ?_
  have ends : s.1.toNat + s.2.length ≤ 0x42100000 := by
    clear inside
    revert s
    decide
  have below := (Bytes.span_between (by omega) inside).2
  omega

/-- The image with one relocation, placed as the linker places the kernel. -/
theorem tinyImage_startable : linkedImage.Startable tinyOwn (tinyImage false) 0x42008000 tinySection 0x10000 := by
  obtain ⟨reads, words⟩ := tinyImage_spans false
  have bare : linkedImage.Placed ⟨WordBytes.ofBytes fun _ => 0, id⟩ := linkedImage_placed
  have own {x : Word} (member : x ∈ tinyOwn) : 0x42010000 ≤ x.toNat ∧ x.toNat < 0x42011000 :=
    Bytes.span_between (by decide) member
  have store {x : Word} (member : x ∈ storeTable 0x42008000) : 0x42008000 ≤ x.toNat ∧ x.toNat < 0x42009100 :=
    Bytes.span_between (by decide) member
  have read {x : Word} (member : x ∈ tinySection.reads (tinyImage false)) : x.toNat < 0x42003000 :=
    Nat.lt_of_lt_of_le (Bytes.span_between (by decide) (reads member)).2 (by decide)
  have word {x : Word} {i : Nat} (few : i < (tinySection.count (tinyImage false)).toNat)
      (member : x ∈ tinySection.targetWord (tinyImage false) 0x42000000 i) : x.toNat < 0x42003008 :=
    Nat.lt_of_lt_of_le (Bytes.span_between (by decide) ((words i few).2 ▸ member)).2 (by decide)
  refine ⟨bare.of_bytes fun x table => tinyImage_beyond (linked_tables table), tinyImage_relaImage false, ?_,
    fun x table => ?_, fun x variable_ => ?_⟩
  · rw [(tinyImage_facts false).2.1]
    decide
  · have high := linked_tables table
    refine ⟨fun member => ?_, fun member => ?_, fun member => ?_, fun i few member => ?_⟩
    · have low := own member
      omega
    · have low := store member
      omega
    · have low := read member
      omega
    · have low := word few member
      omega
  · have here := own variable_
    refine ⟨fun member => ?_, fun member => ?_, fun i few member => ?_⟩
    · have low := store member
      omega
    · have low := read member
      omega
    · have low := word few member
      omega

/- The frames as the kernel's data has them at first. -/
def dataFrames : KframeAlloc := ⟨0, 0, fun _ => 0, 0, 0⟩

/-- The relocated word, read by the running kernel. -/
theorem starts_one_relocation : ∃ m',
    Returns (fun fuel => linkedImage.startUp fuel 0x42008000 countUp countUp countUp dataFrames dataFrames
      (fun _ => 0xFF) (fun _ => 0xFF) (tinyImage false)) m' ∧
      load64 (linkedImage.mmuOn m').kernelByte 0xFFFFF00000003000 = 0xFFFFF00000000045 := by
  obtain ⟨m', returns, started⟩ := tinyImage_startable.starts countUp countUp countUp dataFrames dataFrames
    (fun _ => 0xFF) fun _ => 0xFF
  obtain ⟨_, count, offset, _, handled⟩ := tinyImage_facts false
  have entry : rOffset (tinyImage false) (tinySection.entry (BitVec.ofNat 64 0)) = 0x3000 := offset
  have value : tinySection.addendValue (tinyImage false) (BitVec.ofNat 64 0) = 0x45 := by decide +kernel
  have pointer := started.pointers 0 (by rw [count]; decide) handled (by rw [entry]; decide)
  rw [entry, value] at pointer
  exact ⟨m', returns, pointer⟩

end RealmVm
