import RealmVm.Boot.HeapFrames
import RealmVm.Elf.LoadExecutable
import RealmVm.Vma.NormalMap
import RealmVm.Vma.UserTables

/-! The address map that the boot code leaves: `kernel_init` maps the image, `enable_mmap` the two heaps over it, and
`map_uart` the devices. -/
namespace RealmVm

open Lib Lib.Bits

/-- The layout with the end of the binary and the symbols of the two sets of tables, which are physical addresses. -/
structure KernelImage extends MemoryLayout where
  binaryEnd : Word
  realm : Level → Word
  lower : Level → Word

namespace KernelImage

variable (k : KernelImage)

/- `_Realm_PGD` and the others, with the pointers that `enable_mmap` sets. -/
def upperTables : TranslationTables where
  pgd := k.realm .pgd
  pud := k.realm .pud
  pmd := k.realm .pmd
  pt3 := k.realm .pt3
  startVa := kernelVaBase
  startPa := k.currentPaBase
  vaPgd := k.realm .pgd - k.currentPaBase + kernelVaBase
  vaPud := k.realm .pud - k.currentPaBase + kernelVaBase
  vaPmd := k.realm .pmd - k.currentPaBase + kernelVaBase
  vaPt3 := k.realm .pt3 - k.currentPaBase + kernelVaBase

/- `insecure_t`, whose pointers stay 0. -/
def lowerTables : TranslationTables where
  pgd := k.lower .pgd
  pud := k.lower .pud
  pmd := k.lower .pmd
  pt3 := k.lower .pt3
  startVa := k.currentPaBase
  startPa := k.currentPaBase
  vaPgd := 0
  vaPud := 0
  vaPmd := 0
  vaPt3 := 0

theorem upperTables_base (l : Level) : k.upperTables.base l = k.realm l := by cases l <;> rfl

theorem lowerTables_base (l : Level) : k.lowerTables.base l = k.lower l := by cases l <;> rfl

/- The kernel still runs at its physical addresses here. -/
def size : Word :=
  let currentPaBinaryEnd := pageUp (k.binaryEnd - k.binaryStart + k.currentPaBase)
  pageUp (currentPaBinaryEnd - k.currentPaBase)

def ramSharedSize : Word := pageUp (k.sharedNsEnd &&& ~~~0xFFF) - pageDown k.sharedNsStart

def kernelInit (fuel : Nat) (m : Memory) : Option Memory :=
  (normalMapKernel4KB fuel m k.upperTables k.size k.ramSharedSize).bind fun m =>
    normalMapKernel4KB fuel m k.lowerTables k.size k.ramSharedSize

/- What the kernel reaches at an address once the MMU is on. -/
def mmu (m : Memory) : Mmu := ⟨m.word, k.lowerTables.pgd, k.upperTables.pgd⟩

def mmuOn (m : Memory) : Memory := ⟨m.word, fun va => ((k.mmu m).translate va).getD 0⟩

end KernelImage

/- The loop over the pages of a heap, with `left` turns to go. -/
def mapHeap (t : TranslationTables) : Nat → Word → Word → Memory → Option Memory
  | 0, _, _, m => some m
  | left + 1, va, pa, m =>
    (pageTableMap m t va pa 0 0).bind fun mapped => mapHeap t left (va + pageSize4KB) (pa + pageSize4KB) mapped.2

def uartBase : Word := 0x9000000
def uartSyscallBase : Word := 0x9001000

def mapUart (t : TranslationTables) (sharedBit va : Word) (m : Memory) : Option Memory :=
  (pageTableMapDevice m t va (uartBase ||| sharedBit) 0).bind fun mapped =>
    (pageTableMapDevice mapped.2 t (va + 0x1000) (uartSyscallBase ||| sharedBit) 0).map Prod.snd

/- `KERNEL_VA_BASE + (512*1024*1024)` -/
def uartVa : Word := kernelVaBase + 512 * 1024 * 1024

namespace KernelImage

variable (k : KernelImage)

/- The mapping loops of `enable_mmap`, and `map_uart`. -/
def kernelMain (booted : Booted) (m : Memory) : Option Memory :=
  (mapHeap k.upperTables booted.sharedPages.toNat booted.sharedHeap.heapStart booted.sharedPa m).bind fun m =>
    (mapHeap k.upperTables booted.heapPages.toNat booted.heap.heapStart booted.heapPa m).bind fun m =>
      mapUart k.upperTables k.sharedBit uartVa m

/- From `kernel_init` to `map_uart`. The arguments are those of `enable_mmap` and the memory before. -/
def boot (fuel : Nat) (ns realmFrames : KframeAlloc) (bitmapNs bitmap : Word → Byte) (m : Memory) : Option Memory :=
  (k.kernelInit fuel m).bind fun m =>
    (enableMmap k.toMemoryLayout ns realmFrames bitmapNs bitmap).bind fun booted => k.kernelMain booted (k.mmuOn m)

/-- Where the linker puts things, before the MMU is on: the binary starts at a block and is short enough for one
gigabyte, with zeroed tables in front of its bitmaps. The heaps end in front of the devices, and the address bit of
shared memory is above RAM. -/
structure Placed (m : Memory) : Prop where
  block : k.currentPaBase.toNat % 2 ^ 21 = 0
  binary : k.bitmapNsStart ≤ k.binaryEnd
  short : k.currentPaBase.toNat % 2 ^ 30 + (k.binaryEnd - k.binaryStart).toNat ≤ 2 ^ 30 - 2 ^ 22
  upper : LaidOut m k.upperTables.physical kernelPages
  lower : LaidOut m k.lowerTables.physical kernelPages
  apart : ∀ l l', (k.realm l).toNat + kernelPages l * 4096 ≤ (k.lower l').toNat ∨
    (k.lower l').toNat + kernelPages l' * 4096 ≤ (k.realm l).toNat
  inside : ∀ l, k.currentPaBase.toNat ≤ (k.realm l).toNat ∧
    (k.realm l).toNat + kernelPages l * 4096 ≤ k.currentPaBase.toNat + (k.bitmapNsStart - k.binaryStart).toNat
  zeroUpper : ∀ l, ∀ i < kernelPages l * 512, entry m k.upperTables l i = 0
  zeroLower : ∀ l, ∀ i < kernelPages l * 512, entry m k.lowerTables l i = 0
  heaps : (k.sharedNsEnd - kernelVaBase).toNat + kernelHeapSize.toNat ≤ 2 ^ 29
  shared : ∃ n < 48, k.sharedBit.toNat = 2 ^ n ∧ k.currentPaBase.toNat + 2 ^ 30 ≤ 2 ^ n

end KernelImage

theorem TranslationTables.physical_base (t : TranslationTables) (l : Level) : t.physical.base l = t.base l := by
  cases l <;> rfl

section Image

variable {t : TranslationTables} {m : Memory} {blocks pages : Nat}

theorem entry_linkRoot (laid : LaidOut m t.physical kernelPages)
    (zero : ∀ l, ∀ i < kernelPages l * 512, entry m t l i = 0) {l : Level} {i : Nat} (inside : i < kernelPages l * 512)
    (first : l = .pgd → i ≠ l0Index t.startVa) (second : l = .pud → i ≠ l1Index t.startVa) :
    entry (linkRoot t m) t l i = 0 := by
  have i0 : l0Index t.startVa < kernelPages .pgd * 512 := (offset_lt t.startVa).1
  have i1 : l1Index t.startVa < kernelPages .pud * 512 := (offset_lt t.startVa).2
  have laid₁ : LaidOut (m.store (slot t.physical .pgd (l0Index t.startVa)) (linkEntry 0 t.pud)) t.physical
      kernelPages :=
    laid.of_pa rfl
  rw [linkRoot, entry_store_physical laid₁ i1 inside, if_neg fun same => second same.1 same.2,
    entry_store_physical laid i0 inside, if_neg fun same => first same.1 same.2]
  exact zero l i inside

theorem linkTurns_beyond (laid : LaidOut m t.physical kernelPages) (n : Nat) {b : Nat} (beyond : 512 ≤ b)
    (inside : b < kernelPages .pmd * 512) : entry (linkTurns t m n) t .pmd b = entry m t .pmd b := by
  induction n with
  | zero => rfl
  | succ n ih =>
    have low : (blockIndex t + n) % 512 < 512 := Nat.mod_lt _ (by decide)
    have place : (blockIndex t + n) % 512 < kernelPages .pmd * 512 := Nat.lt_of_lt_of_le low (by decide)
    rw [linkTurns, entry_store_physical (laid.of_pa (linkTurns_pa t m n)) place inside, if_neg (by omega)]
    exact ih

/-- The entries that neither loop writes are still 0. -/
theorem normalMap_unwritten (laid : LaidOut m t.physical kernelPages)
    (zero : ∀ l, ∀ i < kernelPages l * 512, entry m t l i = 0) (small : pages ≤ 2048 * 512) {l : Level} {i : Nat}
    (inside : i < kernelPages l * 512) (first : l = .pgd → i ≠ l0Index t.startVa)
    (second : l = .pud → i ≠ l1Index t.startVa) (third : l = .pmd → 512 ≤ i) (leaf : l ≠ .pt3) :
    entry (pageTurns t (linkTurns t (linkRoot t m) blocks) pages) t l i = 0 := by
  have laid₁ : LaidOut (linkRoot t m) t.physical kernelPages := laid.of_pa rfl
  rw [pageTurns_other (laid₁.of_pa (linkTurns_pa t (linkRoot t m) blocks)) small leaf inside]
  have root := entry_linkRoot laid zero inside first second
  cases decEq l .pmd with
  | isTrue same =>
    subst same
    rw [linkTurns_beyond laid₁ blocks (third rfl) inside, root]
  | isFalse other => rw [linkTurns_other laid₁ blocks other inside, root]

theorem normalMap_pa (t : TranslationTables) (m : Memory) (blocks pages : Nat) :
    (pageTurns t (linkTurns t (linkRoot t m) blocks) pages).pa = m.pa :=
  (pageTurns_pa t _ pages).trans (linkTurns_pa t (linkRoot t m) blocks)

/-- With other pointers to them the tables are where they were. -/
theorem LaidOut.of_physical {m' : Memory} (laid : LaidOut m t.physical kernelPages)
    (visible : ∀ l, ∀ i < kernelPages l * 512, m'.pa (slot t l i) = entryAddress (t.base l) (BitVec.ofNat 64 i)) :
    LaidOut m' t kernelPages := by
  have base := t.physical_base
  exact ⟨fun l => base l ▸ laid.aligned l, fun l => base l ▸ laid.bounded l,
    fun l l' other => base l ▸ base l' ▸ laid.apart l l' other, visible⟩

theorem elsewhere_physical {a : Word} (elsewhere : Elsewhere t kernelPages a) : Elsewhere t.physical kernelPages a := by
  intro l
  cases l <;> exact elsewhere _

/-- Words outside the tables stay. -/
theorem normalMap_elsewhere (laid : LaidOut m t.physical kernelPages) (small : pages ≤ 2048 * 512) {a : Word}
    (elsewhere : Elsewhere t.physical kernelPages a) :
    (pageTurns t (linkTurns t (linkRoot t m) blocks) pages).word a = m.word a := by
  have i0 : l0Index t.startVa < kernelPages .pgd * 512 := (offset_lt t.startVa).1
  have i1 : l1Index t.startVa < kernelPages .pud * 512 := (offset_lt t.startVa).2
  have laid₁ : LaidOut (m.store (slot t.physical .pgd (l0Index t.startVa)) (linkEntry 0 t.pud)) t.physical
      kernelPages :=
    laid.of_pa rfl
  have laid₂ : LaidOut (linkRoot t m) t.physical kernelPages := laid.of_pa rfl
  have laid₃ := laid₂.of_pa (linkTurns_pa t (linkRoot t m) blocks)
  have root : (linkRoot t m).word a = m.word a :=
    (laid₁.store_elsewhere i1 _ elsewhere).trans (laid.store_elsewhere i0 _ elsewhere)
  have links : (linkTurns t (linkRoot t m) blocks).word a = (linkRoot t m).word a := by
    induction blocks with
    | zero => rfl
    | succ n ih =>
      have place : (blockIndex t + n) % 512 < kernelPages .pmd * 512 :=
        Nat.lt_of_lt_of_le (Nat.mod_lt _ (by decide)) (by decide)
      have laid' := laid₂.of_pa (linkTurns_pa t (linkRoot t m) n)
      exact (laid'.store_elsewhere place _ elsewhere).trans (ih laid')
  refine Eq.trans ?_ (links.trans root)
  induction pages with
  | zero => rfl
  | succ n ih =>
    have place : n < kernelPages .pt3 * 512 := small
    have laid' := laid₃.of_pa (pageTurns_pa t (linkTurns t (linkRoot t m) blocks) n)
    exact (laid'.store_elsewhere place _ elsewhere).trans (ih (by omega))

/- The descriptors of `n` pages from page `first` on, whose frames lie in a row from `pa` on, over those of `f`. -/
def laidOver (f : Nat → Option Word) (first n : Nat) (pa : Word) : Nat → Option Word := fun p =>
  if first ≤ p ∧ p < first + n then some (leafEntry (pa + BitVec.ofNat 64 (4096 * (p - first))) 0 0) else f p

/-- What `normal_map_kernel_4KB` leaves are tables as `page_table_map` writes them, with links to spare. -/
theorem normalMapped_wired (laid : LaidOut m t.physical kernelPages)
    (zero : ∀ l, ∀ i < kernelPages l * 512, entry m t l i = 0) (start : t.startVa.toNat % 2 ^ 30 = 0)
    (few : blocks ≤ 512) (small : pages ≤ blocks * 512) :
    Linked (pageTurns t (linkTurns t (linkRoot t m) blocks) pages) t kernelPages ∧
      Translates (pageTurns t (linkTurns t (linkRoot t m) blocks) pages) t kernelPages
        (laidOver (fun _ => none) 0 pages t.startPa) := by
  have room : pages ≤ 2048 * 512 := Nat.le_trans small (Nat.mul_le_mul_right 512 (Nat.le_trans few (by decide)))
  have turns : blocks ≤ 1024 := by omega
  have mapped := normalMapped laid zero turns room
  have unwritten {l : Level} {i : Nat} := @normalMap_unwritten t m blocks pages laid zero room l i
  have nowhere {e table : Word} (none : e = 0) : LinksTo e table := by
    subst none
    intro valid
    cases valid
  have plain : PlainFlags 0 := by decide
  have index : blockIndex t = 0 := by
    unfold blockIndex
    omega
  have base := t.physical_base
  have bounded (l : Level) : (t.base l).toNat + kernelPages l * 4096 ≤ 2 ^ 48 := base l ▸ laid.bounded l
  have aligned (l : Level) : (t.base l).toNat % 4096 = 0 := base l ▸ laid.aligned l
  have table {l : Level} {n : Nat} (inside : n < kernelPages l) : LinksTo (linkEntry 0 (tableOf (t.base l) n))
      (tableOf (t.base l) n) := by
    have low := bounded l
    have whole := aligned l
    refine linksTo_linkEntry 0 ?_ ?_
    all_goals
      unfold tableOf pageSize4KB
      bv_omega
  have blocksOf {b : Nat} (inside : b < 512) : entry (pageTurns t (linkTurns t (linkRoot t m) blocks) pages) t .pmd b =
      if b < blocks then linkEntry 0 (tableOf t.pt3 b) else 0 := by
    have block := mapped.l2 b inside
    rw [index, Nat.zero_add, Nat.mod_eq_of_lt inside, if_neg (by omega)] at block
    exact block
  refine ⟨⟨fun i inside => ?_, fun g inside => ?_, fun b beyond inside => ?_⟩, ⟨fun b _ inside => ?_, ?_, ?_⟩⟩
  · cases decEq i (l0Index t.startVa) with
    | isTrue same =>
      rw [same, mapped.l0, ← tableOf_zero t.pud]
      exact table (l := .pud) (by decide)
    | isFalse other =>
      exact nowhere (unwritten (l := .pgd) inside (fun _ => other) (fun absurd => by cases absurd)
        (fun absurd => by cases absurd) (by decide))
  · have few : g < 32 := inside
    have place : (t.startVa.toNat / 2 ^ 30 + g) % 512 < kernelPages .pud * 512 := Nat.mod_lt _ (by decide)
    have first : l1Index t.startVa = t.startVa.toNat / 2 ^ 30 % 512 := toNat_field_eq _ _ _ (by decide)
    cases Nat.eq_zero_or_pos g with
    | inl same =>
      rw [same, Nat.add_zero, ← first, mapped.l1, tableOf_zero, ← tableOf_zero t.pmd]
      exact table (l := .pmd) (by decide)
    | inr other =>
      exact nowhere (unwritten (l := .pud) place (fun absurd => by cases absurd) (fun _ => by omega)
        (fun absurd => by cases absurd) (by decide))
  · rw [unwritten (l := .pmd) inside (fun absurd => by cases absurd) (fun absurd => by cases absurd) (fun _ => beyond)
      (by decide)]
    rfl
  · rw [blocksOf inside]
    split
    · exact table (l := .pt3) (Nat.lt_of_lt_of_le inside (by decide))
    · exact nowhere rfl
  · intro p inside _ d found
    have filled : p < pages := by
      by_contra behind
      rw [laidOver, if_neg (by omega)] at found
      cases found
    rw [laidOver, if_pos (by omega), Nat.sub_zero] at found
    obtain rfl := Option.some.inj found
    rw [mapped.l3 p inside, if_pos filled, blocksOf (by omega), if_pos (by omega), mapped.l1, mapped.l0]
    exact ⟨rfl, isValid_leafEntry _ plain _, isLink_leafEntry _ plain _, isValid_linkEntry _ _, isValid_linkEntry _ _,
      isValid_linkEntry _ _⟩
  · intro p inside _ missing
    have behind : ¬ p < pages := by
      intro filled
      rw [laidOver, if_pos (by omega)] at missing
      cases missing
    rw [mapped.l3 p inside, if_neg behind]
    rfl

theorem NormalMapped.of_entries {m' : Memory} (mapped : NormalMapped m t blocks pages)
    (same : ∀ l, ∀ i < kernelPages l * 512, entry m' t l i = entry m t l i) : NormalMapped m' t blocks pages where
  l0 := (same .pgd _ (offset_lt t.startVa).1).trans mapped.l0
  l1 := (same .pud _ (offset_lt t.startVa).2).trans mapped.l1
  l2 d inside := (same .pmd _ (Nat.lt_of_lt_of_le (Nat.mod_lt _ (by decide)) (by decide))).trans (mapped.l2 d inside)
  l3 j inside := (same .pt3 j inside).trans (mapped.l3 j inside)

theorem Linked.of_entries {m' : Memory} (linked : Linked m t kernelPages)
    (same : ∀ l, ∀ i < kernelPages l * 512, entry m' t l i = entry m t l i) : Linked m' t kernelPages where
  l0 i inside := same .pgd i inside ▸ linked.l0 i inside
  l1 g inside := same .pud _ (Nat.mod_lt _ (by decide)) ▸ linked.l1 g inside
  beyond b behind inside := same .pmd b inside ▸ linked.beyond b behind inside

theorem Translates.of_entries {m' : Memory} {f : Nat → Option Word}
    (translates : Translates m t kernelPages f)
    (same : ∀ l, ∀ i < kernelPages l * 512, entry m' t l i = entry m t l i) : Translates m' t kernelPages f where
  l2 b inside first :=
    same .pmd b (Nat.lt_of_lt_of_le first (by decide)) ▸ translates.l2 b inside first
  mapped p inside first d found := by
    have block : p / 512 < kernelPages .pmd * 512 := Nat.lt_of_lt_of_le (by omega : p / 512 < 512) (by decide)
    have l1 : entry m' t .pud (l1Index t.startVa) = entry m t .pud (l1Index t.startVa) :=
      same .pud _ (offset_lt t.startVa).2
    have l0 : entry m' t .pgd (l0Index t.startVa) = entry m t .pgd (l0Index t.startVa) :=
      same .pgd _ (offset_lt t.startVa).1
    rw [same .pt3 p inside, same .pmd _ block, l1, l0]
    exact translates.mapped p inside first d found
  unmapped p inside first missing := same .pt3 p inside ▸ translates.unmapped p inside first missing

end Image

section Loops

variable {t : TranslationTables} {m : Memory} {f : Nat → Option Word}

/-- Tables that hold the descriptors of `f` in their first gigabyte. -/
structure Tabled (m : Memory) (t : TranslationTables) (f : Nat → Option Word) : Prop where
  wired : Wired m t
  translates : Translates m t kernelPages f

/-- Only words of the tables differ. -/
structure TablesOnly (t : TranslationTables) (m m' : Memory) : Prop where
  pa : m'.pa = m.pa
  word : ∀ a, Elsewhere t kernelPages a → m'.word a = m.word a

theorem TablesOnly.trans {m₁ m₂ : Memory} (first : TablesOnly t m m₁) (second : TablesOnly t m₁ m₂) :
    TablesOnly t m m₂ :=
  ⟨second.pa.trans first.pa, fun a elsewhere => (second.word a elsewhere).trans (first.word a elsewhere)⟩

theorem Tabled.map (tabled : Tabled m t f) (start : t.startVa.toNat % 2 ^ 30 = 0) (va pa : Word) {flags : CInt}
    (isDev : CInt) (plain : PlainFlags flags) (first : distance t va < 2 ^ 30) :
    ∃ m', pageTableMap m t va pa flags isDev = some (0, m') ∧
      Tabled m' t (Function.update f (distance t va / 4096) (some (leafEntry pa flags isDev))) ∧ TablesOnly t m m' := by
  obtain ⟨⟨laid, linked⟩, translates⟩ := tabled
  have near : distance t va < kernelPages .pt3 * 2 ^ 21 := Nat.lt_trans first (by decide)
  have mapped := mapEntries_spec laid capacity_kernelPages va pa flags isDev near
  refine ⟨_, pageTableMap_eq m start va pa flags isDev (Nat.lt_trans first (by decide)),
    ⟨⟨laid.of_pa mapped.pa_eq, linked.step laid capacity_kernelPages start near mapped⟩, ?_⟩, mapped.pa_eq,
    fun a elsewhere => mapEntries_elsewhere laid capacity_kernelPages near elsewhere⟩
  exact translates.step laid capacity_kernelPages start plain first mapped

theorem laidOver_zero (f : Nat → Option Word) (first : Nat) (pa : Word) : laidOver f first 0 pa = f := by
  funext p
  exact if_neg (by omega)

theorem laidOver_succ (f : Nat → Option Word) (first n : Nat) (pa : Word) :
    laidOver (Function.update f first (some (leafEntry pa 0 0))) (first + 1) n (pa + pageSize4KB) =
      laidOver f first (n + 1) pa := by
  have next (j : Nat) : pa + pageSize4KB + BitVec.ofNat 64 (4096 * j) = pa + BitVec.ofNat 64 (4096 * (j + 1)) := by
    have step : pageSize4KB = BitVec.ofNat 64 4096 := rfl
    rw [step, BitVec.add_assoc, ← BitVec.ofNat_add, Nat.mul_succ, Nat.add_comm]
  funext p
  unfold laidOver
  rcases Nat.lt_trichotomy p first with before | rfl | behind
  · rw [if_neg (by omega), if_neg (by omega), Function.update_of_ne (by omega)]
  · rw [if_neg (by omega), if_pos (by omega), Function.update_self, Nat.sub_self]
    exact congrArg (fun x => some (leafEntry x 0 0)) (BitVec.add_zero pa).symm
  · by_cases inside : p < first + (n + 1)
    · have place : p - (first + 1) + 1 = p - first := by omega
      rw [if_pos (by omega), if_pos (by omega), next, place]
    · rw [if_neg (by omega), if_neg (by omega), Function.update_of_ne (by omega)]

/-- The loop maps its pages one after the other, whatever was mapped there before. -/
theorem mapHeap_spec (start : t.startVa.toNat % 2 ^ 30 = 0) (n : Nat) (va pa : Word) (tabled : Tabled m t f)
    (page : distance t va % 4096 = 0) (inside : distance t va + 4096 * n ≤ 2 ^ 30) :
    ∃ m', mapHeap t n va pa m = some m' ∧ Tabled m' t (laidOver f (distance t va / 4096) n pa) ∧
      TablesOnly t m m' := by
  induction n generalizing va pa m f with
  | zero =>
    rw [laidOver_zero]
    exact ⟨m, rfl, tabled, rfl, fun _ _ => rfl⟩
  | succ n ih =>
    obtain ⟨m₁, ran, tabled₁, only₁⟩ := tabled.map start va pa 0 (by decide : PlainFlags 0) (by omega)
    have next : distance t (va + pageSize4KB) = distance t va + 4096 ∨ n = 0 := by
      unfold distance pageSize4KB at *
      bv_omega
    cases next with
    | inr last =>
      subst last
      rw [← laidOver_succ, laidOver_zero]
      exact ⟨m₁, by rw [mapHeap, ran, Option.bind_some]; rfl, tabled₁, only₁⟩
    | inl next =>
      obtain ⟨m₂, later, tabled₂, only₂⟩ := ih (va + pageSize4KB) (pa + pageSize4KB) tabled₁ (by omega) (by omega)
      have place : distance t (va + pageSize4KB) / 4096 = distance t va / 4096 + 1 := by omega
      rw [place, laidOver_succ] at tabled₂
      exact ⟨m₂, by rw [mapHeap, ran, Option.bind_some]; exact later, tabled₂, only₁.trans only₂⟩

/-- The two pages of the devices. -/
theorem mapUart_spec (start : t.startVa.toNat % 2 ^ 30 = 0) (sharedBit va : Word) (tabled : Tabled m t f)
    (page : distance t va % 4096 = 0) (inside : distance t va + 2 * 4096 ≤ 2 ^ 30) :
    ∃ m', mapUart t sharedBit va m = some m' ∧
      Tabled m' t (Function.update (Function.update f (distance t va / 4096)
        (some (leafEntry (uartBase ||| sharedBit) (Wrapper.device.flags 0) 1))) (distance t va / 4096 + 1)
        (some (leafEntry (uartSyscallBase ||| sharedBit) (Wrapper.device.flags 0) 1))) ∧ TablesOnly t m m' := by
  have next : distance t (va + 0x1000) = distance t va + 4096 := by
    unfold distance at *
    bv_omega
  obtain ⟨m₁, ran₁, tabled₁, only₁⟩ := tabled.map start va (uartBase ||| sharedBit) 1 (Wrapper.plain .device 0)
    (by omega)
  obtain ⟨m₂, ran₂, tabled₂, only₂⟩ :=
    tabled₁.map start (va + 0x1000) (uartSyscallBase ||| sharedBit) 1 (Wrapper.plain .device 0) (by omega)
  have place : distance t (va + 0x1000) / 4096 = distance t va / 4096 + 1 := by omega
  rw [place] at tabled₂
  refine ⟨m₂, ?_, tabled₂, only₁.trans only₂⟩
  have first : pageTableMapDevice m t va (uartBase ||| sharedBit) 0 = some (0, m₁) := ran₁
  have second : pageTableMapDevice m₁ t (va + 0x1000) (uartSyscallBase ||| sharedBit) 0 = some (0, m₂) := ran₂
  rw [mapUart, first, Option.bind_some, second]
  rfl

end Loops

/- A page of the kernel's gigabyte. -/
structure BootPage where
  pa : Word
  flags : CInt
  isDev : CInt

def BootPage.leaf (x : BootPage) : Word := leafEntry x.pa x.flags x.isDev

namespace KernelImage

variable (k : KernelImage)

/-- RAM in order, from the address on that the kernel was loaded at: the image and the private heap as they are, the
shared heap at its shared addresses; and the two devices. -/
def page (p : Nat) : Option BootPage :=
  let heap := (k.sharedNsEnd - kernelVaBase).toNat / 4096
  let shared := (k.sharedNsStart - kernelVaBase).toNat / 4096
  let ram := k.currentPaBase + BitVec.ofNat 64 (4096 * p)
  if p = 0x20001 then some ⟨uartSyscallBase ||| k.sharedBit, Wrapper.device.flags 0, 1⟩
  else if p = 0x20000 then some ⟨uartBase ||| k.sharedBit, Wrapper.device.flags 0, 1⟩
  else if shared ≤ p ∧ p < shared + k.sharedPages.toNat then some ⟨ram + k.sharedBit, 0, 0⟩
  else if p < k.size.toNat / 4096 ∨ heap ≤ p ∧ p < heap + MemoryLayout.heapPages.toNat then some ⟨ram, 0, 0⟩
  else none

/-- The address space at the end: the upper half as `page` says, the image at its physical addresses in the lower half,
and the kernel's pointers on the tables. -/
structure AddressMap (m : Memory) : Prop where
  leaf : ∀ va, distance k.upperTables va < 2 ^ 30 → walkLeaf m.word k.upperTables.pgd va =
    (k.page (distance k.upperTables va / 4096)).map fun x => ⟨x.leaf, 12⟩
  address : ∀ va, distance k.upperTables va < 2 ^ 30 → walk m.word k.upperTables.pgd va =
    (k.page (distance k.upperTables va / 4096)).map fun x => x.pa + BitVec.ofNat 64 (va.toNat % 4096)
  lower : LinearMap m k.lowerTables k.size
  pointers : ∀ l, ∀ i < kernelPages l * 512, (k.mmu m).translate (slot k.upperTables l i) =
    some (entryAddress (k.upperTables.base l) (BitVec.ofNat 64 i))

variable {k : KernelImage} {m : Memory}

@[simp] theorem distance_upper (va : Word) : distance k.upperTables va = (va - kernelVaBase).toNat := rfl

/-- The size in whole pages. -/
theorem Placed.size_toNat (placed : k.Placed m) :
    k.size.toNat % 4096 = 0 ∧ (k.bitmapNsStart - k.binaryStart).toNat ≤ k.size.toNat ∧ 0 < k.size.toNat ∧
      k.currentPaBase.toNat % 2 ^ 30 + k.size.toNat ≤ 2 ^ 30 - 2 ^ 22 := by
  obtain ⟨_, start, _, _, _, _, _, _, _, _, ram, _⟩ := k.bounds
  obtain ⟨_, _, _, _, _, _, _, page, _⟩ := k.aligned
  have block := placed.block
  have binary := placed.binary
  have short := placed.short
  have behind : (k.bitmapNsStart - k.binaryStart).toNat ≤ (k.binaryEnd - k.binaryStart).toNat ∧
      0 < (k.binaryEnd - k.binaryStart).toNat := by
    rw [start] at *
    bv_omega
  have sum : (k.binaryEnd - k.binaryStart + k.currentPaBase).toNat =
      (k.binaryEnd - k.binaryStart).toNat + k.currentPaBase.toNat := by
    rw [BitVec.toNat_add]
    omega
  have up := pageUp_toNat (k.binaryEnd - k.binaryStart + k.currentPaBase) (by omega)
  have whole : (pageUp (k.binaryEnd - k.binaryStart + k.currentPaBase) - k.currentPaBase).toNat =
      ((k.binaryEnd - k.binaryStart).toNat + 4095) / 4096 * 4096 := by
    rw [sum] at up
    bv_omega
  have size : k.size.toNat = ((k.binaryEnd - k.binaryStart).toNat + 4095) / 4096 * 4096 := by
    have again := pageUp_toNat (pageUp (k.binaryEnd - k.binaryStart + k.currentPaBase) - k.currentPaBase) (by omega)
    rw [whole] at again
    exact again.trans (by omega)
  omega

theorem Placed.upperRange (placed : k.Placed m) : NormalRange k.upperTables k.size := by
  obtain ⟨whole, _, positive, short⟩ := placed.size_toNat
  obtain ⟨_, _, _, _, _, _, _, page, _⟩ := k.aligned
  have start : k.upperTables.startVa.toNat = 0xFFFFF00000000000 := rfl
  have base : k.upperTables.startPa = k.currentPaBase := rfl
  exact ⟨by omega, base ▸ page, whole, positive, by rw [start]; omega⟩

theorem Placed.lowerRange (placed : k.Placed m) : NormalRange k.lowerTables k.size := by
  obtain ⟨whole, _, positive, short⟩ := placed.size_toNat
  obtain ⟨_, _, _, _, _, _, _, page, _⟩ := k.aligned
  refine ⟨placed.block, page, whole, positive, ?_⟩
  show k.currentPaBase.toNat % 2 ^ 30 + k.size.toNat ≤ 2 ^ 30
  omega

theorem Placed.blocks (placed : k.Placed m) : blockCount k.size + 2 ≤ 512 := by
  obtain ⟨_, _, _, short⟩ := placed.size_toNat
  unfold blockCount
  omega

theorem Placed.physical (placed : k.Placed m) : k.currentPaBase.toNat + k.size.toNat ≤ 2 ^ 48 := by
  obtain ⟨_, _, _, short⟩ := placed.size_toNat
  obtain ⟨_, _, _, _, _, _, _, _, _, _, ram, _⟩ := k.bounds
  omega

theorem base_upper {word : Word → Word} {ttbr0 pgd va : Word} (aligned : pgd.toNat % 4096 = 0)
    (bounded : pgd.toNat < 2 ^ 48) (upper : 0xFFFF000000000000 ≤ va.toNat) :
    Mmu.base ⟨word, ttbr0, pgd⟩ va = some pgd := by
  have half : va >>> 48 = 0xFFFF := by
    have small := va.isLt
    apply BitVec.eq_of_toNat_eq
    rw [BitVec.toNat_ushiftRight, Nat.shiftRight_eq_div_pow]
    show va.toNat / 2 ^ 48 = 0xFFFF
    omega
  have apart : va >>> 48 ≠ 0 := by
    rw [half]
    decide
  rw [Mmu.base, if_neg apart, if_pos half]
  exact congrArg some (field_shiftLeft _ _ _ (by decide) aligned bounded)

/-- No entry of the one set of tables is in the other. -/
theorem Placed.elsewhere (placed : k.Placed m) (l : Level) {i : Nat} (inside : i < kernelPages l * 512) :
    Elsewhere k.upperTables kernelPages (entryAddress (k.lower l) (BitVec.ofNat 64 i)) ∧
      Elsewhere k.lowerTables kernelPages (entryAddress (k.realm l) (BitVec.ofNat 64 i)) := by
  have place (l' : Level) {j : Nat} (near : j < kernelPages l' * 512) :
      (entryAddress (k.realm l') (BitVec.ofNat 64 j)).toNat = (k.realm l').toNat + 8 * j ∧
        (entryAddress (k.lower l') (BitVec.ofNat 64 j)).toNat = (k.lower l').toNat + 8 * j := by
    have upper := placed.upper.entryAddress_toNat near
    have lower := placed.lower.entryAddress_toNat near
    cases l' <;> exact ⟨upper, lower⟩
  constructor
  · intro l' j near same
    have apart := placed.apart l' l
    have first := place l inside
    have second := place l' near
    have equal : (entryAddress (k.lower l) (BitVec.ofNat 64 i)).toNat =
        (entryAddress (k.realm l') (BitVec.ofNat 64 j)).toNat := by
      rw [same]
      cases l' <;> rfl
    omega
  · intro l' j near same
    have apart := placed.apart l l'
    have first := place l inside
    have second := place l' near
    have equal : (entryAddress (k.realm l) (BitVec.ofNat 64 i)).toNat =
        (entryAddress (k.lower l') (BitVec.ofNat 64 j)).toNat := by
      rw [same]
      cases l' <;> rfl
    omega

/- What `kernel_init` leaves in the tables. -/
structure Initialised (m' : Memory) : Prop where
  upper : NormalMapped m' k.upperTables (blockCount k.size + 2) (k.size.toNat / 4096)
  linked : Linked m' k.upperTables kernelPages
  translates : Translates m' k.upperTables kernelPages
    (laidOver (fun _ => none) 0 (k.size.toNat / 4096) k.currentPaBase)
  lower : NormalMapped m' k.lowerTables (blockCount k.size + 2) (k.size.toNat / 4096)

theorem Initialised.of_entries {m' m'' : Memory} (init : k.Initialised m')
    (upper : ∀ l, ∀ i < kernelPages l * 512, entry m'' k.upperTables l i = entry m' k.upperTables l i)
    (lower : ∀ l, ∀ i < kernelPages l * 512, entry m'' k.lowerTables l i = entry m' k.lowerTables l i) :
    k.Initialised m'' :=
  ⟨init.upper.of_entries upper, init.linked.of_entries upper, init.translates.of_entries upper,
    init.lower.of_entries lower⟩

/-- `kernel_init` returns with both halves mapped, each through its own tables, and stores nowhere else. -/
theorem Placed.kernelInit (placed : k.Placed m) : ∃ m', Returns (fun fuel => k.kernelInit fuel m) m' ∧
    k.Initialised m' ∧ ∀ a, Elsewhere k.upperTables kernelPages a → Elsewhere k.lowerTables kernelPages a →
      m'.word a = m.word a := by
  have blocks := placed.blocks
  obtain ⟨_, _, _, short⟩ := placed.size_toNat
  have turns : blockCount k.size + 2 ≤ 1024 := by omega
  have filled : k.size.toNat / 4096 ≤ (blockCount k.size + 2) * 512 := by
    have enough : k.size.toNat / 4096 ≤ blockCount k.size * 512 := by
      unfold blockCount
      omega
    exact Nat.le_trans enough (Nat.mul_le_mul_right 512 (Nat.le_add_right _ _))
  have few : k.size.toNat / 4096 ≤ 0x100000 := by omega
  have pages : k.size.toNat / 4096 ≤ 2048 * 512 := few
  obtain ⟨m₁, first⟩ : ∃ m₁, m₁ = pageTurns k.upperTables (linkTurns k.upperTables (linkRoot k.upperTables m)
    (blockCount k.size + 2)) (k.size.toNat / 4096) := ⟨_, rfl⟩
  obtain ⟨m₂, second⟩ : ∃ m₂, m₂ = pageTurns k.lowerTables (linkTurns k.lowerTables (linkRoot k.lowerTables m₁)
    (blockCount k.size + 2)) (k.size.toNat / 4096) := ⟨_, rfl⟩
  have pa₁ : m₁.pa = m.pa := first ▸ normalMap_pa _ _ _ _
  have lower₁ : LaidOut m₁ k.lowerTables.physical kernelPages := placed.lower.of_pa pa₁
  -- neither call touches the tables of the other
  have zero₁ : ∀ l, ∀ i < kernelPages l * 512, entry m₁ k.lowerTables l i = 0 := by
    intro l i inside
    have apart := (placed.elsewhere l inside).1
    have same := first ▸ normalMap_elsewhere placed.upper pages (elsewhere_physical apart)
    have zero := placed.zeroLower l i inside
    unfold entry at zero ⊢
    rw [k.lowerTables_base] at zero ⊢
    exact same.trans zero
  have kept : ∀ l, ∀ i < kernelPages l * 512, entry m₂ k.upperTables l i = entry m₁ k.upperTables l i := by
    intro l i inside
    have apart := (placed.elsewhere l inside).2
    have same := second ▸ normalMap_elsewhere lower₁ pages (elsewhere_physical apart)
    unfold entry
    rw [k.upperTables_base]
    exact same
  have mapped := normalMapped placed.upper placed.zeroUpper turns pages
  have start : kernelVaBase.toNat % 2 ^ 30 = 0 := by decide
  obtain ⟨linked, translates⟩ := normalMapped_wired placed.upper placed.zeroUpper start blocks filled
  rw [← first] at mapped linked translates
  refine ⟨m₂, ⟨blockCount k.size + 1, fun fuel enough => ?_⟩, ⟨mapped.of_entries kept, linked.of_entries kept,
    translates.of_entries kept, second ▸ normalMapped lower₁ zero₁ turns pages⟩, fun a above below => ?_⟩
  · have upper := first ▸ normalMapKernel4KB_eq placed.upperRange k.ramSharedSize enough
    have lower := second ▸ normalMapKernel4KB_eq placed.lowerRange k.ramSharedSize enough
    exact (congrArg (Option.bind · _) upper).trans lower
  · have one := first ▸ normalMap_elsewhere placed.upper pages (elsewhere_physical above)
    have two := second ▸ normalMap_elsewhere lower₁ pages (elsewhere_physical below)
    exact two.trans one

/-- The kernel's pointers are as far from its base as the tables are from the start of the binary. -/
theorem Placed.pointer (placed : k.Placed m) (l : Level) {i : Nat} (inside : i < kernelPages l * 512) :
    ∃ n < (k.bitmapNsStart - k.binaryStart).toNat, slot k.upperTables l i = kernelVaBase + BitVec.ofNat 64 n ∧
      entryAddress (k.upperTables.base l) (BitVec.ofNat 64 i) = k.currentPaBase + BitVec.ofNat 64 n := by
  obtain ⟨low, high⟩ := placed.inside l
  have pointer : k.upperTables.vaBase l = k.realm l - k.currentPaBase + kernelVaBase := by cases l <;> rfl
  refine ⟨(k.realm l).toNat - k.currentPaBase.toNat + 8 * i, by omega, ?_, ?_⟩
  · rw [slot, pointer]
    unfold entryAddress kernelVaBase
    bv_omega
  · rw [k.upperTables_base]
    unfold entryAddress
    bv_omega

theorem translate_upper (placed : k.Placed m) {m' : Memory} {va : Word} (upper : kernelVaBase.toNat ≤ va.toNat) :
    (k.mmu m').translate va = walk m'.word k.upperTables.pgd va := by
  have aligned := placed.upper.aligned .pgd
  have bounded : (k.realm .pgd).toNat + 1 * 4096 ≤ 2 ^ 48 := placed.upper.bounded .pgd
  have root : Mmu.base (k.mmu m') va = some k.upperTables.pgd :=
    base_upper aligned (by show (k.realm .pgd).toNat < 2 ^ 48; omega) (Nat.le_trans (by decide) upper)
  rw [Mmu.translate, root]
  rfl

theorem Placed.pointer_upper (placed : k.Placed m) {n : Nat} (inside : n < (k.bitmapNsStart - k.binaryStart).toNat) :
    (kernelVaBase + BitVec.ofNat 64 n).toNat = kernelVaBase.toNat + n ∧ n < 2 ^ 30 := by
  have size := placed.size_toNat
  have origin : kernelVaBase.toNat = 0xFFFFF00000000000 := rfl
  bv_omega

/-- With the MMU on the kernel sees its tables at its pointers. -/
theorem Initialised.visible {m' : Memory} (placed : k.Placed m) (init : k.Initialised m') :
    LaidOut (k.mmuOn m') k.upperTables kernelPages := by
  have laid : LaidOut ⟨m'.word, m.pa⟩ k.upperTables.physical kernelPages := placed.upper.of_pa rfl
  have same : NormalMapped ⟨m'.word, m.pa⟩ k.upperTables (blockCount k.size + 2) (k.size.toNat / 4096) :=
    init.upper.of_entries fun _ _ _ => rfl
  have linear := same.linear laid placed.upperRange placed.blocks placed.physical
  refine placed.upper.of_physical fun l i inside => ?_
  obtain ⟨n, near, pointer, address⟩ := placed.pointer l inside
  obtain ⟨place, _⟩ := placed.pointer_upper near
  have found := linear.inside n (Nat.lt_of_lt_of_le near placed.size_toNat.2.1)
  have same : (k.mmu m').translate (slot k.upperTables l i) = some (k.currentPaBase + BitVec.ofNat 64 n) := by
    rw [pointer, translate_upper placed (by omega)]
    exact found
  have pa : (k.mmuOn m').pa (slot k.upperTables l i) = ((k.mmu m').translate (slot k.upperTables l i)).getD 0 := rfl
  rw [address]
  exact pa.trans (congrArg (Option.getD · 0) same)

/-- The shared addresses are above RAM. -/
theorem Placed.sharedAddress (placed : k.Placed m) {a : Word} (low : a.toNat < k.currentPaBase.toNat + 2 ^ 30) :
    a ||| k.sharedBit = a + k.sharedBit ∧ (a + k.sharedBit).toNat = a.toNat + k.sharedBit.toNat ∧
      (a + k.sharedBit).toNat < 2 ^ 48 := by
  obtain ⟨n, few, bit, above⟩ := placed.shared
  have half : (2 : Nat) ^ n ≤ 2 ^ 47 := Nat.pow_le_pow_right (by decide) (Nat.le_of_lt_succ few)
  have below : a.toNat < 2 ^ n := Nat.lt_of_lt_of_le low above
  have whole : k.sharedBit.toNat % 2 ^ n = 0 := by rw [bit, Nat.mod_self]
  have joined := toNat_or_low k.sharedBit a n whole below
  rw [← bit] at half below
  have sum : (a + k.sharedBit).toNat = a.toNat + k.sharedBit.toNat := by
    rw [BitVec.toNat_add]
    omega
  refine ⟨?_, sum, by omega⟩
  apply BitVec.eq_of_toNat_eq
  rw [BitVec.or_comm, joined, sum, Nat.add_comm]

theorem page_devices : k.page 0x20001 = some ⟨uartSyscallBase ||| k.sharedBit, Wrapper.device.flags 0, 1⟩ ∧
    k.page 0x20000 = some ⟨uartBase ||| k.sharedBit, Wrapper.device.flags 0, 1⟩ := by
  have apart : (0x20000 : Nat) ≠ 0x20001 := by decide
  unfold page
  exact ⟨if_pos rfl, (if_neg apart).trans (if_pos rfl)⟩

theorem offset_page (d : Word) {p : Nat} (aligned : d.toNat % 4096 = 0) (behind : d.toNat / 4096 ≤ p) :
    d + BitVec.ofNat 64 (4096 * (p - d.toNat / 4096)) = BitVec.ofNat 64 (4096 * p) := by
  apply BitVec.eq_of_toNat_eq
  rw [BitVec.toNat_add, BitVec.toNat_ofNat, BitVec.toNat_ofNat]
  omega

/-- What the loops leave is the map of `page`. -/
theorem Placed.page_eq (placed : k.Placed m) {p : Nat} (small : p < 2 ^ 18) :
    Function.update (Function.update (laidOver (laidOver (laidOver (fun _ => none) 0 (k.size.toNat / 4096)
      k.currentPaBase) ((k.sharedNsStart - kernelVaBase).toNat / 4096) k.sharedPages.toNat k.sharedPa)
      ((k.sharedNsEnd - kernelVaBase).toNat / 4096) MemoryLayout.heapPages.toNat k.heapPa) 0x20000
      (some (leafEntry (uartBase ||| k.sharedBit) (Wrapper.device.flags 0) 1))) (0x20000 + 1)
      (some (leafEntry (uartSyscallBase ||| k.sharedBit) (Wrapper.device.flags 0) 1)) p =
        (k.page p).map BootPage.leaf := by
  obtain ⟨_, start, _, _, _, _, _, order, _, _, ram, _⟩ := k.bounds
  obtain ⟨_, _, _, _, alignedS, alignedE, _, _, _⟩ := k.aligned
  have origin : kernelVaBase.toNat = 0xFFFFF00000000000 := rfl
  have heaps := placed.heaps
  have half := k.sharedPages_toNat
  have room : (k.sharedNsEnd - kernelVaBase).toNat = k.sharedNsEnd.toNat - kernelVaBase.toNat ∧
      (k.sharedNsStart - kernelVaBase).toNat = k.sharedNsStart.toNat - kernelVaBase.toNat := by
    bv_omega
  have wholeS : (k.sharedNsStart - kernelVaBase).toNat % 4096 = 0 := by omega
  have wholeE : (k.sharedNsEnd - kernelVaBase).toNat % 4096 = 0 := by omega
  have shared : k.sharedPa = k.sharedNsStart - kernelVaBase + k.currentPaBase + k.sharedBit :=
    (placed.sharedAddress (by rw [BitVec.toNat_add]; omega)).1
  cases decEq p 0x20001 with
  | isTrue here =>
    rw [here, page_devices.1]
    exact Function.update_self ..
  | isFalse notSyscall =>
    rw [Function.update_of_ne notSyscall]
    cases decEq p 0x20000 with
    | isTrue here =>
      rw [here, page_devices.2]
      exact Function.update_self ..
    | isFalse notUart =>
      rw [Function.update_of_ne notUart]
      unfold page laidOver
      simp only [if_neg notSyscall, if_neg notUart]
      by_cases inShared : (k.sharedNsStart - kernelVaBase).toNat / 4096 ≤ p ∧
          p < (k.sharedNsStart - kernelVaBase).toNat / 4096 + k.sharedPages.toNat
      · have address : k.sharedPa + BitVec.ofNat 64 (4096 * (p - (k.sharedNsStart - kernelVaBase).toNat / 4096)) =
            k.currentPaBase + BitVec.ofNat 64 (4096 * p) + k.sharedBit := by
          rw [shared, ← offset_page _ wholeS inShared.1]
          ac_rfl
        rw [if_neg (by omega), if_pos inShared, if_pos inShared, address]
        rfl
      · rw [if_neg inShared]
        by_cases inHeap : (k.sharedNsEnd - kernelVaBase).toNat / 4096 ≤ p ∧
            p < (k.sharedNsEnd - kernelVaBase).toNat / 4096 + MemoryLayout.heapPages.toNat
        · have address : k.heapPa + BitVec.ofNat 64 (4096 * (p - (k.sharedNsEnd - kernelVaBase).toNat / 4096)) =
              k.currentPaBase + BitVec.ofNat 64 (4096 * p) := by
            rw [MemoryLayout.heapPa, ← offset_page _ wholeE inHeap.1]
            ac_rfl
          rw [if_pos inHeap, if_neg inShared, if_pos (Or.inr inHeap), address]
          rfl
        · rw [if_neg inHeap, if_neg inShared]
          by_cases inImage : p < k.size.toNat / 4096
          · rw [if_pos (by omega), if_pos (Or.inl inImage)]
            rfl
          · rw [if_neg (by omega), if_neg (not_or.mpr ⟨inImage, inHeap⟩)]
            rfl

/-- Descriptors can hold all of these addresses. -/
theorem Placed.page_proper (placed : k.Placed m) {p : Nat} (small : p < 2 ^ 18) {x : BootPage}
    (found : k.page p = some x) : x.pa.toNat % 4096 = 0 ∧ x.pa.toNat < 2 ^ 48 ∧ PlainFlags x.flags := by
  obtain ⟨_, _, _, _, _, _, _, _, _, _, ram, _⟩ := k.bounds
  obtain ⟨_, _, _, _, _, _, _, alignedP, alignedB⟩ := k.aligned
  obtain ⟨n, few, bit, above⟩ := placed.shared
  have plain : PlainFlags 0 := by decide
  have place : (k.currentPaBase + BitVec.ofNat 64 (4096 * p)).toNat = k.currentPaBase.toNat + 4096 * p := by
    rw [BitVec.toNat_add, BitVec.toNat_ofNat]
    omega
  have aligned : (k.currentPaBase + BitVec.ofNat 64 (4096 * p)).toNat % 4096 = 0 := by omega
  have below : (k.currentPaBase + BitVec.ofNat 64 (4096 * p)).toNat < 2 ^ 48 := by omega
  have high : 2 ^ 30 ≤ k.sharedBit.toNat := bit ▸ Nat.le_trans (Nat.le_add_left _ _) above
  have device {a : Word} (aligned : a.toNat % 4096 = 0) (low : a.toNat < 2 ^ 30) :
      (a ||| k.sharedBit).toNat % 4096 = 0 ∧ (a ||| k.sharedBit).toNat < 2 ^ 48 := by
    obtain ⟨same, sum, below⟩ := placed.sharedAddress (a := a) (by omega)
    rw [same]
    exact ⟨by omega, below⟩
  unfold page at found
  split at found
  · obtain rfl := Option.some.inj found
    obtain ⟨aligned, below⟩ := device (a := uartSyscallBase) (by decide) (by decide)
    exact ⟨aligned, below, Wrapper.plain .device 0⟩
  · split at found
    · obtain rfl := Option.some.inj found
      obtain ⟨aligned, below⟩ := device (a := uartBase) (by decide) (by decide)
      exact ⟨aligned, below, Wrapper.plain .device 0⟩
    · simp only at found
      split at found
      · obtain rfl := Option.some.inj found
        obtain ⟨_, sum, below⟩ := placed.sharedAddress (a := k.currentPaBase + BitVec.ofNat 64 (4096 * p)) (by omega)
        have whole : (k.currentPaBase + BitVec.ofNat 64 (4096 * p) + k.sharedBit).toNat % 4096 = 0 := by omega
        exact ⟨whole, below, plain⟩
      · split at found
        · obtain rfl := Option.some.inj found
          exact ⟨aligned, below, plain⟩
        · cases found

/-- The image is RAM in order also where the heaps do not begin. -/
theorem Placed.page_image (placed : k.Placed m) {n : Nat} (near : n < (k.bitmapNsStart - k.binaryStart).toNat) :
    k.page (n / 4096) = some ⟨k.currentPaBase + BitVec.ofNat 64 (4096 * (n / 4096)), 0, 0⟩ := by
  obtain ⟨_, start, _, _, _, _, _, order, _, _, _, _⟩ := k.bounds
  obtain ⟨whole, inside, _, _⟩ := placed.size_toNat
  obtain ⟨_, _, _, _, alignedS, _, _, _, _⟩ := k.aligned
  have origin : kernelVaBase.toNat = 0xFFFFF00000000000 := rfl
  have heaps := placed.heaps
  have first : (k.bitmapNsStart - k.binaryStart).toNat ≤ (k.sharedNsStart - kernelVaBase).toNat ∧
      (k.sharedNsStart - kernelVaBase).toNat ≤ (k.sharedNsEnd - kernelVaBase).toNat ∧
      (k.sharedNsStart - kernelVaBase).toNat % 4096 = 0 := by
    rw [start]
    bv_omega
  unfold page
  rw [if_neg (by omega), if_neg (by omega), if_neg (by omega), if_pos (Or.inl (by omega))]

/-- With the MMU on, the rest of the boot code returns with this address space, whatever the frame allocators and their
bitmaps held before. -/
theorem Initialised.kernelMain {m₁ : Memory} (placed : k.Placed m) (init : k.Initialised m₁)
    (ns realmFrames : KframeAlloc) (bitmapNs bitmap : Word → Byte) :
    ∃ booted m', enableMmap k.toMemoryLayout ns realmFrames bitmapNs bitmap = some booted ∧
      k.kernelMain booted (k.mmuOn m₁) = some m' ∧ k.AddressMap m' ∧ TablesOnly k.upperTables (k.mmuOn m₁) m' := by
  obtain ⟨_, start, _, _, _, _, _, order, _, _, _, _⟩ := k.bounds
  obtain ⟨_, _, _, _, alignedS, alignedE, _, _, _⟩ := k.aligned
  have origin : kernelVaBase.toNat = 0xFFFFF00000000000 := rfl
  have heaps := placed.heaps
  have half := k.sharedPages_toNat
  have heapSize : kernelHeapSize.toNat = 0x1000000 := rfl
  have heapPages : MemoryLayout.heapPages.toNat = 0x1000 := by decide
  have room : (k.sharedNsEnd - kernelVaBase).toNat = k.sharedNsEnd.toNat - kernelVaBase.toNat ∧
      (k.sharedNsStart - kernelVaBase).toNat = k.sharedNsStart.toNat - kernelVaBase.toNat := by
    bv_omega
  have gigabyte : k.upperTables.startVa.toNat % 2 ^ 30 = 0 := (by decide : kernelVaBase.toNat % 2 ^ 30 = 0)
  have uart : distance k.upperTables uartVa = 2 ^ 29 := (by decide : (uartVa - kernelVaBase).toNat = 2 ^ 29)
  have on : Tabled (k.mmuOn m₁) k.upperTables
      (laidOver (fun _ => none) 0 (k.size.toNat / 4096) k.currentPaBase) :=
    ⟨⟨init.visible placed, init.linked.of_entries fun _ _ _ => rfl⟩, init.translates.of_entries fun _ _ _ => rfl⟩
  obtain ⟨m₂, shared, tabled₂, only₂⟩ := mapHeap_spec gigabyte k.sharedPages.toNat k.sharedNsStart k.sharedPa on
    (by rw [distance_upper]; omega) (by rw [distance_upper]; omega)
  obtain ⟨m₃, heap, tabled₃, only₃⟩ := mapHeap_spec gigabyte MemoryLayout.heapPages.toNat k.sharedNsEnd k.heapPa tabled₂
    (by rw [distance_upper]; omega) (by rw [distance_upper]; omega)
  obtain ⟨m₄, devices, tabled₄, only₄⟩ := mapUart_spec gigabyte k.sharedBit uartVa tabled₃ (by rw [uart]; decide)
    (by rw [uart]; decide)
  rw [uart] at tabled₄
  have only := only₂.trans (only₃.trans only₄)
  have leaf : ∀ va, distance k.upperTables va < 2 ^ 30 → walkLeaf m₄.word k.upperTables.pgd va =
      (k.page (distance k.upperTables va / 4096)).map fun x => ⟨x.leaf, 12⟩ := by
    intro va first
    have small : distance k.upperTables va / 4096 < 2 ^ 18 := by omega
    have found := tabled₄.translates.walkLeaf_eq tabled₄.wired.linked capacity_kernelPages gigabyte first
      (Nat.lt_trans first (by decide))
    refine found.trans ((congrArg (Option.map _) (placed.page_eq small)).trans ?_)
    rw [Option.map_map]
    rfl
  have address : ∀ va, distance k.upperTables va < 2 ^ 30 → walk m₄.word k.upperTables.pgd va =
      (k.page (distance k.upperTables va / 4096)).map fun x => x.pa + BitVec.ofNat 64 (va.toNat % 4096) := by
    intro va first
    rw [walk, leaf va first, Option.map_map]
    cases found : k.page (distance k.upperTables va / 4096) with
    | none => rfl
    | some x =>
      obtain ⟨aligned, below, plain⟩ := placed.page_proper (by omega) found
      exact congrArg some (leafEntry_address plain x.isDev aligned below va)
  refine ⟨_, m₄, k.enableMmap_eq ns realmFrames bitmapNs bitmap, ?_, ⟨leaf, address, ?_, fun l i inside => ?_⟩, only⟩
  · rw [KernelImage.kernelMain]
    simp only
    rw [shared, Option.bind_some, heap, Option.bind_some, devices]
  · have same : ∀ l, ∀ i < kernelPages l * 512, entry m₄ k.lowerTables l i = entry m₁ k.lowerTables l i := by
      intro l i inside
      unfold entry
      rw [k.lowerTables_base]
      exact only.word _ (placed.elsewhere l inside).1
    have laid : LaidOut ⟨m₄.word, m.pa⟩ k.lowerTables.physical kernelPages := placed.lower.of_pa rfl
    have mapped : NormalMapped ⟨m₄.word, m.pa⟩ k.lowerTables (blockCount k.size + 2) (k.size.toNat / 4096) :=
      init.lower.of_entries same
    have linear := mapped.linear laid placed.lowerRange placed.blocks placed.physical
    exact ⟨linear.inside, linear.outside⟩
  · obtain ⟨n, near, pointer, place⟩ := placed.pointer l inside
    obtain ⟨upper, small⟩ := placed.pointer_upper near
    have away : distance k.upperTables (kernelVaBase + BitVec.ofNat 64 n) = n := by
      rw [distance_upper]
      bv_omega
    rw [pointer, translate_upper placed (by omega), address _ (by omega), away, placed.page_image near, Option.map_some,
      place, upper, BitVec.add_assoc, ← BitVec.ofNat_add]
    have offset : 4096 * (n / 4096) + (kernelVaBase.toNat + n) % 4096 = n := by omega
    rw [offset]

/-- The boot code returns with this address space. -/
theorem Placed.boots (placed : k.Placed m) (ns realmFrames : KframeAlloc) (bitmapNs bitmap : Word → Byte) :
    ∃ m', Returns (fun fuel => k.boot fuel ns realmFrames bitmapNs bitmap m) m' ∧ k.AddressMap m' := by
  obtain ⟨m₁, ⟨enough, ran⟩, init, _⟩ := placed.kernelInit
  obtain ⟨booted, m', reserved, mapped, map, _⟩ := init.kernelMain placed ns realmFrames bitmapNs bitmap
  refine ⟨m', ⟨enough, fun fuel more => ?_⟩, map⟩
  have first : k.kernelInit fuel m = some m₁ := ran fuel more
  show k.boot fuel ns realmFrames bitmapNs bitmap m = some m'
  rw [boot, first, Option.bind_some, reserved, Option.bind_some, mapped]

end KernelImage

/- 18 MB with both sets of tables, and 2 MB of shared memory behind the binary. -/
def linkedImage : KernelImage where
  binaryStart := 0xFFFFF00000000000
  bitmapNsStart := 0xFFFFF00001200000
  bitmapNsEnd := 0xFFFFF00001204000
  bitmapStart := 0xFFFFF00001204000
  bitmapEnd := 0xFFFFF00001208000
  sharedNsStart := 0xFFFFF00001400000
  sharedNsEnd := 0xFFFFF00001600000
  ramEnd := 0xFFFFF00003000000
  currentPaBase := 0x42000000
  sharedBit := 0x100000000
  base := linkedLayout.base
  aligned := by decide
  ascending := by decide
  ram := by decide
  physical := linkedLayout.physical
  covers := by decide
  binaryEnd := 0xFFFFF00001208000
  realm
    | .pgd => 0x42100000
    | .pud => 0x42101000
    | .pmd => 0x42110000
    | .pt3 => 0x42200000
  lower
    | .pgd => 0x42140000
    | .pud => 0x42141000
    | .pmd => 0x42150000
    | .pt3 => 0x42A00000

theorem linkedImage_placed : linkedImage.Placed bareMemory where
  block := by decide
  binary := by decide
  short := by decide
  upper :=
    { aligned := fun l => by cases l <;> decide
      bounded := fun l => by cases l <;> decide
      apart := fun l l' => by cases l <;> cases l' <;> decide
      visible := fun l _ _ => by cases l <;> rfl }
  lower :=
    { aligned := fun l => by cases l <;> decide
      bounded := fun l => by cases l <;> decide
      apart := fun l l' => by cases l <;> cases l' <;> decide
      visible := fun l _ _ => by cases l <;> rfl }
  apart l l' := by cases l <;> cases l' <;> decide
  inside l := by cases l <;> decide
  zeroUpper _ _ _ := rfl
  zeroLower _ _ _ := rfl
  heaps := by decide
  shared := ⟨32, by decide, by decide, by decide⟩

end RealmVm
