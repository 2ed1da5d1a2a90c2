import RealmVm.Lib.Loop
import RealmVm.Vma.MapThenWalk

/-! `normal_map_kernel_4KB`: the mapping of the kernel itself, made before the MMU is on, when its pointers to the
tables are their physical addresses. -/
namespace RealmVm

open Lib Lib.Bits

/-- The flags of every page. -/
def normalFlags : Word := (ptPage ||| ptKernel ||| ptRw ||| ptIsh ||| ptAf ||| ptMem).signExtend 64

/-- `pt3_entry` after a turn that found `entry` in it. -/
def normalEntry (entry pagePa : Word) : Word :=
  setField (setField (setField entry 0 1 1) 1 1 0) 12 36 (bdOaL3Get pagePa) ||| normalFlags

/- The loop `do … while (i++ <= count)`. What `pmd_entry` holds is kept from turn to turn. -/
def linkBlocks (t : TranslationTables) (count : Word) : Nat → Word → Word → Word → Memory → Option Memory
  | 0, _, _, _, _ => none
  | fuel + 1, i, idVma, pmdEntry, m =>
    let pmdEntry := linkEntry pmdEntry (entryAddress t.pt3 (i * 512))
    let m := m.store (entryAddress t.pmd (vaOffset48L2 idVma)) pmdEntry
    let idVma := idVma + 2 * 1024 * 1024
    if i ≤ count then linkBlocks t count fuel (i + 1) idVma pmdEntry m else some m

/- The loop over the pages, with `left` turns to go. `count` is the first entry of the table at hand. -/
def mapNormalPages (t : TranslationTables) : Nat → Word → Word → Word → Word → Memory → Memory
  | 0, _, _, _, _, m => m
  | left + 1, pageVa, pagePa, count, pt3Entry, m =>
    let pt3Entry := normalEntry pt3Entry pagePa
    let offset := vaOffset48L3 pageVa
    let m := m.store (entryAddress t.pt3 (offset + count)) pt3Entry
    mapNormalPages t left (pageVa + pageSize4KB) (pagePa + pageSize4KB) (count + if offset = 511 then 512 else 0)
      pt3Entry m

/-- `ram_shared_size` is not read. -/
def normalMapKernel4KB (fuel : Nat) (m : Memory) (t : TranslationTables) (ramSize _ramSharedSize : Word) :
    Option Memory :=
  let idVma := t.startVa
  let m := m.store (entryAddress t.pgd (vaOffset48L0 idVma)) (linkEntry 0 t.pud)
  let m := m.store (entryAddress t.pud (vaOffset48L1 idVma)) (linkEntry 0 t.pmd)
  let count := (ramSize + 2 * 1024 * 1024 - 1) / (2 * 1024 * 1024)
  match linkBlocks t count fuel 0 idVma 0 m with
  | none => none
  | some m => some (mapNormalPages t (ramSize / pageSize4KB).toNat t.startVa t.startPa 0 0 m)

/-- The pointers of the kernel while the MMU is off. -/
def TranslationTables.physical (t : TranslationTables) : TranslationTables :=
  { t with vaPgd := t.pgd, vaPud := t.pud, vaPmd := t.pmd, vaPt3 := t.pt3 }

@[simp] theorem entry_physical (m : Memory) (t : TranslationTables) (l : Level) (i : Nat) :
    entry m t.physical l i = entry m t l i := by
  cases l <;> rfl

/- A range that starts at a block, inside one block of 1 GB. -/
structure NormalRange (t : TranslationTables) (ramSize : Word) : Prop where
  block : t.startVa.toNat % 2 ^ 21 = 0
  page : t.startPa.toNat % 4096 = 0
  pages : ramSize.toNat % 4096 = 0
  positive : 0 < ramSize.toNat
  inside : t.startVa.toNat % 2 ^ 30 + ramSize.toNat ≤ 2 ^ 30

section Entries

/-- Linking again forgets the table before. -/
theorem linkEntry_linkEntry (reg first second : Word) :
    linkEntry (linkEntry reg first) second = linkEntry reg second := by
  apply BitVec.eq_of_getLsbD_eq
  intro i small
  simp only [linkEntry, getLsbD_setField _ _ _ _ i small]
  grind

theorem normalEntry_zero (pagePa : Word) : normalEntry 0 pagePa = leafEntry pagePa 0 0 := by
  have flags : normalFlags = leafAttributes 0 0 := by decide
  rw [normalEntry, flags, leafEntry_eq]

/-- The flags of the page before are the same. -/
theorem normalEntry_again (before pagePa : Word) :
    normalEntry (normalEntry 0 before) pagePa = normalEntry 0 pagePa := by
  apply BitVec.eq_of_getLsbD_eq
  intro i small
  simp only [normalEntry, BitVec.getLsbD_or, getLsbD_setField _ _ _ _ i small]
  grind

end Entries

section Turns

variable {t : TranslationTables} {m : Memory} {count : Word}

/-- The place of the first block in its level-2 table. -/
def blockIndex (t : TranslationTables) : Nat := t.startVa.toNat / 2 ^ 21 % 512

/-- The memory after `n` turns of the first loop: the index wraps at the end of the table. -/
def linkTurns (t : TranslationTables) (m : Memory) : Nat → Memory
  | 0 => m
  | n + 1 => (linkTurns t m n).store (slot t.physical .pmd ((blockIndex t + n) % 512)) (linkEntry 0 (tableOf t.pt3 n))

/-- The memory after `n` turns of the second one. -/
def pageTurns (t : TranslationTables) (m : Memory) : Nat → Memory
  | 0 => m
  | n + 1 => (pageTurns t m n).store (slot t.physical .pt3 n) (leafEntry (t.startPa + BitVec.ofNat 64 (4096 * n)) 0 0)

theorem vaOffset48L2_turn (t : TranslationTables) (i : Nat) :
    vaOffset48L2 (t.startVa + BitVec.ofNat 64 (2 ^ 21 * i)) = BitVec.ofNat 64 ((blockIndex t + i) % 512) := by
  apply BitVec.eq_of_toNat_eq
  rw [vaOffset48L2, toNat_field_eq _ _ _ (by decide), BitVec.toNat_add, BitVec.toNat_ofNat, BitVec.toNat_ofNat,
    blockIndex]
  omega

theorem entryAddress_block (pt3 : Word) (i : Nat) :
    entryAddress pt3 (BitVec.ofNat 64 i * 512) = tableOf pt3 i := by
  unfold entryAddress tableOf pageSize4KB
  bv_omega

/-- One turn of the first loop. -/
theorem linkBlocks_turn (t : TranslationTables) (m : Memory) (count : Word) (i : Nat) {pmdEntry : Word}
    (fresh : ∀ table, linkEntry pmdEntry table = linkEntry 0 table) (fuel : Nat) :
    linkBlocks t count (fuel + 1) (BitVec.ofNat 64 i) (t.startVa + BitVec.ofNat 64 (2 ^ 21 * i)) pmdEntry
        (linkTurns t m i) =
      if BitVec.ofNat 64 i ≤ count then
        linkBlocks t count fuel (BitVec.ofNat 64 (i + 1)) (t.startVa + BitVec.ofNat 64 (2 ^ 21 * (i + 1)))
          (linkEntry 0 (tableOf t.pt3 i)) (linkTurns t m (i + 1))
      else some (linkTurns t m (i + 1)) := by
  have next : t.startVa + BitVec.ofNat 64 (2 ^ 21 * i) + 2 * 1024 * 1024 =
      t.startVa + BitVec.ofNat 64 (2 ^ 21 * (i + 1)) := by
    have step : (2 * 1024 * 1024 : Word) = BitVec.ofNat 64 (2 ^ 21) := by decide
    rw [step, BitVec.add_assoc, ← BitVec.ofNat_add, Nat.mul_succ]
  have counted : BitVec.ofNat 64 i + 1 = BitVec.ofNat 64 (i + 1) := (BitVec.ofNat_add i 1).symm
  simp only [linkBlocks, fresh, entryAddress_block, vaOffset48L2_turn, next, counted]
  rfl

/-- The bound is tested after the turn, and `i` is counted up after the test: there are `count + 2` turns. -/
theorem linkBlocks_turns (t : TranslationTables) (m : Memory) (few : count.toNat < 2 ^ 32) (left : Nat) {i : Nat}
    (rest : i + left = count.toNat + 1) {pmdEntry : Word}
    (fresh : ∀ table, linkEntry pmdEntry table = linkEntry 0 table) {fuel : Nat} (enough : left < fuel) :
    linkBlocks t count fuel (BitVec.ofNat 64 i) (t.startVa + BitVec.ofNat 64 (2 ^ 21 * i)) pmdEntry (linkTurns t m i) =
      some (linkTurns t m (count.toNat + 2)) := by
  induction left generalizing i pmdEntry fuel with
  | zero =>
    cases fuel with
    | zero => cases enough
    | succ fuel =>
      have last : ¬ BitVec.ofNat 64 i ≤ count := by
        rw [BitVec.le_def, BitVec.toNat_ofNat]
        omega
      obtain rfl : i = count.toNat + 1 := rest
      rw [linkBlocks_turn t m count _ fresh, if_neg last]
  | succ left ih =>
    cases fuel with
    | zero => cases enough
    | succ fuel =>
      have more : BitVec.ofNat 64 i ≤ count := by
        rw [BitVec.le_def, BitVec.toNat_ofNat]
        omega
      rw [linkBlocks_turn t m count _ fresh, if_pos more]
      exact ih (by omega) (linkEntry_linkEntry 0 _) (Nat.lt_of_succ_lt_succ enough)

theorem linkBlocks_start (t : TranslationTables) (m : Memory) (few : count.toNat < 2 ^ 32) {fuel : Nat}
    (enough : count.toNat + 1 < fuel) :
    linkBlocks t count fuel 0 t.startVa 0 m = some (linkTurns t m (count.toNat + 2)) := by
  have loop := linkBlocks_turns t m few (count.toNat + 1) (Nat.zero_add _) (fun _ => rfl) enough
  have start : t.startVa + BitVec.ofNat 64 (2 ^ 21 * 0) = t.startVa := BitVec.add_zero _
  rw [start] at loop
  exact loop

/-- The offset in the table and its first entry together count the pages. -/
theorem mapNormalPages_turns (t : TranslationTables) (m : Memory) (block : t.startVa.toNat % 2 ^ 21 = 0) (left : Nat)
    {i : Nat} (few : i + left ≤ 2 ^ 32) {pt3Entry : Word}
    (fresh : ∀ pagePa, normalEntry pt3Entry pagePa = normalEntry 0 pagePa) :
    mapNormalPages t left (t.startVa + BitVec.ofNat 64 (4096 * i)) (t.startPa + BitVec.ofNat 64 (4096 * i))
        (BitVec.ofNat 64 (i / 512 * 512)) pt3Entry (pageTurns t m i) = pageTurns t m (i + left) := by
  induction left generalizing i pt3Entry with
  | zero => rfl
  | succ left ih =>
    have offset : (vaOffset48L3 (t.startVa + BitVec.ofNat 64 (4096 * i))).toNat = i % 512 := by
      rw [vaOffset48L3, toNat_field_eq _ _ _ (by decide), BitVec.toNat_add, BitVec.toNat_ofNat]
      omega
    have place : vaOffset48L3 (t.startVa + BitVec.ofNat 64 (4096 * i)) + BitVec.ofNat 64 (i / 512 * 512) =
        BitVec.ofNat 64 i := by
      bv_omega
    have base : BitVec.ofNat 64 (i / 512 * 512) +
        (if vaOffset48L3 (t.startVa + BitVec.ofNat 64 (4096 * i)) = 511 then 512 else 0) =
        BitVec.ofNat 64 ((i + 1) / 512 * 512) := by
      split <;> bv_omega
    have next (start : Word) : start + BitVec.ofNat 64 (4096 * i) + pageSize4KB =
        start + BitVec.ofNat 64 (4096 * (i + 1)) := by
      have step : pageSize4KB = BitVec.ofNat 64 4096 := rfl
      rw [step, BitVec.add_assoc, ← BitVec.ofNat_add, Nat.mul_succ]
    have order : i + (left + 1) = i + 1 + left := by omega
    simp only [mapNormalPages, fresh, place, base, next]
    rw [order, ← ih (by omega) (normalEntry_again _), normalEntry_zero]
    rfl

theorem mapNormalPages_start (t : TranslationTables) (m : Memory) (block : t.startVa.toNat % 2 ^ 21 = 0) {n : Nat}
    (few : n ≤ 2 ^ 32) : mapNormalPages t n t.startVa t.startPa 0 0 m = pageTurns t m n := by
  have order : 0 + n ≤ 2 ^ 32 := (Nat.zero_add n).symm ▸ few
  have fresh : ∀ pagePa, normalEntry 0 pagePa = normalEntry 0 pagePa := fun _ => rfl
  have loop := mapNormalPages_turns t m block n order fresh
  have start (x : Word) : x + BitVec.ofNat 64 (4096 * 0) = x := BitVec.add_zero x
  rw [start, start, Nat.zero_add] at loop
  exact loop

@[simp] theorem linkTurns_pa (t : TranslationTables) (m : Memory) (n : Nat) : (linkTurns t m n).pa = m.pa := by
  induction n with
  | zero => rfl
  | succ n ih => exact ih

@[simp] theorem pageTurns_pa (t : TranslationTables) (m : Memory) (n : Nat) : (pageTurns t m n).pa = m.pa := by
  induction n with
  | zero => rfl
  | succ n ih => exact ih

/-- A store to a table, read back at any entry. -/
theorem entry_store_physical (laid : LaidOut m t.physical kernelPages) {l l' : Level} {i j : Nat}
    (hi : i < kernelPages l * 512) (hj : j < kernelPages l' * 512) (v : Word) :
    entry (m.store (slot t.physical l i) v) t l' j = if l' = l ∧ j = i then v else entry m t l' j := by
  have stored := laid.entry_store hi hj v
  rw [entry_physical, entry_physical] at stored
  exact stored

theorem linkTurns_other (laid : LaidOut m t.physical kernelPages) (n : Nat) {l : Level} (other : l ≠ .pmd) {j : Nat}
    (inside : j < kernelPages l * 512) : entry (linkTurns t m n) t l j = entry m t l j := by
  induction n with
  | zero => rfl
  | succ n ih =>
    have first : (blockIndex t + n) % 512 < kernelPages .pmd * 512 :=
      Nat.lt_of_lt_of_le (Nat.mod_lt _ (by decide)) (by decide)
    rw [linkTurns, entry_store_physical (laid.of_pa (linkTurns_pa t m n)) first inside, if_neg fun same => other same.1]
    exact ih

/-- Block `d` has the table of the last turn that came to it. -/
theorem linkTurns_block (laid : LaidOut m t.physical kernelPages) {n : Nat} (few : n ≤ 1024) {d : Nat}
    (inside : d < 512) : entry (linkTurns t m n) t .pmd ((blockIndex t + d) % 512) =
      if d + 512 < n then linkEntry 0 (tableOf t.pt3 (d + 512))
      else if d < n then linkEntry 0 (tableOf t.pt3 d)
      else entry m t .pmd ((blockIndex t + d) % 512) := by
  have slots (k : Nat) : (blockIndex t + k) % 512 < kernelPages .pmd * 512 :=
    Nat.lt_of_lt_of_le (Nat.mod_lt _ (by decide)) (by decide)
  induction n with
  | zero => rfl
  | succ n ih =>
    have same : (blockIndex t + d) % 512 = (blockIndex t + n) % 512 ↔ n = d ∨ n = d + 512 := by omega
    rw [linkTurns, entry_store_physical (laid.of_pa (linkTurns_pa t m n)) (slots n) (slots d), ih (by omega)]
    simp only [same, true_and]
    rcases eq_or_ne n d with rfl | first
    · simp
    · rcases eq_or_ne n (d + 512) with rfl | second
      · simp
      · have low : d < n + 1 ↔ d < n := by omega
        have high : d + 512 < n + 1 ↔ d + 512 < n := by omega
        simp only [first, second, or_self, if_false, low, high]

theorem pageTurns_other (laid : LaidOut m t.physical kernelPages) {n : Nat} (few : n ≤ 2048 * 512) {l : Level}
    (other : l ≠ .pt3) {j : Nat} (inside : j < kernelPages l * 512) :
    entry (pageTurns t m n) t l j = entry m t l j := by
  induction n with
  | zero => rfl
  | succ n ih =>
    have place : n < kernelPages .pt3 * 512 := few
    rw [pageTurns, entry_store_physical (laid.of_pa (pageTurns_pa t m n)) place inside, if_neg fun same => other same.1]
    exact ih (by omega)

theorem pageTurns_page (laid : LaidOut m t.physical kernelPages) {n : Nat} (few : n ≤ 2048 * 512) {j : Nat}
    (inside : j < kernelPages .pt3 * 512) : entry (pageTurns t m n) t .pt3 j =
      if j < n then leafEntry (t.startPa + BitVec.ofNat 64 (4096 * j)) 0 0 else entry m t .pt3 j := by
  induction n with
  | zero => rfl
  | succ n ih =>
    have place : n < kernelPages .pt3 * 512 := few
    rw [pageTurns, entry_store_physical (laid.of_pa (pageTurns_pa t m n)) place inside, ih (by omega)]
    rcases eq_or_ne j n with rfl | other
    · simp
    · have order : j < n + 1 ↔ j < n := by omega
      simp only [other, and_false, if_false, order]

end Turns

section Mapped

variable {t : TranslationTables} {m m' : Memory} {ramSize : Word} {blocks pages : Nat}

/-- The entries after `blocks` turns of the first loop and `pages` of the second. -/
structure NormalMapped (m : Memory) (t : TranslationTables) (blocks pages : Nat) : Prop where
  l0 : entry m t .pgd (l0Index t.startVa) = linkEntry 0 t.pud
  l1 : entry m t .pud (l1Index t.startVa) = linkEntry 0 t.pmd
  l2 : ∀ d < 512, entry m t .pmd ((blockIndex t + d) % 512) =
    if d + 512 < blocks then linkEntry 0 (tableOf t.pt3 (d + 512))
    else if d < blocks then linkEntry 0 (tableOf t.pt3 d) else 0
  l3 : ∀ j < kernelPages .pt3 * 512, entry m t .pt3 j =
    if j < pages then leafEntry (t.startPa + BitVec.ofNat 64 (4096 * j)) 0 0 else 0

/-- Blocks of 2 MB, rounded up. -/
def blockCount (ramSize : Word) : Nat := (ramSize.toNat + 2 ^ 21 - 1) / 2 ^ 21

/-- The first entries of the upper two levels. -/
def linkRoot (t : TranslationTables) (m : Memory) : Memory :=
  (m.store (slot t.physical .pgd (l0Index t.startVa)) (linkEntry 0 t.pud)).store
    (slot t.physical .pud (l1Index t.startVa)) (linkEntry 0 t.pmd)

theorem blockCount_le (range : NormalRange t ramSize) : blockCount ramSize ≤ 512 := by
  have inside := range.inside
  unfold blockCount
  omega

/-- The call returns, with two turns of the first loop more than there are blocks. -/
theorem normalMapKernel4KB_eq (range : NormalRange t ramSize) (ramSharedSize : Word) {fuel : Nat}
    (enough : blockCount ramSize + 1 < fuel) : normalMapKernel4KB fuel m t ramSize ramSharedSize =
      some (pageTurns t (linkTurns t (linkRoot t m) (blockCount ramSize + 2)) (ramSize.toNat / 4096)) := by
  have inside := range.inside
  have positive := range.positive
  have few := blockCount_le range
  have number : ((ramSize + 2 * 1024 * 1024 - 1) / (2 * 1024 * 1024)).toNat = blockCount ramSize := by
    have two : (2 * 1024 * 1024 : Word) = 0x200000 := by decide
    have sum : (ramSize + 0x200000 - 1).toNat = ramSize.toNat + 2 ^ 21 - 1 := by bv_omega
    rw [two, BitVec.toNat_udiv, sum]
    rfl
  obtain ⟨count, counted⟩ : ∃ count : Word, count = (ramSize + 2 * 1024 * 1024 - 1) / (2 * 1024 * 1024) := ⟨_, rfl⟩
  rw [← counted] at number
  rw [← number] at enough few ⊢
  have turns : (ramSize / pageSize4KB).toNat = ramSize.toNat / 4096 := BitVec.toNat_udiv
  have less : ramSize.toNat / 4096 ≤ 2 ^ 32 := by omega
  have loop := linkBlocks_start t (linkRoot t m) (Nat.lt_of_le_of_lt few (by decide)) enough
  have rest := mapNormalPages_start t (linkTurns t (linkRoot t m) (count.toNat + 2)) range.block less
  have root : (m.store (entryAddress t.pgd (vaOffset48L0 t.startVa)) (linkEntry 0 t.pud)).store
      (entryAddress t.pud (vaOffset48L1 t.startVa)) (linkEntry 0 t.pmd) = linkRoot t m := by
    have zeroth : vaOffset48L0 t.startVa = BitVec.ofNat 64 (l0Index t.startVa) := ofNat_toNat_eq rfl
    have first : vaOffset48L1 t.startVa = BitVec.ofNat 64 (l1Index t.startVa) := ofNat_toNat_eq rfl
    rw [zeroth, first]
    rfl
  simp only [normalMapKernel4KB, ← counted, turns, root, loop]
  exact congrArg some rest

theorem normalMapped (laid : LaidOut m t.physical kernelPages)
    (zero : ∀ l, ∀ i < kernelPages l * 512, entry m t l i = 0) (few : blocks ≤ 1024) (small : pages ≤ 2048 * 512) :
    NormalMapped (pageTurns t (linkTurns t (linkRoot t m) blocks) pages) t blocks pages := by
  have i0 : l0Index t.startVa < kernelPages .pgd * 512 := (offset_lt t.startVa).1
  have i1 : l1Index t.startVa < kernelPages .pud * 512 := (offset_lt t.startVa).2
  have laid₁ : LaidOut (m.store (slot t.physical .pgd (l0Index t.startVa)) (linkEntry 0 t.pud)) t.physical
      kernelPages :=
    laid.of_pa rfl
  have laid₂ : LaidOut (linkRoot t m) t.physical kernelPages := laid.of_pa rfl
  have laid₃ := laid₂.of_pa (linkTurns_pa t (linkRoot t m) blocks)
  have root : ∀ l, l ≠ .pgd → l ≠ .pud → ∀ i < kernelPages l * 512, entry (linkRoot t m) t l i = 0 := by
    intro l notPgd notPud i inside
    rw [linkRoot, entry_store_physical laid₁ i1 inside, if_neg fun same => notPud same.1,
      entry_store_physical laid i0 inside, if_neg fun same => notPgd same.1]
    exact zero l i inside
  constructor
  · rw [pageTurns_other laid₃ small (by decide) i0, linkTurns_other laid₂ blocks (by decide) i0, linkRoot,
      entry_store_physical laid₁ i1 i0, if_neg fun same => absurd same.1 (by decide), entry_store_physical laid i0 i0,
      if_pos ⟨rfl, rfl⟩]
  · rw [pageTurns_other laid₃ small (by decide) i1, linkTurns_other laid₂ blocks (by decide) i1, linkRoot,
      entry_store_physical laid₁ i1 i1, if_pos ⟨rfl, rfl⟩]
  · intro d inside
    have place : (blockIndex t + d) % 512 < kernelPages .pmd * 512 :=
      Nat.lt_of_lt_of_le (Nat.mod_lt _ (by decide)) (by decide)
    rw [pageTurns_other laid₃ small (by decide) place, linkTurns_block laid₂ few inside,
      root .pmd (by decide) (by decide) _ place]
  · intro j inside
    rw [pageTurns_page laid₃ small inside, linkTurns_other laid₂ blocks (by decide) inside,
      root .pt3 (by decide) (by decide) j inside]

/-- The block of an address, counted from the start of the range around the table. -/
def blockOf (t : TranslationTables) (va : Word) : Nat := distance t va / 2 ^ 21 % 512

/-- The level-3 table that the block has in the end. -/
def tableOfBlock (blocks d : Nat) : Nat := if d + 512 < blocks then d + 512 else d

/-- The place in the level-3 tables where a walk ends. -/
def pageOf (t : TranslationTables) (blocks : Nat) (va : Word) : Nat :=
  tableOfBlock blocks (blockOf t va) * 512 + va.toNat / 4096 % 512

/-- What the hardware finds in the gigabyte of the range. -/
theorem NormalMapped.walkLeaf_eq (mapped : NormalMapped m t blocks pages) (laid : LaidOut m t.physical kernelPages)
    {va : Word} (near : va.toNat / 2 ^ 30 = t.startVa.toNat / 2 ^ 30)
    (block : t.startVa.toNat % 2 ^ 21 = 0) : walkLeaf m.word t.pgd va =
      if blockOf t va < blocks ∧ pageOf t blocks va < pages then
        some ⟨leafEntry (t.startPa + BitVec.ofNat 64 (4096 * pageOf t blocks va)) 0 0, 12⟩
      else none := by
  have same : l0Index va = l0Index t.startVa ∧ l1Index va = l1Index t.startVa := by
    unfold l0Index l1Index vaOffset48L0 vaOffset48L1
    simp only [toNat_field_eq _ _ _ (show 9 ≤ 64 by decide)]
    omega
  have inside : blockOf t va < 512 := Nat.mod_lt _ (by decide)
  have place : vaOffset48L2 va = BitVec.ofNat 64 ((blockIndex t + blockOf t va) % 512) := by
    apply ofNat_toNat_eq
    rw [vaOffset48L2, toNat_field_eq _ _ _ (by decide), blockIndex, blockOf, distance]
    bv_omega
  have offset : (vaOffset48L3 va).toNat = va.toNat / 4096 % 512 := toNat_field_eq _ _ _ (by decide)
  have small : tableOfBlock blocks (blockOf t va) < kernelPages .pt3 := by
    have size : kernelPages .pt3 = 2048 := rfl
    unfold tableOfBlock
    split <;> omega
  have link (b : Nat) (low : b < kernelPages .pt3) : LinksTo (linkEntry 0 (tableOf t.pt3 b)) (tableOf t.pt3 b) := by
    obtain ⟨aligned, bounded⟩ := laid.tableOf_spec low
    exact linksTo_linkEntry 0 aligned bounded
  have entry₀ : m.word (entryAddress t.pgd (vaOffset48L0 va)) = linkEntry 0 t.pud := by
    rw [lookup_l0, same.1, mapped.l0]
  have entry₁ : m.word (entryAddress t.pud (vaOffset48L1 va)) = linkEntry 0 t.pmd := by
    rw [lookup_l1, same.2, mapped.l1]
  have entry₂ : m.word (entryAddress t.pmd (vaOffset48L2 va)) =
      if blockOf t va < blocks then linkEntry 0 (tableOf t.pt3 (tableOfBlock blocks (blockOf t va))) else 0 := by
    rw [place]
    refine (mapped.l2 (blockOf t va) inside).trans ?_
    rw [tableOfBlock]
    split
    · rw [if_pos (by omega)]
    · rfl
  have entry₃ : m.word (entryAddress (tableOf t.pt3 (tableOfBlock blocks (blockOf t va))) (vaOffset48L3 va)) =
      if pageOf t blocks va < pages then leafEntry (t.startPa + BitVec.ofNat 64 (4096 * pageOf t blocks va)) 0 0
      else 0 := by
    rw [entryAddress_tableOf, offset]
    apply mapped.l3
    omega
  have root : t.pud.toNat + 1 * 4096 ≤ 2 ^ 48 := laid.bounded .pud
  have middle : t.pmd.toNat + 32 * 4096 ≤ 2 ^ 48 := laid.bounded .pmd
  have first : LinksTo (m.word (entryAddress t.pgd (vaOffset48L0 va))) t.pud := by
    rw [entry₀]
    exact linksTo_linkEntry 0 (laid.aligned .pud) (by omega)
  have second : LinksTo (m.word (entryAddress t.pud (vaOffset48L1 va))) t.pmd := by
    rw [entry₁]
    exact linksTo_linkEntry 0 (laid.aligned .pmd) (by omega)
  have third : LinksTo (m.word (entryAddress t.pmd (vaOffset48L2 va)))
      (tableOf t.pt3 (tableOfBlock blocks (blockOf t va))) := by
    rw [entry₂]
    split
    · exact link _ small
    · intro valid
      cases valid
  rw [walkLeaf_of_links first second third, entry₀, entry₁, entry₂, entry₃]
  have invalid : isValid 0 = false := rfl
  have plain : PlainFlags 0 := by decide
  cases Nat.lt_or_ge (blockOf t va) blocks with
  | inr behind =>
    simp only [Nat.not_lt.mpr behind, if_false, invalid, false_and, Bool.and_false, Bool.false_and, Bool.false_eq_true]
  | inl linked =>
    cases Nat.lt_or_ge (pageOf t blocks va) pages with
    | inr behind =>
      simp only [Nat.not_lt.mpr behind, if_false, invalid, and_false, Bool.and_false, Bool.false_and,
        Bool.false_eq_true]
    | inl filled =>
      simp only [linked, filled, if_true, isValid_linkEntry, isValid_leafEntry _ plain, isLink_leafEntry _ plain,
        Bool.and_true, and_self]

end Mapped

section Linear

variable {t : TranslationTables} {m m' : Memory} {ramSize : Word} {blocks pages : Nat}

/-- The range is mapped to RAM in order, and nothing else in its gigabyte is mapped. -/
structure LinearMap (m : Memory) (t : TranslationTables) (ramSize : Word) : Prop where
  inside : ∀ k < ramSize.toNat,
    walk m.word t.pgd (t.startVa + BitVec.ofNat 64 k) = some (t.startPa + BitVec.ofNat 64 k)
  outside : ∀ va : Word, va.toNat / 2 ^ 30 = t.startVa.toNat / 2 ^ 30 →
    (∀ k < ramSize.toNat, va ≠ t.startVa + BitVec.ofNat 64 k) → walk m.word t.pgd va = none

/-- With a block for each turn the walk ends at the page of the address. -/
theorem pageOf_eq (block : t.startVa.toNat % 2 ^ 21 = 0) (few : blocks ≤ 512) (va : Word) :
    pageOf t blocks va = distance t va % 2 ^ 30 / 4096 := by
  have inside : blockOf t va < 512 := Nat.mod_lt _ (by decide)
  rw [pageOf, tableOfBlock, if_neg (by omega), blockOf, distance]
  bv_omega

/-- Up to 510 blocks the map is linear. -/
theorem NormalMapped.linear (mapped : NormalMapped m t (blockCount ramSize + 2) (ramSize.toNat / 4096))
    (laid : LaidOut m t.physical kernelPages) (range : NormalRange t ramSize) (few : blockCount ramSize + 2 ≤ 512)
    (physical : t.startPa.toNat + ramSize.toNat ≤ 2 ^ 48) : LinearMap m t ramSize := by
  have block := range.block
  have page := range.page
  have whole := range.pages
  have fits := range.inside
  have plain : PlainFlags 0 := by decide
  constructor
  · intro k inside
    have near : (t.startVa + BitVec.ofNat 64 k).toNat / 2 ^ 30 = t.startVa.toNat / 2 ^ 30 := by bv_omega
    have away : distance t (t.startVa + BitVec.ofNat 64 k) = k := by
      unfold distance
      bv_omega
    have number : pageOf t (blockCount ramSize + 2) (t.startVa + BitVec.ofNat 64 k) = k / 4096 := by
      rw [pageOf_eq block few, away, Nat.mod_eq_of_lt (by omega)]
    have linked : blockOf t (t.startVa + BitVec.ofNat 64 k) < blockCount ramSize + 2 := by
      rw [blockOf, away, blockCount]
      omega
    have start : (t.startPa + BitVec.ofNat 64 (4096 * (k / 4096))).toNat = t.startPa.toNat + 4096 * (k / 4096) := by
      bv_omega
    have leaf := mapped.walkLeaf_eq laid near block
    rw [number, if_pos ⟨linked, by omega⟩] at leaf
    rw [walk, leaf, Option.map_some, leafEntry_address plain 0 (by omega) (by omega)]
    congr 1
    bv_omega
  · intro va near other
    have leaf := mapped.walkLeaf_eq laid near block
    rw [walk, leaf, if_neg, Option.map_none]
    rintro ⟨_, filled⟩
    rw [pageOf_eq block few] at filled
    -- the distance is below the size, so that the address is in the range
    have short : distance t va < ramSize.toNat := by
      unfold distance at *
      bv_omega
    apply other _ short
    unfold distance
    bv_omega

/-- The 48 bits of a descriptor. -/
theorem Leaf.address_lt (desc va : Word) : (Leaf.address ⟨desc, 12⟩ va).toNat < 2 ^ 48 := by
  have high : (field desc 12 36).toNat < 2 ^ 36 := by
    rw [toNat_field_eq _ _ _ (by decide)]
    exact Nat.mod_lt _ (by decide)
  have low : (field va 0 12).toNat < 2 ^ 12 := by
    rw [toNat_field_eq _ _ _ (by decide)]
    exact Nat.mod_lt _ (by decide)
  show (field desc 12 36 <<< 12 ||| field va 0 12).toNat < 2 ^ 48
  rw [BitVec.toNat_or]
  apply Nat.or_lt_two_pow
  · rw [toNat_shiftLeft_lt _ _ (by omega)]
    omega
  · omega

/-- From 511 blocks on, the first block gets the empty table behind those that are filled. -/
theorem NormalMapped.first_lost (mapped : NormalMapped m t (blockCount ramSize + 2) (ramSize.toNat / 4096))
    (laid : LaidOut m t.physical kernelPages) (range : NormalRange t ramSize) (many : 512 < blockCount ramSize + 2) :
    walk m.word t.pgd t.startVa = none := by
  have block := range.block
  have fits := range.inside
  have away : distance t t.startVa = 0 := by
    unfold distance
    bv_omega
  have zeroth : blockOf t t.startVa = 0 := by rw [blockOf, away, Nat.zero_div, Nat.zero_mod]
  have behind : ramSize.toNat / 4096 ≤ pageOf t (blockCount ramSize + 2) t.startVa := by
    rw [pageOf, zeroth, tableOfBlock, if_pos (by omega)]
    omega
  have leaf := mapped.walkLeaf_eq laid rfl block
  rw [if_neg fun both => absurd both.2 (Nat.not_lt.mpr behind)] at leaf
  rw [walk, leaf, Option.map_none]

theorem LinearMap.first (linear : LinearMap m t ramSize) (range : NormalRange t ramSize) :
    walk m.word t.pgd t.startVa = some t.startPa := by
  have found := linear.inside 0 range.positive
  have start (x : Word) : x + BitVec.ofNat 64 0 = x := BitVec.add_zero x
  rw [start, start] at found
  exact found

/-- What descriptors lead to is below 2^48. -/
theorem NormalMapped.physical_of_linear (mapped : NormalMapped m t blocks pages)
    (laid : LaidOut m t.physical kernelPages) (range : NormalRange t ramSize) (linear : LinearMap m t ramSize) :
    t.startPa.toNat + ramSize.toNat ≤ 2 ^ 48 := by
  have block := range.block
  have fits := range.inside
  have positive := range.positive
  have below : ∀ k < ramSize.toNat, (t.startPa + BitVec.ofNat 64 k).toNat < 2 ^ 48 := by
    intro k inside
    have near : (t.startVa + BitVec.ofNat 64 k).toNat / 2 ^ 30 = t.startVa.toNat / 2 ^ 30 := by bv_omega
    have found := linear.inside k inside
    rw [walk, mapped.walkLeaf_eq laid near block] at found
    obtain ⟨leaf, at_, address⟩ := Option.map_eq_some_iff.mp found
    rw [← address]
    rw [Option.ite_none_right_eq_some] at at_
    obtain ⟨_, same⟩ := at_
    cases Option.some.inj same
    exact Leaf.address_lt _ _
  have first : t.startPa.toNat < 2 ^ 48 := by
    have zeroth := below 0 positive
    have start : t.startPa + BitVec.ofNat 64 0 = t.startPa := BitVec.add_zero _
    rwa [start] at zeroth
  by_contra far
  have last := below (2 ^ 48 - t.startPa.toNat) (by omega)
  bv_omega

/-- The map is linear if, and only if, the two further turns of the first loop do not come back to the first
blocks, and RAM ends where physical addresses do. -/
theorem normalMapKernel4KB_linear_iff (laid : LaidOut m t.physical kernelPages)
    (zero : ∀ l, ∀ i < kernelPages l * 512, entry m t l i = 0) (range : NormalRange t ramSize) (ramSharedSize : Word) :
    (∃ m', Returns (fun fuel => normalMapKernel4KB fuel m t ramSize ramSharedSize) m' ∧ LinearMap m' t ramSize) ↔
      ramSize.toNat ≤ 2 ^ 30 - 2 ^ 22 ∧ t.startPa.toNat + ramSize.toNat ≤ 2 ^ 48 := by
  have fits := range.inside
  have few := blockCount_le range
  have count : blockCount ramSize + 2 ≤ 512 ↔ ramSize.toNat ≤ 2 ^ 30 - 2 ^ 22 := by
    unfold blockCount
    omega
  have returns : Returns (fun fuel => normalMapKernel4KB fuel m t ramSize ramSharedSize)
      (pageTurns t (linkTurns t (linkRoot t m) (blockCount ramSize + 2)) (ramSize.toNat / 4096)) :=
    ⟨_, fun fuel enough => normalMapKernel4KB_eq range ramSharedSize enough⟩
  have turns : blockCount ramSize + 2 ≤ 1024 := by omega
  have pages : ramSize.toNat / 4096 ≤ 2048 * 512 := by omega
  have mapped := normalMapped laid zero turns pages
  have laid' : LaidOut (pageTurns t (linkTurns t (linkRoot t m) (blockCount ramSize + 2)) (ramSize.toNat / 4096))
      t.physical kernelPages := laid.of_pa (by rw [pageTurns_pa, linkTurns_pa]; rfl)
  constructor
  · rintro ⟨m', returned, linear⟩
    obtain rfl := returned.unique returns
    refine ⟨count.mp ?_, mapped.physical_of_linear laid' range linear⟩
    by_contra many
    have lost := mapped.first_lost laid' range (Nat.lt_of_not_le many)
    cases (linear.first range).symm.trans lost
  · rintro ⟨size, physical⟩
    exact ⟨_, returns, mapped.linear laid' range (count.mpr size) physical⟩

theorem bareTables_physical : LaidOut bareMemory bareTables.physical kernelPages := bareTables_laidOut

theorem bareTables_range {ramSize : Word} (pages : ramSize.toNat % 4096 = 0) (positive : 0 < ramSize.toNat)
    (small : ramSize.toNat ≤ 2 ^ 30) : NormalRange bareTables ramSize := by
  have start : bareTables.startVa.toNat = 0xFFFFF00000000000 := rfl
  refine ⟨by decide, by decide, pages, positive, ?_⟩
  rw [start]
  omega

theorem normalMapKernel4KB_linear_iff_one_page :
    (∃ m', Returns (fun fuel => normalMapKernel4KB fuel bareMemory bareTables 0x1000 0) m' ∧
      LinearMap m' bareTables 0x1000) ↔
    (0x1000 : Word).toNat ≤ 2 ^ 30 - 2 ^ 22 ∧ bareTables.startPa.toNat + (0x1000 : Word).toNat ≤ 2 ^ 48 :=
  normalMapKernel4KB_linear_iff bareTables_physical (fun _ _ _ => rfl)
    (bareTables_range (by decide) (by decide) (by decide)) 0

/-- 511 blocks from the start of a gigabyte: the first one is not translated. -/
theorem first_block_lost : ∃ m',
    Returns (fun fuel => normalMapKernel4KB fuel bareMemory bareTables 0x3FE00000 0) m' ∧
      walk m'.word bareTables.pgd bareTables.startVa = none ∧ ¬ LinearMap m' bareTables 0x3FE00000 := by
  have range : NormalRange bareTables 0x3FE00000 := bareTables_range (by decide) (by decide) (by decide)
  have blocks : blockCount 0x3FE00000 = 511 := by decide
  have mapped : NormalMapped _ bareTables 513 ((0x3FE00000 : Word).toNat / 4096) :=
    normalMapped bareTables_physical (fun _ _ _ => rfl) (by decide) (by decide)
  have laid := bareTables_physical.of_pa ((pageTurns_pa bareTables _ ((0x3FE00000 : Word).toNat / 4096)).trans
    (linkTurns_pa bareTables (linkRoot bareTables bareMemory) 513))
  have turns : 513 = blockCount 0x3FE00000 + 2 := by rw [blocks]
  rw [turns] at mapped laid
  have lost := mapped.first_lost laid range (by rw [blocks]; decide)
  refine ⟨_, ⟨_, fun fuel enough => normalMapKernel4KB_eq range 0 enough⟩, lost, fun linear => ?_⟩
  cases (linear.first range).symm.trans lost

end Linear

end RealmVm
