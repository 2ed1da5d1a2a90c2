import RealmVm.Boot.AddressSpace
import RealmVm.Elf.Segment
import RealmVm.Heap.HeapRuns
import RealmVm.User.FileData

/-! Where the VMM finds the kernel's memory: what `get_physical_address` gives after the boot, without the shared bit. -/
namespace RealmVm

open Lib Lib.Bits

section Address

/-- The shared bit comes off an address below it. -/
theorem and_not_bit {x bit : Word} {n : Nat} (power : bit.toNat = 2 ^ n) (below : x.toNat < 2 ^ n) :
    x &&& ~~~bit = x ∧ (x ||| bit) &&& ~~~bit = x := by
  have apart : ∀ i, (x.getLsbD i && bit.getLsbD i) = false := by
    intro i
    rw [BitVec.getLsbD, BitVec.getLsbD, power, Nat.testBit_two_pow]
    cases decEq n i with
    | isTrue same => rw [← same, Nat.testBit_lt_two_pow below, Bool.false_and]
    | isFalse other => rw [decide_eq_false other, Bool.and_false]
  constructor
  · apply BitVec.eq_of_getLsbD_eq
    intro i small
    have bits := apart i
    rw [BitVec.getLsbD_and, BitVec.getLsbD_not, decide_eq_true small, Bool.true_and]
    revert bits
    cases x.getLsbD i <;> cases bit.getLsbD i <;> decide
  · apply BitVec.eq_of_getLsbD_eq
    intro i small
    have bits := apart i
    rw [BitVec.getLsbD_and, BitVec.getLsbD_or, BitVec.getLsbD_not, decide_eq_true small, Bool.true_and]
    revert bits
    cases x.getLsbD i <;> cases bit.getLsbD i <;> decide

theorem leafEntry_accessed (pa : Word) (flags isDev : CInt) : (leafEntry pa flags isDev).getLsbD 10 = true := by
  rw [getLsbD_leafEntry pa flags isDev (by decide) (by decide), leafAttributes, BitVec.getLsbD_or]
  split
  · rw [(by decide : (ptNx ||| ptDev.signExtend 64 ||| ptAf.signExtend 64).getLsbD 10 = true), Bool.or_true]
  · rw [(by decide : ((ptMem ||| ptAf).signExtend 64).getLsbD 10 = true), Bool.or_true]

/-- What EL1 may read is what has a page there. -/
theorem Mmu.permits_leaf {mmu : Mmu} {va pgd pa : Word} {flags isDev : CInt} {n : Nat} (base : mmu.base va = some pgd)
    (leaf : walkLeaf mmu.word pgd va = some ⟨leafEntry pa flags isDev, n⟩) : mmu.permits .el1 false va = true := by
  have accessed := leafEntry_accessed pa flags isDev
  simp only [Mmu.permits, base, leaf, accessed]
  rfl

/-- `get_physical_address` joins the page to the offset, whatever the attributes are. -/
theorem getPhysicalAddress_eq {mmu : Mmu} {va page : Word} (permitted : mmu.permits .el1 false va = true)
    (translated : mmu.translate va = some (page + BitVec.ofNat 64 (va.toNat % 4096))) (aligned : page.toNat % 4096 = 0)
    (output : page.toNat < 2 ^ 48) (attributes shared : Word) :
    getPhysicalAddress ⟨mmu.parEl1 attributes, shared⟩ va = page ||| (va &&& 0xFFF) := by
  have place : (page + BitVec.ofNat 64 (va.toNat % 4096)).toNat = page.toNat + va.toNat % 4096 := by
    rw [BitVec.toNat_add, BitVec.toNat_ofNat]
    omega
  have inside : (page + BitVec.ofNat 64 (va.toNat % 4096)) &&& 0x0000FFFFFFFFF000 = page := by
    have mask : (0x0000FFFFFFFFF000 : Word) = BitVec.ofNat 64 (2 ^ 48 - 1) &&& ~~~BitVec.ofNat 64 (2 ^ 12 - 1) := by
      decide
    have bound : (page + BitVec.ofNat 64 (va.toNat % 4096)) &&& BitVec.ofNat 64 (2 ^ 48 - 1) =
        page + BitVec.ofNat 64 (va.toNat % 4096) := by
      apply BitVec.eq_of_toNat_eq
      have low := toNat_field (page + BitVec.ofNat 64 (va.toNat % 4096)) 0 48 (by decide)
      rw [BitVec.ushiftRight_zero] at low
      rw [low, place]
      omega
    rw [mask, ← BitVec.and_assoc, bound]
    apply BitVec.eq_of_toNat_eq
    rw [toNat_and_not_mask, place]
    omega
  have result : mmu.parEl1 attributes va = (page &&& 0x0000FFFFFFFFF000) ||| (attributes &&& 0xFF00000000000FFE) := by
    rw [Mmu.parEl1, if_pos permitted, translated]
    simp only [inside, page_mask aligned output]
  have success : mmu.parEl1 attributes va &&& (1 : Word) = 0#64 := by
    rw [result, and_or_mask page attributes 0#64 (by decide) (by decide), BitVec.and_zero]
  have kept : (mmu.parEl1 attributes va &&& ~~~(0xFFF : Word)) &&& ~~~((0xFF : Word) <<< 56) = page := by
    rw [result, BitVec.and_assoc, and_or_mask page attributes 0x0000FFFFFFFFF000 (by decide) (by decide),
      page_mask aligned output]
  have found : ¬ mmu.parEl1 attributes va &&& 1 ≠ 0 := fun failed => failed success
  have offset : (va &&& (0xFFF : Word)) &&& ~~~((0xFF : Word) <<< 56) = va &&& 0xFFF := by
    rw [BitVec.and_assoc]
    rfl
  simp only [getPhysicalAddress, translateVaToPa, if_neg found]
  rw [BitVec.and_comm, BitVec.and_or_distrib_left, BitVec.and_comm _ (_ &&& _), BitVec.and_comm _ (va &&& _), kept, offset]

end Address

namespace KernelImage

variable {k : KernelImage} {m m' : Memory}

/-- Wherever RAM is mapped, shared or not, the VMM finds it as far behind the load address as the kernel has it behind
its base, whatever process runs. -/
theorem AddressMap.hostAddress_ram (map : k.AddressMap m') (placed : k.Placed m) (ttbr0 attributes : Word) {n : Nat}
    (near : n < 2 ^ 30) {x : BootPage} (found : k.page (n / 4096) = some x)
    (ram : x.pa = k.currentPaBase + BitVec.ofNat 64 (4096 * (n / 4096)) ∨
      x.pa = k.currentPaBase + BitVec.ofNat 64 (4096 * (n / 4096)) + k.sharedBit) :
    hostAddress ⟨Mmu.parEl1 ⟨m'.word, ttbr0, k.upperTables.pgd⟩ attributes, k.sharedBit⟩
      (kernelVaBase + BitVec.ofNat 64 n) = k.currentPaBase + BitVec.ofNat 64 n := by
  have origin : kernelVaBase.toNat = 0xFFFFF00000000000 := rfl
  obtain ⟨_, _, _, _, _, _, _, _, _, _, physical, _⟩ := k.bounds
  obtain ⟨aligned, output, _⟩ := placed.page_proper (by omega) found
  obtain ⟨_, _, _, _, _, _, _, alignedP, _⟩ := k.aligned
  have place : (kernelVaBase + BitVec.ofNat 64 n).toNat = kernelVaBase.toNat + n := by
    rw [BitVec.toNat_add, BitVec.toNat_ofNat]
    omega
  have away : distance k.upperTables (kernelVaBase + BitVec.ofNat 64 n) = n := by
    rw [distance_upper]
    bv_omega
  have root : Mmu.base ⟨m'.word, ttbr0, k.upperTables.pgd⟩ (kernelVaBase + BitVec.ofNat 64 n) = some k.upperTables.pgd := by
    have start := placed.upper.aligned .pgd
    have bounded : (k.realm .pgd).toNat + 1 * 4096 ≤ 2 ^ 48 := placed.upper.bounded .pgd
    exact base_upper start (by show (k.realm .pgd).toNat < 2 ^ 48; omega) (by omega)
  have leaf := map.leaf (kernelVaBase + BitVec.ofNat 64 n) (by omega)
  have address := map.address (kernelVaBase + BitVec.ofNat 64 n) (by omega)
  rw [away, found, Option.map_some] at leaf address
  have permitted := Mmu.permits_leaf root leaf
  have translated : Mmu.translate ⟨m'.word, ttbr0, k.upperTables.pgd⟩ (kernelVaBase + BitVec.ofNat 64 n) =
      some (x.pa + BitVec.ofNat 64 ((kernelVaBase + BitVec.ofNat 64 n).toNat % 4096)) := by
    rw [Mmu.translate, root]
    exact address
  have offset : ((kernelVaBase + BitVec.ofNat 64 n) &&& 0xFFF).toNat = n % 4096 := by
    have low := toNat_field (kernelVaBase + BitVec.ofNat 64 n) 0 12 (by decide)
    rw [BitVec.ushiftRight_zero] at low
    have mask : (0xFFF : Word) = BitVec.ofNat 64 (2 ^ 12 - 1) := rfl
    rw [mask, low, place]
    omega
  have start : (k.currentPaBase + BitVec.ofNat 64 (4096 * (n / 4096))).toNat =
      k.currentPaBase.toNat + 4096 * (n / 4096) := by
    rw [BitVec.toNat_add, BitVec.toNat_ofNat]
    omega
  have joined : (k.currentPaBase + BitVec.ofNat 64 (4096 * (n / 4096))) ||| ((kernelVaBase + BitVec.ofNat 64 n) &&& 0xFFF) =
      k.currentPaBase + BitVec.ofNat 64 n := by
    apply BitVec.eq_of_toNat_eq
    rw [toNat_or_low _ _ 12 (by omega) (by omega), start, offset, BitVec.toNat_add, BitVec.toNat_ofNat]
    omega
  obtain ⟨b, _, power, above⟩ := placed.shared
  have below : (k.currentPaBase + BitVec.ofNat 64 n).toNat < 2 ^ b := by
    rw [BitVec.toNat_add, BitVec.toNat_ofNat]
    omega
  obtain ⟨alone, stripped⟩ := and_not_bit power below
  rw [hostAddress, getPhysicalAddress_eq permitted translated aligned output attributes]
  rcases ram with plain | shared
  · rw [plain, joined]
    exact alone
  · obtain ⟨same, _, _⟩ := placed.sharedAddress (a := k.currentPaBase + BitVec.ofNat 64 (4096 * (n / 4096))) (by omega)
    rw [shared, ← same, BitVec.or_assoc, BitVec.or_comm k.sharedBit, ← BitVec.or_assoc, joined]
    exact stripped

end KernelImage

section Heaps

/- The list and the limits of a heap are where they were. -/
structure Heap.SamePlace (h h' : Heap) : Prop where
  head : h'.head = h.head
  heapStart : h'.brk.heapStart = h.brk.heapStart
  heapSize : h'.brk.heapSize = h.brk.heapSize

theorem Heap.SamePlace.refl (h : Heap) : h.SamePlace h := ⟨rfl, rfl, rfl⟩

theorem Heap.SamePlace.trans {h h' h'' : Heap} (first : h.SamePlace h') (second : h'.SamePlace h'') : h.SamePlace h'' :=
  ⟨second.head.trans first.head, second.heapStart.trans first.heapStart, second.heapSize.trans first.heapSize⟩

theorem sbrk_place (shared : Bool) (b : HeapBreak) (length : Word) :
    (sbrk shared b length).2.heapStart = b.heapStart ∧ (sbrk shared b length).2.heapSize = b.heapSize := by
  cases shared with
  | true =>
    simp only [sbrk, if_true, sharedSbrk, sbrkDown]
    split
    · exact ⟨rfl, rfl⟩
    · split
      · exact ⟨rfl, rfl⟩
      · split
        · exact ⟨rfl, rfl⟩
        · split
          · exact ⟨rfl, rfl⟩
          · exact ⟨rfl, rfl⟩
  | false =>
    simp only [sbrk, Bool.false_eq_true, if_false, kSbrk, sbrkDown]
    split
    · exact ⟨rfl, rfl⟩
    · split
      · exact ⟨rfl, rfl⟩
      · split
        · exact ⟨rfl, rfl⟩
        · exact ⟨rfl, rfl⟩

theorem malloc_place {fuel : Nat} {shared : Bool} {m m' : HeapMemory} {h h' : Heap} {size p : Word}
    (returned : malloc fuel shared m h size = some (p, m', h')) : h.SamePlace h' := by
  obtain ⟨start, limit⟩ := sbrk_place shared h.brk (allocSize size)
  have alloc : align (size + sizeofMemChunk) 8 = allocSize size := rfl
  unfold malloc at returned
  simp only [alloc] at returned
  split at returned
  · cases returned
    exact .refl h
  · split at returned
    · cases returned
    · split at returned
      · split at returned
        · split at returned
          · cases returned
            exact .refl h
          · cases returned
            exact ⟨rfl, rfl, rfl⟩
        · cases returned
          exact ⟨rfl, rfl, rfl⟩
      · split at returned
        · cases returned
          exact ⟨rfl, start, limit⟩
        · cases returned
          exact ⟨rfl, start, limit⟩

variable {s s' : HeapHistory} {m : HeapMemory} {p q : HeapBreak}

theorem heapStep_place {call : HeapCall} (step : heapStep s call s') (shared : Bool) :
    (s.heap shared).SamePlace (s'.heap shared) := by
  obtain ⟨_, performs⟩ := step
  cases call with
  | malloc other size =>
    obtain ⟨p, m', h', ⟨n, returned⟩, rfl⟩ := performs
    have kept := malloc_place (returned (n + 1) (Nat.lt_succ_self n))
    cases decEq shared other with
    | isTrue same =>
      subst same
      simp only [Function.update_self]
      exact kept
    | isFalse different =>
      simp only [Function.update_of_ne different]
      exact .refl _
  | free b =>
    obtain ⟨m', _, rfl⟩ := performs
    exact .refl _
  | store b index v =>
    cases performs
    exact .refl _

theorem heapRun_place {calls : List HeapCall} (run : Run safeHeapStep s calls s') (shared : Bool) :
    (s.heap shared).SamePlace (s'.heap shared) := by
  induction run with
  | nil s => exact .refl _
  | cons step _ ih => exact (heapStep_place step.2 shared).trans ih

/-- Live blocks lie in their heap. -/
theorem live_inside (readyP : p.Ready) (readyQ : q.Ready)
    (arenas : p.heapStart.toNat + p.heapSize.toNat ≤ q.heapStart.toNat ∨
      q.heapStart.toNat + q.heapSize.toNat ≤ p.heapStart.toNat)
    {calls : List HeapCall} (run : Run safeHeapStep (HeapHistory.init m p q) calls s) {b : Block} (live : b ∈ s.live) :
    (if b.shared then q else p).heapStart.toNat ≤ b.start ∧
      b.stop ≤ (if b.shared then q else p).heapStart.toNat + (if b.shared then q else p).heapSize.toNat := by
  obtain ⟨m', state, _⟩ := init_state m readyP readyQ arenas
  have ok : HeapsOk s := run.invariant (fun _ _ _ ok step => safe_step ok step) (init_ok m readyP readyQ arenas)
  obtain ⟨low, high⟩ := (ok.each b.shared).bounds (mem_blocksOf live)
  obtain ⟨head, start, size⟩ := heapRun_place run b.shared
  rw [Heap.top, start, size, state] at high
  rw [Heap.listStart, head, state] at low
  cases side : b.shared with
  | true =>
    simp only [side, if_true] at low high ⊢
    exact ⟨Nat.le_trans readyQ.inside low, high⟩
  | false =>
    simp only [side, Bool.false_eq_true, if_false] at low high ⊢
    exact ⟨Nat.le_trans readyP.inside low, high⟩

/-- Live blocks have no byte in common. -/
theorem live_spans_apart (ok : HeapsOk s) {b d : Block} (liveB : b ∈ s.live) (liveD : d ∈ s.live) (different : d ≠ b) :
    Disjoint (Bytes.span b.address b.size.toNat) (Bytes.span d.address d.size.toNat) := by
  have perm := List.perm_cons_erase liveB
  obtain ⟨fromB, _⟩ := List.pairwise_cons.mp ((perm.pairwise_iff Block.Apart.symm).mp ok.apart)
  have apart := fromB d ((List.mem_erase_of_ne different).mpr liveD)
  have insideB := (ok.each b.shared).bounds (mem_blocksOf liveB)
  have insideD := (ok.each d.shared).bounds (mem_blocksOf liveD)
  have topB := (ok.each b.shared).noWrap
  have topD := (ok.each d.shared).noWrap
  rw [Set.disjoint_left]
  intro x first second
  have lowB : (x - b.address).toNat < b.size.toNat := first
  have lowD : (x - d.address).toNat < d.size.toNat := second
  unfold Block.Apart Block.stop Block.start at *
  bv_omega

end Heaps

namespace KernelImage

variable {k : KernelImage} {m m' : Memory}

/-- The pages of both heaps are RAM. -/
theorem Placed.page_heaps (placed : k.Placed m) (even : (k.sharedNsEnd - k.sharedNsStart).toNat % 0x2000 = 0) {n : Nat}
    (inside : (k.sharedNsStart - kernelVaBase).toNat ≤ n ∧
        n < (k.sharedNsStart - kernelVaBase).toNat + ((k.sharedNsEnd - k.sharedNsStart) / 2).toNat ∨
      (k.sharedNsEnd - kernelVaBase).toNat ≤ n ∧ n < (k.sharedNsEnd - kernelVaBase).toNat + kernelHeapSize.toNat) :
    n < 2 ^ 29 ∧ ∃ x, k.page (n / 4096) = some x ∧ (x.pa = k.currentPaBase + BitVec.ofNat 64 (4096 * (n / 4096)) ∨
      x.pa = k.currentPaBase + BitVec.ofNat 64 (4096 * (n / 4096)) + k.sharedBit) := by
  obtain ⟨_, _, _, _, _, _, _, order, _, _, _, _⟩ := k.bounds
  obtain ⟨_, _, _, _, alignedS, alignedE, _, _, _⟩ := k.aligned
  have origin : kernelVaBase.toNat = 0xFFFFF00000000000 := rfl
  have heaps := placed.heaps
  have pages := k.sharedPages_toNat
  have heapSize : kernelHeapSize.toNat = 0x1000000 := rfl
  have heapPages : MemoryLayout.heapPages.toNat = 0x1000 := by decide
  have room : (k.sharedNsEnd - kernelVaBase).toNat = k.sharedNsEnd.toNat - kernelVaBase.toNat ∧
      (k.sharedNsStart - kernelVaBase).toNat = k.sharedNsStart.toNat - kernelVaBase.toNat := by
    bv_omega
  have span : (k.sharedNsEnd - k.sharedNsStart).toNat = k.sharedNsEnd.toNat - k.sharedNsStart.toNat := by bv_omega
  have half : ((k.sharedNsEnd - k.sharedNsStart) / 2).toNat = (k.sharedNsEnd.toNat - k.sharedNsStart.toNat) / 2 := by
    rw [BitVec.toNat_udiv, span]
    rfl
  have low : n < 2 ^ 29 := by omega
  have notSyscall : n / 4096 ≠ 0x20001 := by omega
  have notUart : n / 4096 ≠ 0x20000 := by omega
  refine ⟨low, ?_⟩
  unfold page
  simp only [if_neg notSyscall, if_neg notUart]
  rcases inside with shared | heap
  · rw [if_pos (by omega)]
    exact ⟨_, rfl, Or.inr rfl⟩
  · rw [if_neg (by omega), if_pos (Or.inr (by omega))]
    exact ⟨_, rfl, Or.inl rfl⟩

theorem AddressMap.hostAddress_heap (map : k.AddressMap m') (placed : k.Placed m)
    (even : (k.sharedNsEnd - k.sharedNsStart).toNat % 0x2000 = 0) (ttbr0 attributes : Word) {a : Word}
    (inside : k.sharedBreak.heapStart.toNat ≤ a.toNat ∧
        a.toNat < k.sharedBreak.heapStart.toNat + k.sharedBreak.heapSize.toNat ∨
      k.heapBreak.heapStart.toNat ≤ a.toNat ∧ a.toNat < k.heapBreak.heapStart.toNat + k.heapBreak.heapSize.toNat) :
    hostAddress ⟨Mmu.parEl1 ⟨m'.word, ttbr0, k.upperTables.pgd⟩ attributes, k.sharedBit⟩ a =
      k.currentPaBase + (a - kernelVaBase) := by
  obtain ⟨origin, _, _, _, _, _, _, order, _, _, _, _⟩ := k.bounds
  simp only [MemoryLayout.sharedBreak, MemoryLayout.heapBreak] at inside
  have heaps := placed.heaps
  have place : kernelVaBase + BitVec.ofNat 64 (a - kernelVaBase).toNat = a := by
    rw [BitVec.ofNat_toNat, BitVec.setWidth_eq, BitVec.add_comm, BitVec.sub_add_cancel]
  have offsets : (k.sharedNsStart - kernelVaBase).toNat = k.sharedNsStart.toNat - kernelVaBase.toNat ∧
      (k.sharedNsEnd - kernelVaBase).toNat = k.sharedNsEnd.toNat - kernelVaBase.toNat ∧
      (a - kernelVaBase).toNat = a.toNat - kernelVaBase.toNat := by
    bv_omega
  obtain ⟨low, x, found, ram⟩ := placed.page_heaps even (n := (a - kernelVaBase).toNat) (by omega)
  have address := map.hostAddress_ram placed ttbr0 attributes (Nat.lt_trans low (by decide)) found ram
  rw [place, BitVec.ofNat_toNat, BitVec.setWidth_eq] at address
  exact address

/-- The kernel boots, and whatever process runs later, and whatever both heaps have served by then, the VMM finds each
block in one piece as far behind the load address as the kernel has it behind its base; those of the shared heap are in
one range, and no two blocks meet. -/
theorem booted_address_space (placed : k.Placed m) (room : 0xA000 ≤ (k.sharedNsEnd - k.sharedNsStart).toNat)
    (even : (k.sharedNsEnd - k.sharedNsStart).toNat % 0x2000 = 0) (ns realmFrames : KframeAlloc)
    (bitmapNs bitmap : Word → Byte) :
    ∃ m', Returns (fun fuel => k.boot fuel ns realmFrames bitmapNs bitmap m) m' ∧ k.AddressMap m' ∧
      ∀ ttbr0 attributes : Word, ∃ w : Window ⟨Mmu.parEl1 ⟨m'.word, ttbr0, k.upperTables.pgd⟩ attributes, k.sharedBit⟩,
        ∀ (memory : HeapMemory) (calls : List HeapCall) (s : HeapHistory),
          Run safeHeapStep (HeapHistory.init memory k.heapBreak k.sharedBreak) calls s → ∀ b ∈ s.live,
            (∀ i < b.size.toNat, hostAddress ⟨Mmu.parEl1 ⟨m'.word, ttbr0, k.upperTables.pgd⟩ attributes, k.sharedBit⟩
              (b.address + BitVec.ofNat 64 i) = k.currentPaBase + (b.address - kernelVaBase) + BitVec.ofNat 64 i) ∧
            (b.shared = true → w.Holds b.address b.size.toNat) ∧
            ∀ d ∈ s.live, d ≠ b → Disjoint (Bytes.span b.address b.size.toNat) (Bytes.span d.address d.size.toNat) := by
  obtain ⟨m', ran, map⟩ := placed.boots ns realmFrames bitmapNs bitmap
  obtain ⟨_, readyP, readyQ, arenas⟩ :=
    k.toMemoryLayout.heaps_ready room (k.enableMmap_eq ns realmFrames bitmapNs bitmap)
  have address := map.hostAddress_heap placed even
  have top := readyQ.noWrap
  refine ⟨m', ran, map, fun ttbr0 attributes => ⟨⟨k.sharedNsStart, k.sharedBreak.heapSize.toNat,
    k.currentPaBase + (k.sharedNsStart - kernelVaBase), by omega, fun i small => ?_⟩,
    fun memory calls s run b live => ?_⟩⟩
  · have start : k.sharedBreak.heapStart = k.sharedNsStart := rfl
    rw [start] at address top
    have place : (k.sharedNsStart + BitVec.ofNat 64 i).toNat = k.sharedNsStart.toNat + i := by
      rw [BitVec.toNat_add, BitVec.toNat_ofNat]
      omega
    rw [address ttbr0 attributes (Or.inl (by omega)), BitVec.add_assoc]
    congr 1
    bv_omega
  · have ok : HeapsOk s :=
      run.invariant (fun _ _ _ ok step => safe_step ok step) (init_ok memory readyP readyQ (Or.inr arenas))
    obtain ⟨low, high⟩ := live_inside readyP readyQ (Or.inr arenas) run live
    have small : b.stop < 2 ^ 64 := by
      refine Nat.lt_of_le_of_lt high ?_
      split
      · exact readyQ.noWrap
      · exact readyP.noWrap
    unfold Block.stop Block.start at *
    refine ⟨fun i inside => ?_, fun side => ⟨b.address.toNat - k.sharedNsStart.toNat, ?_, ?_⟩, fun d other different => ?_⟩
    · have place : (b.address + BitVec.ofNat 64 i).toNat = b.address.toNat + i := by
        rw [BitVec.toNat_add, BitVec.toNat_ofNat]
        omega
      have here : k.sharedBreak.heapStart.toNat ≤ (b.address + BitVec.ofNat 64 i).toNat ∧
          (b.address + BitVec.ofNat 64 i).toNat < k.sharedBreak.heapStart.toNat + k.sharedBreak.heapSize.toNat ∨
        k.heapBreak.heapStart.toNat ≤ (b.address + BitVec.ofNat 64 i).toNat ∧
          (b.address + BitVec.ofNat 64 i).toNat < k.heapBreak.heapStart.toNat + k.heapBreak.heapSize.toNat := by
        rw [place]
        cases side : b.shared with
        | true =>
          simp only [side, if_true] at low high
          exact Or.inl ⟨by omega, by omega⟩
        | false =>
          simp only [side, Bool.false_eq_true, if_false] at low high
          exact Or.inr ⟨by omega, by omega⟩
      rw [address ttbr0 attributes here, BitVec.add_assoc]
      congr 1
      bv_omega
    · simp only [side, if_true] at low high
      show b.address.toNat - k.sharedBreak.heapStart.toNat + b.size.toNat ≤ k.sharedBreak.heapSize.toNat
      omega
    · simp only [side, if_true] at low
      have start : k.sharedBreak.heapStart = k.sharedNsStart := rfl
      rw [start] at low
      bv_omega
    · exact live_spans_apart ok live other different

end KernelImage

/- The heaps of `linkedImage`, with nothing on them. -/
def linkedHeaps : HeapHistory := .init (fun _ => 0) linkedImage.heapBreak linkedImage.sharedBreak

/- After a first request for 0x4fe0 bytes of shared memory. -/
def linkedBlock : HeapHistory :=
  ⟨(linkedHeaps.mem.setUsed 0xFFFFF00001400000 1).setAddress 0xFFFFF00001400000 0xFFFFF00001400020, linkedHeaps.heap,
    [⟨true, 0xFFFFF00001400020, 0x4fe0⟩]⟩

theorem linkedBlock_run : Run safeHeapStep linkedHeaps [.malloc true 0x4fe0] linkedBlock := by
  have serves : linkedHeaps.Serves true 0x4fe0 :=
    ⟨[0xFFFFF00001400000], ⟨⟨rfl, rfl⟩, by decide⟩, 0xFFFFF00001400000, List.mem_singleton_self _, by decide⟩
  refine .cons ⟨Or.inr (Or.inl serves), by unfold HeapCall.Allowed; decide, 0xFFFFF00001400020, linkedBlock.mem,
    linkedHeaps.heap true, ⟨1, fun fuel more => ?_⟩, ?_⟩ (.nil linkedBlock)
  · obtain ⟨spare, rfl⟩ : ∃ spare, fuel = spare + 2 := ⟨fuel - 2, by omega⟩
    rfl
  · rw [Function.update_eq_self, if_neg (by decide)]
    rfl

/-- The VMM finds the block at its offset in RAM. -/
theorem booted_address_space_block : ∃ m', linkedImage.AddressMap m' ∧
    hostAddress ⟨Mmu.parEl1 ⟨m'.word, 0, linkedImage.upperTables.pgd⟩ 0, linkedImage.sharedBit⟩
      (0xFFFFF00001400020 + BitVec.ofNat 64 8) = 0x43400028 := by
  obtain ⟨m', _, map, heaps⟩ := KernelImage.booted_address_space linkedImage_placed (by decide) (by decide)
    ⟨0, 0, fun _ => 0, 0, 0⟩ ⟨0, 0, fun _ => 0, 0, 0⟩ (fun _ => 0) (fun _ => 0)
  obtain ⟨w, found⟩ := heaps 0 0
  obtain ⟨address, _⟩ := found (fun _ => 0) _ linkedBlock linkedBlock_run _ (List.mem_singleton_self _)
  exact ⟨m', map, (address 8 (by decide)).trans (by decide)⟩

end RealmVm
