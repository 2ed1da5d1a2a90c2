import RealmVm.Boot.HeapFrames
import RealmVm.Heap.HeapSteps
import RealmVm.Lib.Run

/-! Runs of `_malloc`, `_free` and the stores of their clients, from `heap_init` on. -/
namespace RealmVm

open Lib

/- A client may overwrite every word of its block. -/
inductive HeapCall where
  | malloc (shared : Bool) (size : Word)
  | free (b : Block)
  | store (b : Block) (index : Nat) (v : Word)

def HeapHistory.init (m : HeapMemory) (privateBreak sharedBreak : HeapBreak) : HeapHistory :=
  let out := heapInit m privateBreak sharedBreak
  ⟨out.2.1, fun shared => if shared then out.2.2.2 else out.2.2.1, []⟩

/-- Sizes are below 2^62, and only live blocks are freed or stored to. -/
def HeapCall.Allowed (s : HeapHistory) : HeapCall → Prop
  | malloc _ size => size.toNat < 2 ^ 62
  | free b => b ∈ s.live
  | store b index _ => b ∈ s.live ∧ 8 * index < b.size.toNat

def HeapCall.Performs (s : HeapHistory) (s' : HeapHistory) : HeapCall → Prop
  | malloc shared size => ∃ p m' h',
      Returns (fun fuel => RealmVm.malloc fuel shared s.mem (s.heap shared) size) (p, m', h') ∧
      s' = ⟨m', Function.update s.heap shared h', if p = 0 then s.live else ⟨shared, p, size⟩ :: s.live⟩
  | free b => ∃ m', Returns (fun fuel => RealmVm.free fuel s.mem (s.heap b.shared) b.address) m' ∧
      s' = ⟨m', s.heap, s.live.erase b⟩
  | store b index v =>
      s' = { s with mem := Function.update s.mem (b.address + 8 * BitVec.ofNat 64 index) v }

def heapStep (s : HeapHistory) (call : HeapCall) (s' : HeapHistory) : Prop :=
  call.Allowed s ∧ call.Performs s s'

/-- A request for nothing is safe, one that the list serves, and one for which the break
is far enough. -/
def HeapCall.Safe (s : HeapHistory) : HeapCall → Prop
  | malloc shared size => size = 0 ∨ s.Serves shared size ∨ s.Grows shared size
  | _ => True

def safeHeapStep (s : HeapHistory) (call : HeapCall) (s' : HeapHistory) : Prop :=
  call.Safe s ∧ heapStep s call s'

variable {m : HeapMemory} {s s' : HeapHistory}

theorem heapStep_functional {call : HeapCall} {t t' : HeapHistory} (first : heapStep s call t)
    (second : heapStep s call t') : t = t' := by
  obtain ⟨_, first⟩ := first
  obtain ⟨_, second⟩ := second
  cases call with
  | malloc shared size =>
    obtain ⟨p, m₁, h₁, returned, rfl⟩ := first
    obtain ⟨p', m₂, h₂, returned', rfl⟩ := second
    obtain ⟨rfl, rest⟩ := Prod.mk.inj (returned.unique returned')
    obtain ⟨rfl, rfl⟩ := Prod.mk.inj rest
    rfl
  | free b =>
    obtain ⟨m₁, returned, rfl⟩ := first
    obtain ⟨m₂, returned', rfl⟩ := second
    rw [returned.unique returned']
  | store b index v => exact first.trans second.symm

/-- A store of a client changes no header on a list. -/
theorem HeapsOk.store_header (ok : HeapsOk s) {b : Block} (member : b ∈ s.live) {index : Nat}
    (inside : 8 * index < b.size.toNat) (v : Word) {shared : Bool} {xs : List Word}
    (list : ChunkList s.mem (s.heap shared).head (s.heap shared).listStart (s.heap shared).listEnd xs) {c : Word}
    (onList : c ∈ xs) :
    HeapMemory.chunk (Function.update s.mem (b.address + 8 * BitVec.ofNat 64 index) v) c = s.mem.chunk c := by
  have clear := ok.clear member list.chain onList
  have own := ok.each b.shared
  have bounds := own.bounds (mem_blocksOf member)
  have noWrap := own.noWrap
  have offset : (8 * BitVec.ofNat 64 index).toNat = 8 * index := by
    have small := b.size.isLt
    bv_omega
  have place : (b.address + 8 * BitVec.ofNat 64 index).toNat = b.address.toNat + 8 * index := by
    unfold Block.stop at bounds
    rw [BitVec.toNat_add, offset]
    omega
  have header := (list.header c onList)
  have bound := (list.bounds onList).2
  have below := list.below
  unfold Block.stop Block.start at clear
  exact HeapMemory.chunk_update (by bv_omega)

theorem store_step (ok : HeapsOk s) {b : Block} (member : b ∈ s.live) {index : Nat} (inside : 8 * index < b.size.toNat)
    (v : Word) : HeapsOk { s with mem := Function.update s.mem (b.address + 8 * BitVec.ofNat 64 index) v } :=
  ⟨fun shared => (ok.each shared).frame fun _ list _ onList => ok.store_header member inside v list onList, ok.arenas,
    ok.apart, ok.sized⟩

/-- One step where the heap is in order: it goes through, and the heap stays in order. -/
theorem heap_step (ok : HeapsOk s) {call : HeapCall} (allowed : call.Allowed s) (safe : call.Safe s) :
    ∃ s', heapStep s call s' ∧ HeapsOk s' := by
  cases call with
  | malloc shared size =>
    cases Nat.eq_zero_or_pos size.toNat with
    | inl none =>
      obtain rfl : size = 0 := BitVec.eq_of_toNat_eq none
      have same : (⟨s.mem, Function.update s.heap shared (s.heap shared), s.live⟩ : HeapHistory) = s := by
        rw [Function.update_eq_self]
      exact ⟨s, ⟨allowed, 0, s.mem, s.heap shared, ⟨0, fun fuel _ => rfl⟩, same.symm⟩, ok⟩
    | inr positive =>
      have some : size ≠ 0 := by bv_omega
      obtain ⟨p, m', h', returned, proper, after⟩ := malloc_step ok positive allowed (safe.resolve_left some)
      refine ⟨_, ⟨allowed, p, m', h', returned, rfl⟩, ?_⟩
      rwa [if_neg proper]
  | free b =>
    obtain ⟨m', returned, after⟩ := free_step ok allowed
    exact ⟨_, ⟨allowed, m', returned, rfl⟩, after⟩
  | store b index v => exact ⟨_, ⟨allowed, rfl⟩, store_step ok allowed.1 allowed.2 v⟩

theorem safe_step {call : HeapCall} (ok : HeapsOk s) (step : safeHeapStep s call s') : HeapsOk s' := by
  obtain ⟨safe, allowed, performs⟩ := step
  obtain ⟨t, other, after⟩ := heap_step ok allowed safe
  exact heapStep_functional other ⟨allowed, performs⟩ ▸ after

/-- The break stands in its heap, with 0x5000 bytes above it. -/
structure HeapBreak.Ready (b : HeapBreak) : Prop where
  inside : b.heapStart.toNat ≤ b.sbrk.toNat
  proper : 0 < b.sbrk.toNat
  room : b.sbrk.toNat + 0x5000 ≤ b.heapStart.toNat + b.heapSize.toNat
  noWrap : b.heapStart.toNat + b.heapSize.toNat < 2 ^ 64

/-- The break moves up by 0x2000 bytes, and the list is one unused chunk of 0x5000. -/
theorem initHeap_spec (shared : Bool) (m : HeapMemory) {b : HeapBreak} (ready : b.Ready) :
    ∃ m', initHeap shared m b = (true, m', ⟨b.sbrk, b.sbrk, { b with sbrk := b.sbrk + heapMinSize }⟩) ∧
      m'.chunk b.sbrk = { m.chunk b.sbrk with size := 0x5000, used := 0, next := 0 } ∧
      ∀ d, HeadersApart b.sbrk d → m'.chunk d = m.chunk d := by
  obtain ⟨inside, proper, room, noWrap⟩ := ready
  have min : heapMinSize.toNat = 0x2000 := rfl
  have up := sbrk_up shared heapMinSize (by omega) (by omega) inside (by omega) noWrap
  have moved : b.sbrk + heapMinSize ≠ 0 := by
    unfold heapMinSize
    bv_omega
  have span : b.sbrk + heapMinSize + 1 - b.sbrk = 0x2001 := by
    unfold heapMinSize
    bv_omega
  have size : heapMinSize + pageUp 0x2001 = 0x5000 := by decide
  refine ⟨((m.setSize b.sbrk 0x5000).setUsed b.sbrk 0).setNext b.sbrk 0, ?_, by simp, fun d apart => ?_⟩
  · simp only [initHeap, sbrk_zero, up, if_neg moved, span, size]
  · rw [HeapMemory.chunk_setNext_apart apart, HeapMemory.chunk_setUsed_apart apart,
      HeapMemory.chunk_setSize_apart apart]

theorem ready_ok {b : HeapBreak} (ready : b.Ready) {c : Chunk}
    (header : m.chunk b.sbrk = { c with size := 0x5000, used := 0, next := 0 }) :
    HeapOk m ⟨b.sbrk, b.sbrk, { b with sbrk := b.sbrk + heapMinSize }⟩ [] := by
  obtain ⟨inside, proper, room, noWrap⟩ := ready
  have size : (m.chunk b.sbrk).size = 0x5000 := by rw [header]
  have last : m.next b.sbrk = 0 := by rw [HeapMemory.next, header]
  have unused : (m.chunk b.sbrk).used = 0 := by rw [header]
  refine ⟨⟨[b.sbrk], ⟨⟨⟨rfl, last⟩, ?_⟩, ⟨rfl, ?_⟩, ?_, ?_, ?_⟩, by simp⟩, room, noWrap, ?_⟩
  · intro null
    have zero : b.sbrk = 0 := (List.mem_singleton.mp null).symm
    rw [zero] at proper
    exact absurd proper (Nat.lt_irrefl 0)
  · exact congrArg (b.sbrk.toNat + ·) (congrArg BitVec.toNat size)
  · intro x hx
    rw [List.mem_singleton.mp hx, size]
    decide
  · intro x hx used
    rw [List.mem_singleton.mp hx] at used
    exact absurd unused used
  · exact Nat.lt_of_le_of_lt room noWrap
  · simp only [heapMinSize]
    bv_omega

/-- `heap_init` leaves one unused chunk on either list. -/
theorem init_state (m : HeapMemory) {p q : HeapBreak} (readyP : p.Ready) (readyQ : q.Ready)
    (arenas : p.heapStart.toNat + p.heapSize.toNat ≤ q.heapStart.toNat ∨
      q.heapStart.toNat + q.heapSize.toNat ≤ p.heapStart.toNat) :
    ∃ m', HeapHistory.init m p q = ⟨m', fun shared => if shared then
        ⟨q.sbrk, q.sbrk, { q with sbrk := q.sbrk + heapMinSize }⟩ else
        ⟨p.sbrk, p.sbrk, { p with sbrk := p.sbrk + heapMinSize }⟩, []⟩ ∧
      (∃ c : Chunk, m'.chunk p.sbrk = { c with size := 0x5000, used := 0, next := 0 }) ∧
      ∃ c : Chunk, m'.chunk q.sbrk = { c with size := 0x5000, used := 0, next := 0 } := by
  obtain ⟨m₁, first, headerP, _⟩ := initHeap_spec false m readyP
  obtain ⟨m₂, second, headerQ, frame⟩ := initHeap_spec true m₁ readyQ
  have apart : HeadersApart q.sbrk p.sbrk := by
    obtain ⟨insideP, _, roomP, noWrapP⟩ := readyP
    obtain ⟨insideQ, _, roomQ, noWrapQ⟩ := readyQ
    cases arenas with
    | inl before => exact (headersApart_of_le (by omega) (by omega)).symm
    | inr behind => exact headersApart_of_le (by omega) (by omega)
  refine ⟨m₂, ?_, ⟨_, (frame _ apart).trans headerP⟩, _, headerQ⟩
  simp only [HeapHistory.init, heapInit, first, second]

/-- `heap_init` puts two heaps that do not overlap in order. -/
theorem init_ok (m : HeapMemory) {p q : HeapBreak} (readyP : p.Ready) (readyQ : q.Ready)
    (arenas : p.heapStart.toNat + p.heapSize.toNat ≤ q.heapStart.toNat ∨
      q.heapStart.toNat + q.heapSize.toNat ≤ p.heapStart.toNat) : HeapsOk (HeapHistory.init m p q) := by
  obtain ⟨m', state, ⟨c, headerP⟩, d, headerQ⟩ := init_state m readyP readyQ arenas
  rw [state]
  refine ⟨fun shared => ?_, ?_, List.Pairwise.nil, by simp⟩
  · cases shared with
    | true => exact ready_ok readyQ headerQ
    | false => exact ready_ok readyP headerP
  · have insideP := readyP.inside
    have insideQ := readyQ.inside
    simp only [Bool.false_eq_true, if_false, if_true, Heap.top, Heap.listStart]
    omega

/-- While every `_malloc` is safe, the live blocks are apart from each other and from the
headers on both lists, and every further safe call goes through. -/
theorem heaps_keep_blocks_apart {p q : HeapBreak} (readyP : p.Ready) (readyQ : q.Ready)
    (arenas : p.heapStart.toNat + p.heapSize.toNat ≤ q.heapStart.toNat ∨
      q.heapStart.toNat + q.heapSize.toNat ≤ p.heapStart.toNat)
    {calls : List HeapCall} (run : Run safeHeapStep (HeapHistory.init m p q) calls s) :
    s.live.Pairwise Block.Apart ∧
      (∀ shared, ∃ xs, Chain s.mem.next 0 (s.heap shared).head xs ∧
        ∀ b ∈ s.live, ∀ c ∈ xs, b.stop ≤ c.toNat ∨ c.toNat + 32 ≤ b.start) ∧
      ∀ call : HeapCall, call.Allowed s → call.Safe s → ∃ s', safeHeapStep s call s' := by
  have ok : HeapsOk s := run.invariant (fun _ _ _ ok step => safe_step ok step) (init_ok m readyP readyQ arenas)
  refine ⟨ok.apart, fun shared => ?_, fun call allowed safe => ?_⟩
  · obtain ⟨xs, list, _⟩ := (ok.each shared).list
    exact ⟨xs, list.chain, fun b member c onList => ok.clear member list.chain onList⟩
  · obtain ⟨s', step, _⟩ := heap_step ok allowed safe
    exact ⟨s', safe, step⟩

/- The breaks as `enable_mmap` leaves them, at the starts of the heaps. -/
def MemoryLayout.heapBreak (l : MemoryLayout) : HeapBreak :=
  ⟨l.sharedNsEnd, kernelHeapSize, l.sharedNsEnd, l.sharedNsEnd⟩

def MemoryLayout.sharedBreak (l : MemoryLayout) : HeapBreak :=
  ⟨l.sharedNsStart, (l.sharedNsEnd - l.sharedNsStart) / 2, l.sharedNsStart, l.sharedNsStart⟩

/-- With ten pages of shared memory the boot code leaves two breaks from which `heap_init`
can start. -/
theorem MemoryLayout.heaps_ready (l : MemoryLayout) (room : 0xA000 ≤ (l.sharedNsEnd - l.sharedNsStart).toNat)
    {ns realm : KframeAlloc} {bitmapNs bitmap : Word → Byte} {b : Booted}
    (booted : enableMmap l ns realm bitmapNs bitmap = some b) :
    (b.heap = l.heapBreak ∧ b.sharedHeap = l.sharedBreak) ∧ l.heapBreak.Ready ∧ l.sharedBreak.Ready ∧
      l.sharedBreak.heapStart.toNat + l.sharedBreak.heapSize.toNat ≤ l.heapBreak.heapStart.toNat := by
  rw [l.enableMmap_eq] at booted
  have bounds := l.bounds
  have heapSize : kernelHeapSize.toNat = 0x1000000 := rfl
  have span : (l.sharedNsEnd - l.sharedNsStart).toNat = l.sharedNsEnd.toNat - l.sharedNsStart.toNat := by bv_omega
  have half : ((l.sharedNsEnd - l.sharedNsStart) / 2).toNat = (l.sharedNsEnd.toNat - l.sharedNsStart.toNat) / 2 := by
    rw [BitVec.toNat_udiv, span]
    rfl
  cases Option.some.inj booted
  refine ⟨⟨rfl, rfl⟩, ⟨Nat.le_refl _, ?_, ?_, ?_⟩, ⟨Nat.le_refl _, ?_, ?_, ?_⟩, ?_⟩
  all_goals simp only [heapBreak, sharedBreak, heapSize, half]
  all_goals omega

def bootHeaps : HeapHistory := .init (fun _ => 0) linkedLayout.heapBreak linkedLayout.sharedBreak

theorem linkedLayout_ready : linkedLayout.heapBreak.Ready ∧ linkedLayout.sharedBreak.Ready :=
  ⟨⟨by decide, by decide, by decide, by decide⟩, ⟨by decide, by decide, by decide, by decide⟩⟩

def privateBase : Word := 0xFFFFF00000600000

theorem bootHeaps_serves : bootHeaps.Serves false 24 :=
  ⟨[privateBase], ⟨⟨rfl, rfl⟩, by decide⟩, privateBase, List.mem_singleton_self _, by decide⟩

theorem bootHeaps_allowed : HeapCall.Allowed bootHeaps (.malloc false 24) := by
  unfold HeapCall.Allowed
  decide

/-- A first block of 24 bytes. -/
theorem heaps_keep_blocks_apart_first : ∃ s, Run safeHeapStep bootHeaps [.malloc false 24] s ∧
    s.live.Pairwise Block.Apart := by
  obtain ⟨s, step, _⟩ := heap_step (init_ok _ linkedLayout_ready.1 linkedLayout_ready.2 (by decide)) bootHeaps_allowed
    (Or.inr (Or.inl bootHeaps_serves))
  have run : Run safeHeapStep bootHeaps [.malloc false 24] s :=
    .cons ⟨Or.inr (Or.inl bootHeaps_serves), step⟩ (.nil s)
  exact ⟨s, run, (heaps_keep_blocks_apart linkedLayout_ready.1 linkedLayout_ready.2 (by decide) run).1⟩

/- After a first request for 0x4fe0 bytes, which takes all that the list claims to have. -/
def wholeList : HeapHistory :=
  ⟨(bootHeaps.mem.setUsed privateBase 1).setAddress privateBase (privateBase + 32), bootHeaps.heap,
    [⟨false, privateBase + 32, 0x4fe0⟩]⟩

theorem wholeList_step : heapStep bootHeaps (.malloc false 0x4fe0) wholeList := by
  refine ⟨by unfold HeapCall.Allowed; decide, privateBase + 32, wholeList.mem, bootHeaps.heap false,
    ⟨1, fun fuel more => ?_⟩, ?_⟩
  · obtain ⟨spare, rfl⟩ : ∃ spare, fuel = spare + 2 := ⟨fuel - 2, by omega⟩
    rfl
  · rw [Function.update_eq_self, if_neg (by decide)]
    rfl

/-- The break has moved by 0x2000 only, so the second block is inside the first. -/
theorem growth_overlaps : ∃ s, Run heapStep bootHeaps [.malloc false 0x4fe0, .malloc false 16] s ∧
    ¬ s.live.Pairwise Block.Apart := by
  let grown : Word := privateBase + 0x2030
  let out := mallocSuccess
    ((((wholeList.mem.setSize grown 48).setNext grown 0).setUsed grown 0).setAddress grown 0)
    { wholeList.heap false with tail := grown, brk := { (wholeList.heap false).brk with sbrk := grown } } grown
  have place : out.1 = privateBase + 0x2050 := by decide
  have second : Returns (fun fuel => malloc fuel false wholeList.mem (wholeList.heap false) 16) out := by
    refine ⟨1, fun fuel more => ?_⟩
    obtain ⟨spare, rfl⟩ : ∃ spare, fuel = spare + 2 := ⟨fuel - 2, by omega⟩
    rfl
  have allowed : HeapCall.Allowed wholeList (.malloc false 16) := by
    unfold HeapCall.Allowed
    decide
  refine ⟨_, .cons wholeList_step (.cons ⟨allowed, out.1, out.2.1, out.2.2, second, rfl⟩ (.nil _)), fun apart => ?_⟩
  have inside : Block.Apart ⟨false, out.1, 16⟩ ⟨false, privateBase + 32, 0x4fe0⟩ :=
    (List.pairwise_cons.mp apart).1 _ (List.mem_singleton_self _)
  rw [place] at inside
  unfold Block.Apart at inside
  exact absurd inside (by decide)

end RealmVm
