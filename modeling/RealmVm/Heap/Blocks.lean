import RealmVm.Heap.Malloc

/-! The blocks the two heaps have handed out, and what each operation does to them. -/
namespace RealmVm

open Lib

/- A block and the heap it comes from. -/
structure Block where
  shared : Bool
  address : Word
  size : Word
deriving DecidableEq

def Block.start (b : Block) : Nat := b.address.toNat
def Block.stop (b : Block) : Nat := b.address.toNat + b.size.toNat

def Block.Apart (b c : Block) : Prop := b.stop ≤ c.start ∨ c.stop ≤ b.start

/- The memory, `private_heap` and `shared_heap` (at `true`), and the live blocks. -/
structure HeapHistory where
  mem : HeapMemory
  heap : Bool → Heap
  live : List Block

/-- Where the list begins and ends, as `heap_init` recorded it, and where the heap ends. -/
def Heap.listStart (h : Heap) : Nat := h.head.toNat
def Heap.listEnd (h : Heap) : Nat := h.head.toNat + 0x5000
def Heap.top (h : Heap) : Nat := h.brk.heapStart.toNat + h.brk.heapSize.toNat

/-- The block stands in a used chunk of the list, or between the list and the heap's end. -/
def Block.Placed (m : HeapMemory) (h : Heap) (xs : List Word) (b : Block) : Prop :=
  (∃ c ∈ xs, b.address = c + sizeofMemChunk ∧ (m.chunk c).used ≠ 0 ∧
    b.size.toNat + 32 ≤ (m.chunk c).size.toNat) ∨
  (h.listEnd ≤ b.start ∧ b.stop ≤ h.top)

structure HeapOk (m : HeapMemory) (h : Heap) (live : List Block) : Prop where
  list : ∃ xs, ChunkList m h.head h.listStart h.listEnd xs ∧ ∀ b ∈ live, b.Placed m h xs
  fits : h.listEnd ≤ h.top
  noWrap : h.top < 2 ^ 64
  broken : h.brk.heapStart ≤ h.brk.sbrk

def blocksOf (live : List Block) (shared : Bool) : List Block := live.filter fun b => b.shared = shared

structure HeapsOk (s : HeapHistory) : Prop where
  each : ∀ shared, HeapOk s.mem (s.heap shared) (blocksOf s.live shared)
  arenas : (s.heap false).top ≤ (s.heap true).listStart ∨ (s.heap true).top ≤ (s.heap false).listStart
  apart : s.live.Pairwise Block.Apart
  sized : ∀ b ∈ s.live, 0 < b.size.toNat

variable {m m' : HeapMemory} {h : Heap} {xs : List Word} {s : HeapHistory} {shared : Bool} {size : Word}

theorem blocksOf_cons (b : Block) (live : List Block) : blocksOf (b :: live) b.shared = b :: blocksOf live b.shared :=
  List.filter_cons_of_pos (decide_eq_true rfl)

/-- A new block of one heap is none of the other's. -/
theorem Block.older {new b : Block} {live : List Block} (member : b ∈ new :: live) (different : b.shared ≠ new.shared) :
    b ∈ live :=
  (List.mem_cons.mp member).resolve_left fun same => different (congrArg Block.shared same)

theorem ChunkList.extents {head x y : Word} {lo hi : Nat} (list : ChunkList m head lo hi xs) (memberX : x ∈ xs)
    (memberY : y ∈ xs) (different : y ≠ x) :
    y.toNat + (m.chunk y).size.toNat ≤ x.toNat ∨ x.toNat + (m.chunk x).size.toNat ≤ y.toNat := by
  obtain ⟨pre, post, rfl⟩ := List.append_of_mem memberX
  refine list.tiles.apart (x := x) (y := y) ?_
  simpa [different] using memberY

/-- The block of a chunk starts 32 bytes into it. -/
theorem ChunkList.behind_header {head x : Word} {lo hi : Nat} (list : ChunkList m head lo hi xs) (member : x ∈ xs) :
    (x + sizeofMemChunk).toNat = x.toNat + 32 := by
  have bound := (list.bounds member).2
  have header := list.header x member
  have below := list.below
  unfold sizeofMemChunk
  bv_omega

/-- Both kinds of block lie in the heap. -/
theorem Block.Placed.bounds {b : Block} (placed : b.Placed m h xs) (fits : h.listEnd ≤ h.top)
    (list : ChunkList m h.head h.listStart h.listEnd xs) : h.listStart ≤ b.start ∧ b.stop ≤ h.top := by
  cases placed with
  | inl inList =>
    obtain ⟨c, member, address, _, room⟩ := inList
    obtain ⟨low, high⟩ := list.bounds member
    have place := list.behind_header member
    unfold Block.start Block.stop
    rw [address, place]
    constructor <;> omega
  | inr behind =>
    have order : h.listStart ≤ h.listEnd := Nat.le_add_right _ _
    exact ⟨Nat.le_trans order behind.1, behind.2⟩

theorem HeapOk.bounds {live : List Block} (ok : HeapOk m h live) {b : Block} (member : b ∈ live) :
    h.listStart ≤ b.start ∧ b.stop ≤ h.top := by
  obtain ⟨⟨xs, list, placed⟩, fits, _⟩ := ok
  exact (placed b member).bounds fits list

theorem mem_blocksOf {b : Block} (member : b ∈ s.live) : b ∈ blocksOf s.live b.shared :=
  List.mem_filter.mpr ⟨member, decide_eq_true rfl⟩

theorem HeapOk.subset {live live' : List Block} (ok : HeapOk m h live) (sub : ∀ b ∈ live', b ∈ live) :
    HeapOk m h live' := by
  obtain ⟨⟨xs, list, placed⟩, fits, noWrap, broken⟩ := ok
  exact ⟨⟨xs, list, fun b hb => placed b (sub b hb)⟩, fits, noWrap, broken⟩

/-- A heap whose list's headers do not change stays as it is. -/
theorem HeapOk.frame {live : List Block} (ok : HeapOk m h live)
    (same : ∀ xs, ChunkList m h.head h.listStart h.listEnd xs → ∀ c ∈ xs, m'.chunk c = m.chunk c) :
    HeapOk m' h live := by
  obtain ⟨⟨xs, list, placed⟩, fits, noWrap, broken⟩ := ok
  refine ⟨⟨xs, list.frame (same xs list), fun b hb => ?_⟩, fits, noWrap, broken⟩
  cases placed b hb with
  | inl inList =>
    obtain ⟨c, member, rest⟩ := inList
    exact Or.inl ⟨c, member, by rwa [same xs list c member]⟩
  | inr behind => exact Or.inr behind

/-- The heaps do not overlap, whichever comes first. -/
theorem HeapsOk.separate (ok : HeapsOk s) {other : Bool} (different : other ≠ shared) :
    (s.heap other).top ≤ (s.heap shared).listStart ∨ (s.heap shared).top ≤ (s.heap other).listStart := by
  cases shared with
  | true =>
    obtain rfl : other = false := by simpa using different
    exact ok.arenas
  | false =>
    obtain rfl : other = true := by simpa using different
    exact ok.arenas.symm

/-- The headers of one heap's list are outside the other heap. -/
theorem HeapsOk.outside (ok : HeapsOk s) {other : Bool} (different : other ≠ shared)
    (list : ChunkList m (s.heap other).head (s.heap other).listStart (s.heap other).listEnd xs) {c : Word}
    (member : c ∈ xs) : Outside (s.heap shared).listStart (s.heap shared).top c := by
  have fits := (ok.each other).fits
  have bounds := list.bounds member
  have size := list.header c member
  have below := list.below
  have separate := ok.separate different
  exact ⟨by omega, by omega⟩

/-- Blocks of different heaps are apart. -/
theorem HeapsOk.apart_of_ne (ok : HeapsOk s) {b : Block} (member : b ∈ s.live) (different : b.shared ≠ shared)
    {c : Block} (low : (s.heap shared).listStart ≤ c.start) (high : c.stop ≤ (s.heap shared).top) : c.Apart b := by
  have bounds := (ok.each b.shared).bounds (mem_blocksOf member)
  have separate := ok.separate different
  unfold Block.Apart
  omega

/-- An operation on one heap that keeps to its own part of memory. -/
theorem HeapsOk.change (ok : HeapsOk s) {h' : Heap} {live' : List Block} (head : h'.head = (s.heap shared).head)
    (top : h'.top = (s.heap shared).top) (own : HeapOk m' h' (blocksOf live' shared))
    (frame : ∀ c, Outside (s.heap shared).listStart (s.heap shared).top c → m'.chunk c = s.mem.chunk c)
    (older : ∀ b ∈ live', b.shared ≠ shared → b ∈ s.live) (apart : live'.Pairwise Block.Apart)
    (sized : ∀ b ∈ live', 0 < b.size.toNat) : HeapsOk ⟨m', Function.update s.heap shared h', live'⟩ := by
  refine ⟨fun other => ?_, ?_, apart, sized⟩
  · cases decEq other shared with
    | isTrue same =>
      subst same
      simp only [Function.update_self]
      exact own
    | isFalse different =>
      simp only [Function.update_of_ne different]
      refine ((ok.each other).subset fun b hb => ?_).frame fun xs list c hc => frame c (ok.outside different list hc)
      obtain ⟨inLive, mine⟩ := List.mem_filter.mp hb
      have here : b.shared = other := of_decide_eq_true mine
      exact List.mem_filter.mpr ⟨older b inLive (here ▸ different), mine⟩
  · have start : h'.listStart = (s.heap shared).listStart := congrArg BitVec.toNat head
    have arenas := ok.arenas
    cases shared with
    | true => simpa [start, top] using arenas
    | false => simpa [start, top] using arenas

end RealmVm
