import RealmVm.Heap.Chunks
import RealmVm.Lib.Tiling

/-! The chunks of a heap's list fill its first part without gaps. -/
namespace RealmVm

open Lib

/-- The list from `head` on fills `[lo, hi)`; a used chunk knows the block it stands for. -/
structure ChunkList (m : HeapMemory) (head : Word) (lo hi : Nat) (xs : List Word) : Prop where
  chain : Chain m.next 0 head xs
  tiles : Tiles (fun c : Word => c.toNat) (fun c => (m.chunk c).size.toNat) lo xs hi
  header : ∀ x ∈ xs, 32 ≤ (m.chunk x).size.toNat
  owned : ∀ x ∈ xs, (m.chunk x).used ≠ 0 → (m.chunk x).address = x + sizeofMemChunk
  below : hi < 2 ^ 64

/-- The header at `d` has nothing to do with `[lo, hi)`. -/
def Outside (lo hi : Nat) (d : Word) : Prop :=
  d.toNat + 32 ≤ 2 ^ 64 ∧ (d.toNat + 32 ≤ lo ∨ hi ≤ d.toNat)

namespace ChunkList

variable {m m' : HeapMemory} {head x y : Word} {lo hi : Nat} {xs pre post : List Word}

theorem bounds (list : ChunkList m head lo hi xs) (member : x ∈ xs) :
    lo ≤ x.toNat ∧ x.toNat + (m.chunk x).size.toNat ≤ hi :=
  list.tiles.bounds member

theorem mem_middle : y ∈ pre ++ x :: post ↔ y = x ∨ y ∈ pre ++ post :=
  List.perm_middle.mem_iff.trans List.mem_cons

theorem mem_around (member : y ∈ pre ++ post) : y ∈ pre ++ x :: post := mem_middle.mpr (Or.inr member)

/-- A header inside a chunk is apart from the other chunks and from what lies outside. -/
theorem inside (list : ChunkList m head lo hi (pre ++ x :: post)) {d : Word} (low : x.toNat ≤ d.toNat)
    (high : d.toNat + 32 ≤ x.toNat + (m.chunk x).size.toNat) :
    (∀ z ∈ pre ++ post, HeadersApart d z) ∧ ∀ e, Outside lo hi e → HeadersApart d e := by
  have boundX := list.bounds List.mem_append_cons_self
  have below := list.below
  constructor
  · intro z hz
    have size := list.header z (mem_around hz)
    have bound := (list.bounds (mem_around (x := x) hz)).2
    cases list.tiles.apart hz with
    | inl before => exact (headersApart_of_le (by omega) (by omega)).symm
    | inr after => exact headersApart_of_le (by omega) (by omega)
  · rintro e ⟨fits, before | after⟩
    · exact (headersApart_of_le (by omega) (by omega)).symm
    · exact headersApart_of_le (by omega) fits

theorem apart (list : ChunkList m head lo hi (pre ++ x :: post)) :
    (∀ z ∈ pre ++ post, HeadersApart x z) ∧ ∀ e, Outside lo hi e → HeadersApart x e :=
  list.inside (Nat.le_refl _) (Nat.add_le_add_left (list.header x List.mem_append_cons_self) _)

/-- Only the headers of the list matter. -/
theorem frame (list : ChunkList m head lo hi xs) (same : ∀ x ∈ xs, m'.chunk x = m.chunk x) :
    ChunkList m' head lo hi xs where
  chain := list.chain.frame fun x hx => congrArg Chunk.next (same x hx)
  tiles := list.tiles.congr fun x hx => by rw [same x hx]
  header x hx := by rw [same x hx]; exact list.header x hx
  owned x hx := by rw [same x hx]; exact list.owned x hx
  below := list.below

/-- A chunk that changes neither its size nor its successor. -/
theorem mark (list : ChunkList m head lo hi (pre ++ x :: post))
    (size : (m'.chunk x).size = (m.chunk x).size) (next : (m'.chunk x).next = (m.chunk x).next)
    (owner : (m'.chunk x).address = x + sizeofMemChunk)
    (same : ∀ z ∈ pre ++ post, m'.chunk z = m.chunk z) : ChunkList m' head lo hi (pre ++ x :: post) := by
  refine ⟨?_, ?_, ?_, ?_, list.below⟩
  · refine list.chain.frame fun z hz => ?_
    cases mem_middle.mp hz with
    | inl here => exact here ▸ next
    | inr there => exact congrArg Chunk.next (same z there)
  · refine list.tiles.congr fun z hz => ?_
    cases mem_middle.mp hz with
    | inl here => rw [here, size]
    | inr there => rw [same z there]
  · intro z hz
    cases mem_middle.mp hz with
    | inl here => rw [here, size]; exact list.header x List.mem_append_cons_self
    | inr there => rw [same z there]; exact list.header z hz
  · intro z hz
    cases mem_middle.mp hz with
    | inl here => rw [here]; exact fun _ => owner
    | inr there => rw [same z there]; exact list.owned z hz

/-- `x` keeps `s` bytes, the rest becomes the unused chunk `y`. -/
theorem divide (list : ChunkList m head lo hi (pre ++ x :: post)) (place : y.toNat = x.toNat + (m'.chunk x).size.toNat)
    (front : 32 ≤ (m'.chunk x).size.toNat) (back : 32 ≤ (m'.chunk y).size.toNat)
    (whole : (m'.chunk x).size.toNat + (m'.chunk y).size.toNat = (m.chunk x).size.toNat)
    (nextX : (m'.chunk x).next = y) (nextY : (m'.chunk y).next = (m.chunk x).next)
    (unusedX : (m'.chunk x).used = 0) (unusedY : (m'.chunk y).used = 0)
    (same : ∀ z ∈ pre ++ post, m'.chunk z = m.chunk z) :
    ChunkList m' head lo hi (pre ++ x :: y :: post) := by
  have fresh : ∀ z ∈ pre ++ x :: post, z ≠ y := by
    rintro z hz rfl
    cases (by simpa using hz : z ∈ pre ∨ z = x ∨ z ∈ post) with
    | inl before =>
      have apart := list.tiles.apart (List.mem_append_left post before)
      omega
    | inr rest =>
      cases rest with
      | inl here => subst here; omega
      | inr after =>
        have apart := list.tiles.apart (List.mem_append_right pre after)
        omega
  have cases_ : ∀ z ∈ pre ++ x :: y :: post, z = x ∨ z = y ∨ z ∈ pre ++ post :=
    fun z hz => (mem_middle.mp hz).imp_right mem_middle.mp
  refine ⟨?_, ?_, ?_, ?_, list.below⟩
  · refine list.chain.insertAfter (fun member => fresh y member rfl) ?_ nextY nextX fun z hz =>
      congrArg Chunk.next (same z hz)
    rintro rfl
    simp at place
    omega
  · exact list.tiles.split place whole fun z hz => by rw [same z hz]
  · intro z hz
    rcases cases_ z hz with rfl | rfl | there
    · exact front
    · exact back
    · rw [same z there]
      exact list.header z (mem_around there)
  · intro z hz
    rcases cases_ z hz with rfl | rfl | there
    · exact fun used => absurd unusedX used
    · exact fun used => absurd unusedY used
    · rw [same z there]
      exact list.owned z (mem_around there)

/-- The sizes of two chunks in a row add up without wrapping. -/
theorem joined_size (list : ChunkList m head lo hi (pre ++ x :: y :: post)) :
    ((m.chunk x).size + (m.chunk y).size).toNat = (m.chunk x).size.toNat + (m.chunk y).size.toNat := by
  have boundX := (list.bounds (x := x) (by simp)).2
  have boundY := (list.bounds (x := y) (by simp)).2
  have below := list.below
  cases list.tiles.apart (List.mem_append_right pre List.mem_cons_self : y ∈ pre ++ y :: post) with
  | inl before => bv_omega
  | inr after => bv_omega

/-- `x` takes over the chunk behind it. -/
theorem join (list : ChunkList m head lo hi (pre ++ x :: y :: post))
    (whole : (m'.chunk x).size.toNat = (m.chunk x).size.toNat + (m.chunk y).size.toNat)
    (next : (m'.chunk x).next = (m.chunk y).next)
    (owner : (m'.chunk x).used ≠ 0 → (m'.chunk x).address = x + sizeofMemChunk)
    (same : ∀ z ∈ pre ++ post, m'.chunk z = m.chunk z) : ChunkList m' head lo hi (pre ++ x :: post) := by
  have older : ∀ z ∈ pre ++ post, z ∈ pre ++ x :: y :: post := fun z hz => mem_around (mem_around hz)
  have size := list.header x List.mem_append_cons_self
  refine ⟨?_, ?_, ?_, ?_, list.below⟩
  · exact list.chain.unlink next fun z hz => congrArg Chunk.next (same z hz)
  · exact list.tiles.join whole fun z hz => by rw [same z hz]
  · intro z hz
    cases mem_middle.mp hz with
    | inl here => rw [here]; omega
    | inr there => rw [same z there]; exact list.header z (older z there)
  · intro z hz
    cases mem_middle.mp hz with
    | inl here => rw [here]; exact owner
    | inr there => rw [same z there]; exact list.owned z (older z there)

end ChunkList

end RealmVm
