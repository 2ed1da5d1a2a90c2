import RealmVm.Heap.Blocks

/-! `kmalloc`, `kcalloc` and `kfree` with their shared counterparts, over the heaps and
the blocks that are live. -/
namespace RealmVm

open Lib

variable {fuel more : Nat} {shared : Bool} {s s' : HeapHistory} {p size nmeb count : Word}

/-- `_malloc` on one of the heaps. -/
def groupMalloc (fuel : Nat) (shared : Bool) (s : HeapHistory) (size : Word) : Option (Word × HeapHistory) :=
  match malloc fuel shared s.mem (s.heap shared) size with
  | none => none
  | some (p, mem, heap) =>
    some (p, ⟨mem, Function.update s.heap shared heap, if p = 0 then s.live else ⟨shared, p, size⟩ :: s.live⟩)

def kmalloc (fuel : Nat) (s : HeapHistory) (size : Word) : Option (Word × HeapHistory) := groupMalloc fuel false s size
def smalloc (fuel : Nat) (s : HeapHistory) (size : Word) : Option (Word × HeapHistory) := groupMalloc fuel true s size

/- `memset(ptr, 0, size)`, on the words at multiples of 8 from `ptr`. Of the last one, the
bytes past `size` stay. -/
def HeapMemory.zeroed (m : HeapMemory) (ptr size : Word) : HeapMemory := fun a =>
  let offset := (a - ptr).toNat
  if offset + 8 ≤ size.toNat then 0
  else if offset < size.toNat then
    let bits := 8 * (size.toNat - offset)
    (m a >>> bits) <<< bits
  else m a

/-- The product is the one of 64-bit words. -/
def groupCalloc (fuel : Nat) (shared : Bool) (s : HeapHistory) (nmeb count : Word) : Option (Word × HeapHistory) :=
  let allocSize := nmeb * count
  if allocSize = 0 then some (0, s)
  else
    match groupMalloc fuel shared s allocSize with
    | none => none
    | some (ptr, s) => if ptr = 0 then some (0, s) else some (ptr, { s with mem := s.mem.zeroed ptr allocSize })

def kcalloc (fuel : Nat) (s : HeapHistory) (nmeb count : Word) : Option (Word × HeapHistory) :=
  groupCalloc fuel false s nmeb count

def scalloc (fuel : Nat) (s : HeapHistory) (nmeb count : Word) : Option (Word × HeapHistory) :=
  groupCalloc fuel true s nmeb count

/-- `_free` on one of the heaps: the block is not live any more. -/
def groupFree (fuel : Nat) (shared : Bool) (s : HeapHistory) (addr : Word) : Option HeapHistory :=
  (free fuel s.mem (s.heap shared) addr).map fun mem =>
    { s with mem := mem, live := s.live.eraseP fun b => b.shared = shared ∧ b.address = addr }

def kfree (fuel : Nat) (s : HeapHistory) (addr : Word) : Option HeapHistory := groupFree fuel false s addr
def sfree (fuel : Nat) (s : HeapHistory) (addr : Word) : Option HeapHistory := groupFree fuel true s addr

theorem groupMalloc_live (returned : groupMalloc fuel shared s size = some (p, s')) :
    s'.live = if p = 0 then s.live else ⟨shared, p, size⟩ :: s.live := by
  unfold groupMalloc at returned
  split at returned
  · cases returned
  · cases returned
    rfl

/-- A block that is returned joins the live ones, and nothing else does. -/
theorem groupCalloc_live (returned : groupCalloc fuel shared s nmeb count = some (p, s')) :
    s'.live = if p = 0 then s.live else ⟨shared, p, nmeb * count⟩ :: s.live := by
  simp only [groupCalloc] at returned
  split at returned
  · cases returned
    rfl
  · split at returned
    · cases returned
    · rename_i ptr after allocated
      have live := groupMalloc_live allocated
      split at returned
      · rename_i null
        cases returned
        rw [live, if_pos null]
        rfl
      · rename_i proper
        cases returned
        rw [if_neg proper] at live ⊢
        exact live

theorem kmalloc_suffix (returned : kmalloc fuel s size = some (p, s')) : s.live <:+ s'.live := by
  rw [groupMalloc_live returned]
  split
  · exact List.suffix_rfl
  · exact List.suffix_cons _ _

theorem kcalloc_suffix (returned : kcalloc fuel s nmeb count = some (p, s')) : s.live <:+ s'.live := by
  rw [groupCalloc_live returned]
  split
  · exact List.suffix_rfl
  · exact List.suffix_cons _ _

/-- A block that was just returned and is given back leaves the live ones as they were. -/
theorem kfree_last {between after : HeapHistory} (proper : p ≠ 0)
    (allocated : kcalloc fuel s nmeb count = some (p, s')) (unserved : between.live = s'.live)
    (freed : kfree more between p = some after) : after.live = s.live := by
  have live := groupCalloc_live allocated
  rw [if_neg proper] at live
  obtain ⟨mem, -, rfl⟩ := Option.map_eq_some_iff.mp freed
  simp only [unserved, live, List.eraseP_cons]
  simp

theorem malloc_mono {m m' : HeapMemory} {heap heap' : Heap} (enough : fuel ≤ more)
    (returned : malloc fuel shared m heap size = some (p, m', heap')) :
    malloc more shared m heap size = some (p, m', heap') := by
  simp only [malloc] at returned ⊢
  split at returned
  · rename_i empty
    rw [if_pos empty]
    exact returned
  · rename_i positive
    rw [if_neg positive]
    split at returned
    · cases returned
    · rename_i tmp found
      simp only [follow_mono enough found]
      exact returned

theorem groupMalloc_mono (enough : fuel ≤ more) (returned : groupMalloc fuel shared s size = some (p, s')) :
    groupMalloc more shared s size = some (p, s') := by
  unfold groupMalloc at returned ⊢
  split at returned
  · cases returned
  · rename_i ptr mem heap allocated
    simp only [malloc_mono enough allocated]
    exact returned

theorem kcalloc_mono (enough : fuel ≤ more) (returned : kcalloc fuel s nmeb count = some (p, s')) :
    kcalloc more s nmeb count = some (p, s') := by
  simp only [kcalloc, groupCalloc] at returned ⊢
  split at returned
  · rename_i empty
    rw [if_pos empty]
    exact returned
  · rename_i positive
    rw [if_neg positive]
    split at returned
    · cases returned
    · rename_i ptr after allocated
      simp only [groupMalloc_mono enough allocated]
      exact returned

theorem kcalloc_returns (returned : kcalloc fuel s nmeb count = some (p, s')) :
    Returns (fun fuel => kcalloc fuel s nmeb count) (p, s') :=
  ⟨fuel, fun _ above => kcalloc_mono (Nat.le_of_lt above) returned⟩

end RealmVm
