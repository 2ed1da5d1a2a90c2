import RealmVm.User.Access
import RealmVm.Hypercall.Layout

/-! `copy_to_user` and `copy_from_user`. -/
namespace RealmVm

/- The return value, the memory afterwards, and the bytes copied, as pairs of
destination and source. -/
structure Copied where
  ret : Word
  bytes : Word → Byte
  accesses : List (Word × Word)

/- `while (copied < count) dst[copied] = src[copied]`, from `copied` on. -/
def copyLoop (bytes : Word → Byte) (dst src : Word) : Nat → Nat → (Word → Byte) × List (Word × Word)
  | 0, _ => (bytes, [])
  | left + 1, copied =>
    let d := dst + BitVec.ofNat 64 copied
    let s := src + BitVec.ofNat 64 copied
    let rest := copyLoop (Function.update bytes d (bytes s)) dst src left (copied + 1)
    (rest.1, (d, s) :: rest.2)

def copyBytes (bytes : Word → Byte) (dst src count : Word) : Copied :=
  let out := copyLoop bytes dst src count.toNat 0
  ⟨count, out.1, out.2⟩

/-- The copy does not fault: only the first byte is checked before it. -/
def Readable (m : Mmu) (buf count : Word) : Prop :=
  ∀ i < count.toNat, m.permits .el1 false (buf + BitVec.ofNat 64 i) = true

instance (m : Mmu) (buf count : Word) : Decidable (Readable m buf count) :=
  inferInstanceAs (Decidable (∀ i < count.toNat, _))

/- A turn loads a byte and stores it. -/
def Mmu.copies (m : Mmu) (dst src : Word) (i : Nat) : Bool :=
  m.permits .el1 false (src + BitVec.ofNat 64 i) && m.permits .el1 true (dst + BitVec.ofNat 64 i)

/- How many turns the loop makes, from `copied` on, before one of them faults. -/
def Mmu.turns (m : Mmu) (dst src : Word) : Nat → Nat → Nat
  | 0, _ => 0
  | left + 1, copied => if m.copies dst src copied then m.turns dst src left (copied + 1) + 1 else 0

/-- A number of turns is reached when none of these faults. -/
theorem Mmu.le_turns_iff (m : Mmu) (dst src : Word) {k left : Nat} (within : k ≤ left) (copied : Nat) :
    k ≤ m.turns dst src left copied ↔ ∀ i < k, m.copies dst src (copied + i) = true := by
  induction left generalizing k copied with
  | zero =>
    obtain rfl := Nat.le_zero.mp within
    simp
  | succ left ih =>
    cases k with
    | zero => simp
    | succ k =>
      have later := ih (Nat.le_of_succ_le_succ within) (copied + 1)
      rw [Mmu.turns]
      split
      · rename_i here
        rw [Nat.succ_le_succ_iff, later]
        constructor
        · intro rest i inside
          cases i with
          | zero => exact here
          | succ i =>
            have next := rest i (Nat.lt_of_succ_lt_succ inside)
            rwa [Nat.add_right_comm] at next
        · intro all i inside
          have next := all (i + 1) (Nat.succ_lt_succ inside)
          rwa [← Nat.add_assoc, Nat.add_right_comm] at next
      · rename_i faults
        constructor
        · intro none
          exact absurd none (Nat.not_succ_le_zero k)
        · intro all
          exact absurd (all 0 (Nat.succ_pos k)) faults

theorem Mmu.turns_le (m : Mmu) (dst src : Word) (left copied : Nat) : m.turns dst src left copied ≤ left := by
  induction left generalizing copied with
  | zero => exact Nat.le_refl 0
  | succ left ih =>
    rw [Mmu.turns]
    split
    · exact Nat.succ_le_succ (ih (copied + 1))
    · exact Nat.zero_le _

def copyToUser (m : Mmu) (bytes : Word → Byte) (dst src count : Word) : Copied :=
  if accessKernelOk m dst protRw ≠ 0 then ⟨-einvalWord, bytes, []⟩ else copyBytes bytes dst src count

def copyFromUser (m : Mmu) (bytes : Word → Byte) (dst src count : Word) : Copied :=
  if accessKernelOk m src protR ≠ 0 then ⟨-einvalWord, bytes, []⟩ else copyBytes bytes dst src count

theorem accesses_copyLoop (bytes : Word → Byte) (dst src : Word) (left copied : Nat) :
    (copyLoop bytes dst src left copied).2 = (List.range' copied left).map fun i =>
      (dst + BitVec.ofNat 64 i, src + BitVec.ofNat 64 i) := by
  induction left generalizing bytes copied with
  | zero => rfl
  | succ left ih =>
    rw [copyLoop, List.range'_succ, List.map_cons, ih]

theorem accesses_copyBytes (bytes : Word → Byte) (dst src count : Word) :
    (copyBytes bytes dst src count).accesses = (List.range count.toNat).map fun i =>
      (dst + BitVec.ofNat 64 i, src + BitVec.ofNat 64 i) := by
  rw [List.range_eq_range']
  exact accesses_copyLoop bytes dst src count.toNat 0

/-- The whole user range may be accessed from EL0. -/
def UserRange (m : Mmu) (write : Bool) (base count : Word) : Prop :=
  ∀ i < count.toNat, m.permits .el0 write (base + BitVec.ofNat 64 i) = true

/-- Either nothing was touched, or all of a range that EL0 may access itself. -/
def Isolated (m : Mmu) (write : Bool) (bytes : Word → Byte) (dst src base count : Word)
    (r : Copied) : Prop :=
  (r.ret = -einvalWord ∧ r.accesses = [] ∧ r.bytes = bytes) ∨
  (r.ret = count ∧ UserRange m write base count ∧
    r.accesses = (List.range count.toNat).map fun i => (dst + BitVec.ofNat 64 i, src + BitVec.ofNat 64 i))

theorem isolated_copyBytes_iff (m : Mmu) (write : Bool) (bytes : Word → Byte) (dst src base count : Word) :
    Isolated m write bytes dst src base count (copyBytes bytes dst src count) ↔
      UserRange m write base count := by
  constructor
  · rintro (⟨ret, nothing, _⟩ | ⟨_, user, _⟩)
    · -- nothing was copied and the count is not 0: impossible
      rw [accesses_copyBytes, List.map_eq_nil_iff, List.range_eq_nil] at nothing
      intro i hi
      omega
    · exact user
  · exact fun user => Or.inr ⟨rfl, user, accesses_copyBytes bytes dst src count⟩

/- A check in front of the copy. -/
theorem isolated_checked_iff {refused : Prop} [Decidable refused] (m : Mmu) (write : Bool) (bytes : Word → Byte)
    (dst src base count : Word) :
    Isolated m write bytes dst src base count
        (if refused then ⟨-einvalWord, bytes, []⟩ else copyBytes bytes dst src count) ↔
      refused ∨ UserRange m write base count := by
  split
  · rename_i refused
    exact iff_of_true (Or.inl ⟨rfl, rfl, rfl⟩) (Or.inl refused)
  · rename_i passed
    rw [isolated_copyBytes_iff]
    exact ⟨Or.inr, fun h => h.resolve_left passed⟩

/-- The copies are isolated exactly when the check of the first byte at EL1 refuses, or
the range is open to EL0 anyway. -/
theorem user_copies_isolated_iff (m : Mmu) (bytes : Word → Byte) (dst src count : Word) :
    (Isolated m true bytes dst src dst count (copyToUser m bytes dst src count) ↔
      accessKernelOk m dst protRw ≠ 0 ∨ UserRange m true dst count) ∧
    (Isolated m false bytes dst src src count (copyFromUser m bytes dst src count) ↔
      accessKernelOk m src protR ≠ 0 ∨ UserRange m false src count) := by
  unfold copyToUser copyFromUser
  constructor
  · exact isolated_checked_iff m true bytes dst src dst count
  · exact isolated_checked_iff m false bytes dst src src count

/- One page at address 0, mapped for the kernel only. -/
def kernelPageOnly : Mmu where
  word a :=
    if a = 0x1000 then 0x2003 else if a = 0x2000 then 0x3003 else if a = 0x3000 then 0x4003
    else if a = 0x4000 then 0x5703 else 0
  ttbr0 := 0x1000
  ttbr1 := 0

/-- One byte is written to a page that EL0 must not touch. -/
theorem kernel_page_written :
    ¬ Isolated kernelPageOnly true (fun _ => 0) 0 0x2000 0 1
        (copyToUser kernelPageOnly (fun _ => 0) 0 0x2000 1) ∧
      kernelPageOnly.permits .el0 true 0 = false ∧
      (copyToUser kernelPageOnly (fun _ => 0) 0 0x2000 1).accesses = [(0, 0x2000)] := by
  refine ⟨?_, by decide, by decide⟩
  rintro (⟨ret, _, _⟩ | ⟨_, user, _⟩)
  · revert ret
    decide
  · have first := user 0 (by decide)
    revert first
    decide

end RealmVm
