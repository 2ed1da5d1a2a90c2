import RealmVm.Hypercall.Layout
import RealmVm.Lib.Bytes

/-! Which memory of the VMM a hypercall touches. The guest's physical addresses are the
VMM's own: `vm_map_guest_memory` maps the RAM at its guest address. -/
namespace RealmVm

open Lib

structure VmMemoryRegion where
  guestPhysAddr : Word
  memorySize : Word

def VmMemoryRegion.addresses (r : VmMemoryRegion) : Set Word := Bytes.span r.guestPhysAddr r.memorySize.toNat

/-- The three regions that `Machine::new` registers. -/
def memoryRegions (guestAddr : Word) : List VmMemoryRegion :=
  [⟨guestAddr, 0x1200000⟩, ⟨guestAddr + 0x1200000, 0x200000⟩, ⟨guestAddr + 0x1400000, 0x200000⟩]

/- The locations that one access touches. -/
structure Access where
  base : Word
  length : Nat
deriving DecidableEq

def Access.locations (a : Access) : Set Word := Bytes.span a.base a.length

/- `read(2)` and `write(2)` on `n` bytes: an error, or at most `n` bytes done. -/
abbrev HostReply := (n : Nat) → Option (Fin (n + 1))

/- `isize::max_value()` -/
def isizeMax : Nat := 2 ^ 63 - 1

/- The buffers that the loop of `hypercall_write` passes to `write`, given the replies so far. -/
def writeLoop (buf : Word) (len : Nat) : List HostReply → List Access
  | [] => if len = 0 then [] else [⟨buf, min len isizeMax⟩]
  | reply :: replies =>
    if len = 0 then []
    else ⟨buf, min len isizeMax⟩ ::
      match reply (min len isizeMax) with
      | none => []
      | some ret =>
        if buf + BitVec.ofNat 64 ret = 0 then [] -- `NonNull::new`
        else writeLoop (buf + BitVec.ofNat 64 ret) (len - ret) replies

def hypercallWriteAccesses (buf len : Word) (replies : List HostReply) : List Access :=
  if buf = 0 then [] else writeLoop buf len.toNat replies

/- The buffers that the loop of `hypercall_read` passes to `read`. -/
def readLoop (buf : Word) (remaining : Nat) : List HostReply → List Access
  | [] => if remaining = 0 then [] else [⟨buf, remaining⟩]
  | reply :: replies =>
    if remaining = 0 then []
    else ⟨buf, remaining⟩ ::
      match reply remaining with
      | none => []
      | some amountRead => readLoop (buf + BitVec.ofNat 64 amountRead) (remaining - amountRead) replies

/- The bytes that `open` reads of a path: to its end, or `PATH_MAX` of them. -/
def pathLength (m : Word → Byte) (path : Word) : Nat → Nat
  | 0 => 0
  | left + 1 => if m path = 0 then 1 else pathLength m (path + 1) left + 1

def pathMax : Nat := 4096

def HostOp.accesses (m : Word → Byte) (replies : List HostReply) : HostOp → List Access
  | .open path _ _ => [⟨path, pathLength m path pathMax⟩]
  | .read _ buf len => readLoop buf len.toNat replies
  | .write _ buf len => hypercallWriteAccesses buf len replies
  | .lseek _ _ _ | .close _ | .exit _ => []

def hvcArgs (m : Word → Byte) (address : Word) (i : Nat) : Word :=
  BitVec.ofNat 64 (Bytes.load m (address + BitVec.ofNat 64 (8 * i)) 8)

def blockWords (address : Word) : List Access := (List.range 6).map fun i => ⟨address + BitVec.ofNat 64 (8 * i), 8⟩

/- `handle_hypercall` prints the first six of the eight words; it stores into the first. -/
def callAccesses (m : Word → Byte) (replies : List HostReply) (address : Word) (op : Option HostOp) : List Access :=
  blockWords address ++ op.elim [] (HostOp.accesses m replies)

def hypercallAccesses (host : Host) (m : Word → Byte) (replies : List HostReply) (address : Word) : List Access :=
  callAccesses m replies address (handleHypercall host (hvcArgs m address)).op

def registered (guestAddr : Word) : Set Word := {x | ∃ r ∈ memoryRegions guestAddr, x ∈ r.addresses}

/-- Every location lies in a registered region. -/
def Confined (guestAddr : Word) (accesses : List Access) : Prop :=
  ∀ a ∈ accesses, a.locations ⊆ registered guestAddr

/-- What an operation works on, as the guest describes it. -/
def HostOp.operand (m : Word → Byte) : HostOp → Set Word
  | .open path _ _ => Bytes.span path (pathLength m path pathMax)
  | .read _ buf len => Bytes.span buf len.toNat
  | .write _ buf len => if buf = 0 then ∅ else Bytes.span buf len.toNat
  | .lseek _ _ _ | .close _ | .exit _ => ∅

def callOperand (host : Host) (m : Word → Byte) (address : Word) : Set Word :=
  (handleHypercall host (hvcArgs m address)).op.elim ∅ (HostOp.operand m)

variable {m : Word → Byte} {replies : List HostReply} {guestAddr : Word}

theorem writeLoop_inside (buf : Word) {len : Nat} (fits : len ≤ 2 ^ 64) (replies : List HostReply) :
    ∀ a ∈ writeLoop buf len replies, a.locations ⊆ Bytes.span buf len := by
  induction replies generalizing buf len with
  | nil =>
    intro a member
    unfold writeLoop at member
    split at member
    · exact nomatch member
    · obtain rfl := List.mem_singleton.mp member
      exact Bytes.span_mono buf (Nat.min_le_left _ _)
  | cons reply replies ih =>
    intro a member
    unfold writeLoop at member
    split at member
    · exact nomatch member
    · cases List.mem_cons.mp member with
      | inl here =>
        subst here
        exact Bytes.span_mono buf (Nat.min_le_left _ _)
      | inr later =>
        split at later
        · exact nomatch later
        · rename_i ret _
          have few : ret.val ≤ len := Nat.le_trans (Nat.le_of_lt_succ ret.isLt) (Nat.min_le_left _ _)
          split at later
          · exact nomatch later
          · exact (ih _ (by omega) a later).trans (Bytes.span_drop buf few fits)

theorem readLoop_inside (buf : Word) {remaining : Nat} (fits : remaining ≤ 2 ^ 64) (replies : List HostReply) :
    ∀ a ∈ readLoop buf remaining replies, a.locations ⊆ Bytes.span buf remaining := by
  induction replies generalizing buf remaining with
  | nil =>
    intro a member
    unfold readLoop at member
    split at member
    · exact nomatch member
    · obtain rfl := List.mem_singleton.mp member
      exact subset_rfl
  | cons reply replies ih =>
    intro a member
    unfold readLoop at member
    split at member
    · exact nomatch member
    · cases List.mem_cons.mp member with
      | inl here =>
        subst here
        exact subset_rfl
      | inr later =>
        split at later
        · exact nomatch later
        · rename_i amountRead _
          have few : amountRead.val ≤ remaining := Nat.le_of_lt_succ amountRead.isLt
          exact (ih _ (by omega) a later).trans (Bytes.span_drop buf few fits)

theorem accesses_inside (op : HostOp) (replies : List HostReply) :
    ∀ a ∈ op.accesses m replies, a.locations ⊆ op.operand m := by
  cases op with
  | «open» path flags mode =>
    intro a member
    obtain rfl := List.mem_singleton.mp member
    exact subset_rfl
  | read fd buf len => exact readLoop_inside buf (Nat.le_of_lt len.isLt) replies
  | write fd buf len =>
    cases decEq buf 0 with
    | isTrue null =>
      simp only [HostOp.accesses, hypercallWriteAccesses, if_pos null]
      exact fun a member => nomatch member
    | isFalse present =>
      simp only [HostOp.accesses, hypercallWriteAccesses, HostOp.operand, if_neg present]
      exact writeLoop_inside buf (Nat.le_of_lt len.isLt) replies
  | _ => exact fun a member => nomatch member

/-- The registered regions are one stretch of 22 MB. -/
theorem registered_near {x : Word} (inside : x ∈ registered guestAddr) : (x - guestAddr).toNat < 0x1600000 := by
  obtain ⟨r, member, here⟩ := inside
  simp only [memoryRegions, List.mem_cons, List.not_mem_nil, or_false] at member
  rcases member with rfl | rfl | rfl
  · change (x - guestAddr).toNat < 0x1200000 at here
    omega
  · change (x - (guestAddr + 0x1200000)).toNat < 0x200000 at here
    bv_omega
  · change (x - (guestAddr + 0x1400000)).toNat < 0x200000 at here
    bv_omega

/-- The first `write` is passed the whole buffer, or more than all regions hold. -/
theorem writeLoop_confined {buf : Word} {len : Nat} (fits : len < 2 ^ 64)
    (confined : Confined guestAddr (writeLoop buf len replies)) : Bytes.span buf len ⊆ registered guestAddr := by
  cases Nat.eq_zero_or_pos len with
  | inl none => exact none ▸ Bytes.span_zero buf _
  | inr some =>
    have nonzero : len ≠ 0 := by omega
    have first : Access.mk buf (min len isizeMax) ∈ writeLoop buf len replies := by
      cases replies <;> simp [writeLoop, nonzero]
    have whole : Bytes.span buf (min len isizeMax) ⊆ registered guestAddr := confined ⟨buf, min len isizeMax⟩ first
    cases Nat.lt_or_ge isizeMax len with
    | inr short => rwa [Nat.min_eq_left short] at whole
    | inl long =>
      rw [Nat.min_eq_right (Nat.le_of_lt long)] at whole
      have near := registered_near (whole (Bytes.offset_mem buf (i := 0) (by decide) (by decide)))
      have far := registered_near (whole (Bytes.offset_mem buf (i := 2 ^ 62) (by decide) (by decide)))
      exfalso
      bv_omega

theorem readLoop_confined {buf : Word} {len : Nat} (confined : Confined guestAddr (readLoop buf len replies)) :
    Bytes.span buf len ⊆ registered guestAddr := by
  cases Nat.eq_zero_or_pos len with
  | inl none => exact none ▸ Bytes.span_zero buf _
  | inr some =>
    have nonzero : len ≠ 0 := by omega
    have first : Access.mk buf len ∈ readLoop buf len replies := by
      cases replies <;> simp [readLoop, nonzero]
    exact confined ⟨buf, len⟩ first

theorem operand_confined_iff (op : HostOp) :
    Confined guestAddr (op.accesses m replies) ↔ op.operand m ⊆ registered guestAddr := by
  constructor
  · intro confined
    cases op with
    | «open» path flags mode => exact confined ⟨path, pathLength m path pathMax⟩ (List.mem_singleton_self _)
    | read fd buf len => exact readLoop_confined confined
    | write fd buf len =>
      cases decEq buf 0 with
      | isTrue null =>
        simp only [HostOp.operand, if_pos null]
        exact Set.empty_subset _
      | isFalse present =>
        simp only [HostOp.accesses, hypercallWriteAccesses, if_neg present] at confined
        simp only [HostOp.operand, if_neg present]
        exact writeLoop_confined len.isLt confined
    | _ => exact Set.empty_subset _
  · intro inside a member
    exact (accesses_inside op replies a member).trans inside

/-- The six words read are the first 48 bytes of the block. -/
theorem mem_block_iff (address x : Word) :
    x ∈ Bytes.span address 48 ↔ ∃ a ∈ blockWords address, x ∈ a.locations := by
  constructor
  · intro inside
    obtain ⟨i, few, rfl⟩ := (Bytes.mem_span_iff (by decide)).mp inside
    have word : i / 8 < 6 := by omega
    have byte : i % 8 < 8 := Nat.mod_lt i (by decide)
    refine ⟨_, List.mem_map_of_mem (List.mem_range.mpr word), ?_⟩
    have here : address + BitVec.ofNat 64 i = address + BitVec.ofNat 64 (8 * (i / 8)) + BitVec.ofNat 64 (i % 8) := by
      rw [BitVec.add_assoc, ← BitVec.ofNat_add, Nat.div_add_mod]
    rw [here]
    exact Bytes.offset_mem (k := 8) _ byte (by decide)
  · rintro ⟨a, member, inside⟩
    obtain ⟨i, few, rfl⟩ := List.mem_map.mp member
    have six := List.mem_range.mp few
    obtain ⟨j, byte, rfl⟩ := (Bytes.mem_span_iff (k := 8) (by decide)).mp inside
    rw [BitVec.add_assoc, ← BitVec.ofNat_add]
    exact Bytes.offset_mem address (by omega) (by decide)

theorem callAccesses_inside (address : Word) (op : Option HostOp) : ∀ a ∈ callAccesses m replies address op,
    a.locations ⊆ Bytes.span address 48 ∪ op.elim ∅ (HostOp.operand m) := by
  intro a member
  cases List.mem_append.mp member with
  | inl word => exact fun x inside => Or.inl ((mem_block_iff address x).mpr ⟨a, word, inside⟩)
  | inr later =>
    apply Set.subset_union_of_subset_right
    cases op with
    | none => exact nomatch later
    | some op => exact accesses_inside op replies a later

theorem callAccesses_confined_iff (address : Word) (op : Option HostOp) :
    Confined guestAddr (callAccesses m replies address op) ↔
      Bytes.span address 48 ⊆ registered guestAddr ∧ op.elim ∅ (HostOp.operand m) ⊆ registered guestAddr := by
  have block : Confined guestAddr (blockWords address) ↔ Bytes.span address 48 ⊆ registered guestAddr := by
    constructor
    · intro confined x inside
      obtain ⟨a, member, here⟩ := (mem_block_iff address x).mp inside
      exact confined a member here
    · intro within a member x inside
      exact within ((mem_block_iff address x).mpr ⟨a, member, inside⟩)
  have operand : Confined guestAddr (op.elim [] (HostOp.accesses m replies)) ↔
      op.elim ∅ (HostOp.operand m) ⊆ registered guestAddr := by
    cases op with
    | none => exact iff_of_true (fun a member => nomatch member) (Set.empty_subset _)
    | some op => exact operand_confined_iff op
  rw [← block, ← operand]
  exact List.forall_mem_append

/-- Whatever the block holds, the call touches the block's first six words and the operand
it describes, and nothing else; no check stands in between, so the call stays inside the
registered regions exactly when the guest names only addresses inside them. -/
theorem hypercall_confined_iff (host : Host) (m : Word → Byte) (replies : List HostReply) (guestAddr address : Word) :
    (∀ a ∈ hypercallAccesses host m replies address,
      a.locations ⊆ Bytes.span address 48 ∪ callOperand host m address) ∧
    (Confined guestAddr (hypercallAccesses host m replies address) ↔
      Bytes.span address 48 ⊆ registered guestAddr ∧ callOperand host m address ⊆ registered guestAddr) :=
  ⟨callAccesses_inside address _, callAccesses_confined_iff address _⟩

/- A block at the start of the guest's RAM that asks for eight bytes of the VMM. -/
def leakBlock : Word → Byte :=
  Bytes.store (fun _ => 0) 0x42000000 ([0x8003, 1, 0x7F0000000000, 8].flatMap (Bytes.encode 8))

theorem leakBlock_op : (handleHypercall obligingHost (hvcArgs leakBlock 0x42000000)).op =
    some (.write 1 0x7F0000000000 8) := by
  have code : hvcArgs leakBlock 0x42000000 0 = hvcWrite := by decide +kernel
  have fd : hvcArgs leakBlock 0x42000000 1 = 1 := by decide +kernel
  have buf : hvcArgs leakBlock 0x42000000 2 = 0x7F0000000000 := by decide +kernel
  have len : hvcArgs leakBlock 0x42000000 3 = 8 := by decide +kernel
  simp only [handleHypercall, code, fd, buf, len, hvcOpen, hvcRead, hvcWrite]
  rfl

/-- The write is passed memory outside of every region, and is not refused. -/
theorem foreign_buffer_written :
    Access.mk 0x7F0000000000 8 ∈ hypercallAccesses obligingHost leakBlock [] 0x42000000 ∧
    ¬ Confined 0x42000000 (hypercallAccesses obligingHost leakBlock [] 0x42000000) := by
  have passed : Access.mk 0x7F0000000000 8 ∈ hypercallAccesses obligingHost leakBlock [] 0x42000000 := by
    rw [hypercallAccesses, leakBlock_op]
    exact List.mem_append_right _ (List.mem_singleton_self _)
  refine ⟨passed, fun confined => ?_⟩
  have first := Bytes.offset_mem (0x7F0000000000 : Word) (i := 0) (k := 8) (by decide) (by decide)
  have near := registered_near (confined _ passed first)
  revert near
  decide

end RealmVm
