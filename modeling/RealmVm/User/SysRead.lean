import RealmVm.User.Copy

/-! `sys_read`, with a host that may answer anything. -/
namespace RealmVm

/- What the kernel has around the call: the answer of `get_host_fd` for the current
process, the bounce buffer `smalloc` returned, and the memory after the hypercall. -/
structure ReadCall where
  mmu : Mmu
  guest : Guest
  host : Host
  behind : Nat → Word
  hostFd : Int
  newBuffer : Word
  bytes : Word → Byte

def enomemWord : Word := 12
def enoentWord : Word := 2

/- What `sys_read` leaves. There is no value when it does not come back: the host does not answer, or the copy faults. -/
structure ReadBack where
  ret : Option Word
  bytes : Word → Byte
  accesses : List (Word × Word)

/-- `found` is a `size_t`, so the comparison with 0 is unsigned. The turns in front of one that faults are done. -/
def sysRead (c : ReadCall) (fd : CInt) (buf count : Word) : ReadBack :=
  if c.hostFd < 0 then ⟨some (-enoentWord), c.bytes, []⟩
  else if c.newBuffer = 0 then ⟨some (-enomemWord), c.bytes, []⟩
  else
    match (readWrapper c.guest c.host c.behind fd c.newBuffer count).result with
    | none => ⟨none, c.bytes, []⟩
    | some found =>
      if found < 0 then ⟨some found, c.bytes, []⟩
      else
        let turns := c.mmu.turns buf c.newBuffer found.toNat 0
        if accessKernelOk c.mmu buf protRw = 0 ∧ turns < found.toNat then
          let copied := copyBytes c.bytes buf c.newBuffer (BitVec.ofNat 64 turns)
          ⟨none, copied.bytes, copied.accesses⟩
        else
          let copied := copyToUser c.mmu c.bytes buf c.newBuffer found
          ⟨some found, copied.bytes, copied.accesses⟩

/-- At most `count` bytes go to the user, all from the bounce buffer; a negative answer
copies nothing and is what the caller gets. -/
structure SafeRead (newBuffer count reply : Word) (r : ReadBack) : Prop where
  atMost : r.accesses.length ≤ count.toNat
  own : ∀ a ∈ r.accesses, ∃ i < count.toNat, a.2 = newBuffer + BitVec.ofNat 64 i
  nothing : reply.toInt < 0 → r.accesses = [] ∧ r.ret = some reply

/-- The host's answer reaches `sys_read` unchanged. -/
theorem readWrapper_result (g : Guest) (host : Host) (behind : Nat → Word) (fd : CInt)
    {buf : Word} (count reply : Word) (allocated : buf ≠ 0)
    (answered : host.hypercallRead fd (hostAddress g buf) count = some reply) :
    (readWrapper g host behind fd buf count).result = some reply := by
  have agrees := read_agrees g host behind fd buf count
  have proper := hostAddress_ne g buf
  have built : ((GuestCall.read fd buf count).perform g host behind).block.isSome = true := by
    unfold hostAddress at proper
    simp only [GuestCall.perform, readWrapper, if_neg allocated, if_neg proper]
    rfl
  exact (agrees built).2.trans answered

/-- The copy, where the host answers. -/
def readReply (c : ReadCall) (buf reply : Word) : ReadBack :=
  if accessKernelOk c.mmu buf protRw = 0 then
    let turns := c.mmu.turns buf c.newBuffer reply.toNat 0
    let copied := copyBytes c.bytes buf c.newBuffer (BitVec.ofNat 64 turns)
    ⟨if turns < reply.toNat then none else some reply, copied.bytes, copied.accesses⟩
  else ⟨some reply, c.bytes, []⟩

theorem sysRead_eq (c : ReadCall) (fd : CInt) (buf count reply : Word) (entry : 0 ≤ c.hostFd)
    (allocated : c.newBuffer ≠ 0)
    (answered : c.host.hypercallRead fd (hostAddress c.guest c.newBuffer) count = some reply) :
    sysRead c fd buf count = readReply c buf reply := by
  have never : ¬ reply < 0 := BitVec.not_lt_zero
  have most := c.mmu.turns_le buf c.newBuffer reply.toNat 0
  rw [sysRead, if_neg (Int.not_lt.mpr entry), if_neg allocated,
    readWrapper_result c.guest c.host c.behind fd count reply allocated answered]
  simp only [if_neg never, readReply]
  by_cases passed : accessKernelOk c.mmu buf protRw = 0
  · simp only [passed, true_and, if_true, copyToUser]
    split
    · rfl
    · have all : c.mmu.turns buf c.newBuffer reply.toNat 0 = reply.toNat := by omega
      rw [all, BitVec.ofNat_toNat, BitVec.setWidth_eq]
      rfl
  · simp only [passed, false_and, if_false, copyToUser, if_pos passed]

theorem readReply_accesses {c : ReadCall} {buf reply : Word} (passed : accessKernelOk c.mmu buf protRw = 0) :
    (readReply c buf reply).accesses = (List.range (c.mmu.turns buf c.newBuffer reply.toNat 0)).map fun i =>
      (buf + BitVec.ofNat 64 i, c.newBuffer + BitVec.ofNat 64 i) := by
  have most := c.mmu.turns_le buf c.newBuffer reply.toNat 0
  have small := reply.isLt
  have turns : (BitVec.ofNat 64 (c.mmu.turns buf c.newBuffer reply.toNat 0)).toNat =
      c.mmu.turns buf c.newBuffer reply.toNat 0 := by
    rw [BitVec.toNat_ofNat, Nat.mod_eq_of_lt (by omega)]
  simp only [readReply, if_pos passed, accesses_copyBytes, turns]

/-- Not more than `count` turns are made when the answer is not larger, or one of the first `count + 1` turns faults. -/
theorem turns_le_iff (m : Mmu) (dst src : Word) (left most : Nat) :
    m.turns dst src left 0 ≤ most ↔ left ≤ most ∨ ∃ i ≤ most, m.copies dst src i = false := by
  by_cases few : left ≤ most
  · exact iff_of_true (Nat.le_trans (m.turns_le dst src left 0) few) (Or.inl few)
  · have reached := m.le_turns_iff dst src (Nat.lt_of_not_le few) 0
    simp only [Nat.zero_add] at reached
    rw [← not_iff_not, Nat.not_le, Nat.lt_iff_add_one_le, reached, not_or, not_exists]
    constructor
    · intro all
      exact ⟨few, fun i faults => Bool.noConfusion (faults.2.symm.trans (all i (Nat.lt_succ_of_le faults.1)))⟩
    · rintro ⟨-, none⟩ i inside
      exact (Bool.not_eq_false _).mp fun faults => none i ⟨Nat.le_of_lt_succ inside, faults⟩

/-- Whatever the host answers, `sys_read` is safe exactly when the user buffer is refused at EL1, or the answer is
between 0 and `count`, or a larger one stops at a fault before it copies too much. -/
theorem sysRead_safe_iff (c : ReadCall) (fd : CInt) (buf count reply : Word) (entry : 0 ≤ c.hostFd)
    (allocated : c.newBuffer ≠ 0)
    (answered : c.host.hypercallRead fd (hostAddress c.guest c.newBuffer) count = some reply) :
    SafeRead c.newBuffer count reply (sysRead c fd buf count) ↔
      accessKernelOk c.mmu buf protRw ≠ 0 ∨
        (0 ≤ reply.toInt ∧ (reply ≤ count ∨ ∃ i ≤ count.toNat, c.mmu.copies buf c.newBuffer i = false)) := by
  rw [sysRead_eq c fd buf count reply entry allocated answered]
  by_cases passed : accessKernelOk c.mmu buf protRw = 0
  · have accesses := @readReply_accesses c buf reply passed
    have length : (readReply c buf reply).accesses.length = c.mmu.turns buf c.newBuffer reply.toNat 0 := by
      rw [accesses, List.length_map, List.length_range]
    have within : reply ≤ count ↔ reply.toNat ≤ count.toNat := BitVec.le_def
    rw [within, ← turns_le_iff, ← length]
    constructor
    · intro safe
      refine Or.inr ⟨Int.not_lt.mp fun negative => ?_, safe.atMost⟩
      obtain ⟨none, value⟩ := safe.nothing negative
      -- no turn is made, but then one faults
      rw [none, List.length_nil] at length
      have positive : 0 < reply.toNat := by
        rw [BitVec.toInt_eq_toNat_cond] at negative
        split at negative <;> omega
      simp only [readReply, if_pos passed, if_pos (length ▸ positive)] at value
      cases value
    · rintro (refused | ⟨positive, most⟩)
      · exact absurd passed refused
      · refine ⟨most, ?_, fun negative => absurd negative (Int.not_lt.mpr positive)⟩
        rw [accesses]
        intro a member
        obtain ⟨i, inside, rfl⟩ := List.mem_map.mp member
        exact ⟨i, Nat.lt_of_lt_of_le (List.mem_range.mp inside) (length ▸ most), rfl⟩
  · refine iff_of_true ?_ (Or.inl passed)
    simp only [readReply, if_neg passed]
    exact ⟨Nat.zero_le _, fun a none => absurd none List.not_mem_nil, fun _ => ⟨rfl, rfl⟩⟩

/- One user page at address 0, and the kernel's at 0x2000. -/
def userPage : Mmu := { kernelPageOnly with
  word := Function.update (Function.update kernelPageOnly.word 0x4000 0x5743) 0x4010 0x7703 }

/- A host that answers every read with 2. -/
def readTwo : ReadCall where
  mmu := userPage
  guest := flatGuest
  host := { obligingHost with hypercallRead := fun _ _ _ => some 2 }
  behind _ := 0
  hostFd := 3
  newBuffer := 0x2000
  bytes _ := 0

theorem sysRead_safe_iff_two_of_four :
    SafeRead 0x2000 4 2 (sysRead readTwo 3 0 4) ↔
      accessKernelOk userPage 0 protRw ≠ 0 ∨
        (0 ≤ (2 : Word).toInt ∧ ((2 : Word) ≤ 4 ∨ ∃ i ≤ (4 : Word).toNat, userPage.copies 0 0x2000 i = false)) :=
  sysRead_safe_iff readTwo 3 0 4 2 (by decide) (by decide) rfl

/-- One byte was asked for, the host answers 2, and two bytes go to the user. -/
theorem long_answer_copied : ¬ SafeRead 0x2000 1 2 (sysRead readTwo 3 0 1) := by
  intro safe
  have most := safe.atMost
  rw [sysRead_eq readTwo 3 0 1 2 (by decide) (by decide) rfl] at most
  revert most
  decide

end RealmVm
