import RealmVm.Hypercall.Guest

/-! Which calls mean on the host what the guest asked for. -/
namespace RealmVm

inductive GuestCall where
  | open (pathname : Word) (flags mode : CInt)
  | read (fd : CInt) (buf count : Word)
  | write (fd : CInt) (buf count : Word)
  | lseek (fd : CInt) (offset : Word) (whence : CInt)
  | close (fd : CInt)
  | exit (no : CInt)
deriving DecidableEq

def GuestCall.perform (g : Guest) (host : Host) (behind : Nat → Word) : GuestCall → Exchange
  | .open pathname flags mode => openWrapper g host behind pathname flags mode
  | .read fd buf count => readWrapper g host behind fd buf count
  | .write fd buf count => writeWrapper g host behind fd buf count
  | .lseek fd offset whence => lseekWrapper host behind fd offset whence
  | .close fd => closeWrapper host behind fd
  | .exit no => exitWrapper host behind no

def hostAddress (g : Guest) (p : Word) : Word := getPhysicalAddress g p &&& ~~~g.sharedBit

/-- The operation the caller asked for: pointers as the host sees them, the rest as it is. -/
def GuestCall.requested (g : Guest) : GuestCall → HostOp
  | .open pathname flags mode => .open (hostAddress g pathname) flags mode
  | .read fd buf count => .read fd (hostAddress g buf) count
  | .write fd buf count => .write fd (hostAddress g buf) count
  | .lseek fd offset whence => .lseek fd offset whence
  | .close fd => .close fd
  | .exit no => .exit no

/-- When a block is built, it leads to the requested operation, and the wrapper returns
the value of that operation. -/
def GuestCall.Agrees (g : Guest) (host : Host) (behind : Nat → Word) (call : GuestCall) : Prop :=
  (call.perform g host behind).block.isSome = true →
    (call.perform g host behind).op = some (call.requested g) ∧
    (call.perform g host behind).result = host.reply (call.requested g)

/-- The arguments for which encoder and decoder use the same slots. -/
def GuestCall.SlotsMatch (g : Guest) (host : Host) : GuestCall → Prop
  | .open _ _ _ => True
  | .read _ _ _ => True
  | .write fd buf count => buf = 0 ∨ host.hypercallWrite fd (hostAddress g buf) count ≠ .err
  | .lseek _ offset whence => offset = 0 ∧ whence = 0
  | .close fd => fd = 0
  | .exit no => no = 0

theorem truncate_signExtend (x : CInt) : (x.signExtend 64).truncate 32 = x := by
  apply BitVec.eq_of_getLsbD_eq
  intro i hi
  have wide : i < 64 := by omega
  rw [BitVec.truncate_eq_setWidth, BitVec.getLsbD_setWidth, BitVec.getLsbD_signExtend]
  simp [hi, wide]

theorem truncate_setWidth (x : CInt) : (x.setWidth 64).truncate 32 = x := by
  apply BitVec.eq_of_getLsbD_eq
  intro i hi
  simp [hi]

/-- The top byte of a physical address is clear. -/
theorem hostAddress_ne (g : Guest) (p : Word) : hostAddress g p ≠ -1 := by
  intro same
  have bit : (hostAddress g p).getLsbD 63 = (-1 : Word).getLsbD 63 := by rw [same]
  have set : (-1 : Word).getLsbD 63 = true := by decide
  have cleared : ((0xFF : Word) <<< 56).getLsbD 63 = true := by decide
  rw [set] at bit
  simp only [hostAddress, getPhysicalAddress, BitVec.getLsbD_and, BitVec.getLsbD_not, cleared] at bit
  simp at bit

variable (g : Guest) (host : Host) (behind : Nat → Word)

theorem open_agrees (pathname : Word) (flags mode : CInt) :
    (GuestCall.open pathname flags mode).Agrees g host behind := by
  intro _
  simp only [GuestCall.perform, openWrapper, ioHypercall, Exchange.toInt, handleHypercall, ioCall,
    hcallOpen, hvcOpen, if_true, truncate_signExtend, truncate_setWidth, GuestCall.requested, hostAddress,
    Host.reply, setSlot, Option.map_some, and_self]

theorem read_agrees (fd : CInt) (buf count : Word) : (GuestCall.read fd buf count).Agrees g host behind := by
  have proper := hostAddress_ne g buf
  intro built
  simp only [GuestCall.perform, readWrapper] at built ⊢
  cases decEq buf 0 with
  | isTrue null => simp [null, rejected] at built
  | isFalse present =>
    unfold hostAddress at proper
    rw [if_neg present, if_neg proper]
    simp only [ioHypercall, handleHypercall, ioCall, hcallRead, hvcOpen, hvcRead, truncate_signExtend,
      GuestCall.requested, hostAddress, Host.reply]
    cases host.hypercallRead fd (getPhysicalAddress g buf &&& ~~~g.sharedBit) count with
    | none => exact ⟨rfl, rfl⟩
    | some v => exact ⟨rfl, rfl⟩

theorem write_agrees_iff (fd : CInt) (buf count : Word) :
    (GuestCall.write fd buf count).Agrees g host behind ↔
      buf = 0 ∨ host.hypercallWrite fd (hostAddress g buf) count ≠ .err := by
  have proper := hostAddress_ne g buf
  simp only [GuestCall.Agrees, GuestCall.perform, writeWrapper]
  cases decEq buf 0 with
  | isTrue null =>
    rw [if_pos null]
    exact ⟨fun _ => Or.inl null, fun _ built => nomatch built⟩
  | isFalse present =>
    unfold hostAddress at proper ⊢
    rw [if_neg present, if_neg proper]
    simp only [ioHypercall, handleHypercall, ioCall, hcallWrite, hvcOpen, hvcRead, hvcWrite,
      truncate_signExtend, GuestCall.requested, hostAddress, Host.reply]
    cases host.hypercallWrite fd (getPhysicalAddress g buf &&& ~~~g.sharedBit) count with
    | ok v => exact ⟨fun _ => Or.inr (by simp), fun _ _ => ⟨rfl, rfl⟩⟩
    | never => exact ⟨fun _ => Or.inr (by simp), fun _ _ => ⟨rfl, rfl⟩⟩
    | err =>
      -- `unwrap` panics, so the guest never sees the -1
      constructor
      · intro agrees
        cases (agrees rfl).2
      · rintro (null | failed)
        · exact absurd null present
        · exact absurd rfl failed

theorem lseek_agrees_iff (fd : CInt) (offset : Word) (whence : CInt) :
    (GuestCall.lseek fd offset whence).Agrees g host behind ↔ offset = 0 ∧ whence = 0 := by
  simp only [GuestCall.Agrees, GuestCall.perform, lseekWrapper, ioHypercall, handleHypercall, ioCall,
    hcallLseek, hvcOpen, hvcRead, hvcWrite, hvcLseek, truncate_signExtend, GuestCall.requested, Host.reply]
  constructor
  · intro agrees
    have op := (agrees rfl).1
    simp at op
    exact ⟨op.1.symm, op.2.symm⟩
  · rintro ⟨rfl, rfl⟩ _
    exact ⟨rfl, rfl⟩

theorem close_agrees_iff (fd : CInt) : (GuestCall.close fd).Agrees g host behind ↔ fd = 0 := by
  simp only [GuestCall.Agrees, GuestCall.perform, closeWrapper, ioHypercall, Exchange.toInt, handleHypercall,
    ioCall, hcallClose, hvcOpen, hvcRead, hvcWrite, hvcLseek, hvcClose, GuestCall.requested, Host.reply]
  constructor
  · intro agrees
    have op := (agrees rfl).1
    simp at op
    exact op.symm
  · rintro rfl _
    refine ⟨rfl, ?_⟩
    simp [setSlot, truncate_signExtend]

theorem exit_agrees_iff (no : CInt) : (GuestCall.exit no).Agrees g host behind ↔ no = 0 := by
  simp only [GuestCall.Agrees, GuestCall.perform, exitWrapper, ioHypercall, Exchange.toInt, handleHypercall,
    ioCall, hcallExit, hvcOpen, hvcRead, hvcWrite, hvcLseek, hvcClose, hvcExit, GuestCall.requested, Host.reply]
  constructor
  · intro agrees
    have op := (agrees rfl).1
    simp at op
    exact op.symm
  · rintro rfl _
    exact ⟨rfl, rfl⟩

/-- Guest and VMM agree on a call exactly when its slots match. -/
theorem layout_agrees_iff (call : GuestCall) : call.Agrees g host behind ↔ call.SlotsMatch g host := by
  cases call with
  | «open» pathname flags mode => exact iff_of_true (open_agrees g host behind pathname flags mode) trivial
  | read fd buf count => exact iff_of_true (read_agrees g host behind fd buf count) trivial
  | write fd buf count => exact write_agrees_iff g host behind fd buf count
  | lseek fd offset whence => exact lseek_agrees_iff g host behind fd offset whence
  | close fd => exact close_agrees_iff g host behind fd
  | exit no => exact exit_agrees_iff g host behind no

/- A guest whose addresses are physical, and a host on which everything succeeds. -/
def flatGuest : Guest := ⟨fun va => va &&& ~~~0xFFF, 0x100000000⟩

def obligingHost : Host where
  hypercallOpen _ _ _ := 3
  hypercallRead _ _ len := some len
  hypercallWrite _ _ len := .ok len
  lseek _ offset _ := offset
  hypercallClose _ := 0

/-- `close(5)` closes host descriptor 0. -/
theorem close_five_closes_zero :
    ¬ (GuestCall.close 5).Agrees flatGuest obligingHost (fun _ => 0) ∧
    ((GuestCall.close 5).perform flatGuest obligingHost (fun _ => 0)).op = some (.close 0) := by
  refine ⟨fun agrees => ?_, by decide⟩
  have op := (agrees rfl).1
  revert op
  decide

end RealmVm
