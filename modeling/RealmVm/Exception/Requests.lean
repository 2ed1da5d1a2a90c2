import RealmVm.Exception.Sessions
import RealmVm.Hypercall.Service

/-! The kernel and the VMM as one system: what becomes of the requests of a run of exceptions. -/
namespace RealmVm

open Lib Lib.A64

/- How a block gets to the VMM: its memory then, the address that is sent, and the exits of the virtual CPU. -/
structure Transmission where
  memory : Word → Byte
  address : Word
  exits : List VcpuExit

structure System where
  kernel : Supervisor
  vmm : Vmm HostState

section Requests

variable (endian : LittleEndian) (files : HostFiles) (fuel : Nat)

/-- The block is in the memory, and the loop takes the bytes of its address. -/
structure Transmission.Delivers (c : Transmission) (block : Nat → Word) (v v' : Vmm HostState) : Prop where
  block : hvcArgs c.memory c.address = block
  sends : SendsCall c.address c.exits
  run : Lib.Run (Vmm.Step endian (HostState.handle files fuel)) { v with world := v.world.withMemory c.memory } c.exits v'

/-- The blocks of one exception, one after the other. -/
inductive Carried : List (Nat → Word) → List Transmission → Vmm HostState → Vmm HostState → Prop where
  | nil (v : Vmm HostState) : Carried [] [] v v
  | cons {block : Nat → Word} {blocks : List (Nat → Word)} {c : Transmission} {cs : List Transmission}
      {v v' v'' : Vmm HostState} : c.Delivers endian files fuel block v v' → Carried blocks cs v' v'' →
      Carried (block :: blocks) (c :: cs) v v''

/- An exception, with its blocks on the channel. Its host is the VMM when it gets the first one. -/
def System.Step (s : System) (x : Exception × List Transmission) (t : System) : Prop :=
  s.kernel.running = true ∧ x.1.entry.sp = s.kernel.sp ∧
    (∀ c, x.2.head? = some c → x.1.env.host = (s.vmm.world.withMemory c.memory).host files fuel) ∧
    ∃ served, Returns (fun fuel => some (x.1.handle s.kernel.table fuel)) served ∧
      s.kernel.Takes x.1 served t.kernel ∧ Carried endian files fuel served.blocks x.2 s.vmm t.vmm

/-- One operation of the host, between whatever the guest does to its memory and the answer to the block. -/
def HostState.Performs (w : HostState) (op : HostOp) (w' : HostState) : Prop :=
  ∃ memory address v, ((w.withMemory memory).host files fuel).answers op = some v ∧
    w' = ((w.withMemory memory).perform files fuel op).answer address v

end Requests

variable {endian : LittleEndian} {files : HostFiles} {fuel : Nat} {s t : System} {m : Sessions} {xs : List (Exception × List Transmission)}

/-- Where a block asks for something, its first word becomes the answer to that. -/
theorem handleHypercall_value (host : Host) (hvcArgs : Nat → Word) {op : HostOp}
    (asked : (handleHypercall host hvcArgs).op = some op) :
    (handleHypercall host hvcArgs).outcome.value = host.answers op := by
  unfold handleHypercall at asked ⊢
  simp only at asked ⊢
  split at asked
  · rename_i code
    rw [if_pos code]
    cases asked
    rfl
  · rename_i notOpen
    rw [if_neg notOpen]
    split at asked
    · rename_i code
      rw [if_pos code]
      cases asked
      simp only [Host.answers]
      cases host.hypercallRead ((hvcArgs 1).truncate 32) (hvcArgs 2) (hvcArgs 3) <;> rfl
    · rename_i notRead
      rw [if_neg notRead]
      split at asked
      · rename_i code
        rw [if_pos code]
        cases asked
        simp only [Host.answers]
        cases host.hypercallWrite ((hvcArgs 1).truncate 32) (hvcArgs 2) (hvcArgs 3) <;> rfl
      · rename_i notWrite
        rw [if_neg notWrite]
        split at asked
        · rename_i code
          rw [if_pos code]
          cases asked
          rfl
        · rename_i notLseek
          rw [if_neg notLseek]
          split at asked
          · rename_i code
            rw [if_pos code]
            cases asked
            rfl
          · rename_i notClose
            rw [if_neg notClose]
            split at asked
            · rename_i code
              rw [if_pos code]
              cases asked
              rfl
            · cases asked

/-- The VMM is left as the operation leaves it, or gone. -/
theorem Transmission.Delivers.performed {c : Transmission} {block : Nat → Word} {v v' : Vmm HostState} {op : HostOp}
    (delivers : c.Delivers endian files fuel block v v') (ready : v.Ready) :
    let host := (v.world.withMemory c.memory).host files fuel
    (handleHypercall host block).op = some op → v'.calls = v.calls ++ [c.address] ∧
      (∀ value, host.answers op = some value → v'.Ready ∧ HostState.Performs files fuel v.world op v'.world) ∧
      (host.answers op = none → v'.running = false ∧ v'.world = v.world.withMemory c.memory) := by
  intro host asks
  have between : Vmm.Ready { v with world := v.world.withMemory c.memory } := ⟨ready.running, ready.empty⟩
  obtain ⟨calls, running, world, emptied⟩ := between.answered delivers.sends delivers.run
  have handled : HostState.handle files fuel (v.world.withMemory c.memory) c.address = (host.answers op).map
      (((v.world.withMemory c.memory).perform files fuel op).answer c.address) := by
    have found : hvcArgs (v.world.withMemory c.memory).memory c.address = block := delivers.block
    rw [HostState.handle, found, handleHypercall_value host block asks, asks, Option.elim_some]
  rw [handled] at running world
  refine ⟨calls, fun value answered => ?_, fun silent => ?_⟩
  · rw [answered] at running world
    exact ⟨⟨running, emptied running⟩, c.memory, c.address, value, answered, world⟩
  · rw [silent] at running world
    exact ⟨running, world⟩

theorem Carried.none {cs : List Transmission} {v v' : Vmm HostState} (carried : Carried endian files fuel [] cs v v') :
    cs = [] ∧ v' = v := by
  cases carried
  exact ⟨rfl, rfl⟩

theorem Carried.first {block : Nat → Word} {blocks : List (Nat → Word)} {cs : List Transmission}
    {v v' : Vmm HostState} (carried : Carried endian files fuel (block :: blocks) cs v v') :
    ∃ c rest between, cs = c :: rest ∧ c.Delivers endian files fuel block v between ∧
      Carried endian files fuel blocks rest between v' := by
  cases carried with
  | cons delivers rest => exact ⟨_, _, _, rfl, delivers, rest⟩

theorem Carried.one {block : Nat → Word} {cs : List Transmission} {v v' : Vmm HostState}
    (carried : Carried endian files fuel [block] cs v v') : ∃ c, cs = [c] ∧ c.Delivers endian files fuel block v v' := by
  obtain ⟨c, rest, between, rfl, delivers, others⟩ := carried.first
  obtain ⟨rfl, rfl⟩ := others.none
  exact ⟨c, rfl, delivers⟩

theorem System.Step.kernel {x : Exception × List Transmission} (step : s.Step endian files fuel x t) :
    s.kernel.Step x.1 t.kernel := by
  obtain ⟨running, stack, _, served, returns, takes, _⟩ := step
  exact ⟨running, stack, served, returns, takes⟩

end RealmVm
