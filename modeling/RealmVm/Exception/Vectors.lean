import RealmVm.Lib.A64
import RealmVm.Basic

/-! `lower_el_aarch64_sync`: the saved frame, the call of `sync_handler`, and the return
through `_switch_to_user`. -/
namespace RealmVm

open Lib.A64

/-- The register pairs of `el1_excep_save_state`, in the order they are pushed. -/
def savedPairs : List (Nat × Nat) :=
  [(30, 30), (28, 29), (26, 27), (24, 25), (22, 23), (20, 21), (18, 19), (16, 17), (14, 15), (12, 13),
    (10, 11), (8, 9), (6, 7), (4, 5), (2, 3), (0, 1)]

def el1ExcepSaveState : List Instr :=
  (savedPairs.map fun p => .stpPre p.1 p.2) ++
    [.mrs 0 .esrEl1, .stpPre 0 31, .mrs 1 .elrEl1, .mrs 0 .spsrEl1, .stpPre 0 1]

/- The code in front of `bl sync_handler`. -/
def lowerElAarch64Sync : List Instr := el1ExcepSaveState ++ [.movSp 0]

def restoreState : List Instr := .mov 1 0 :: (List.range' 2 29).map fun n => .ldrPost n 0

/-- `_switch_to_user` up to `eret`, with the context in `x0`. -/
def switchToUser : List Instr :=
  [.ldrPost 1 0, .mrs 1 .spsrEl1, -- the word of spsr_el1 is read, but not written back
    .ldrPost 1 0, .msr .elrEl1 1, .strPre 0, .addImm 0 0 32] ++
  (restoreState ++
  [.ldr 1 0 16, .msr .spEl0 1, .ldrPostSp 0, .addImm 0 0 16, .ldp 0 1 0])

/- `context_t`, in words: spsr_el1, elr_el1, esr_el1, zero, x[32], far, sp. -/
def contextWords : Nat := 38
def contextX0 : Nat := 4

/-- What the code relies on in `sync_handler` for a system call: it is a C function that
returns its argument and the stack pointer, and of the context it is given it writes
`x[0]`, the result. -/
structure SyncHandler (c : Cpu) (result : Word) (c' : Cpu) : Prop where
  sp : c'.sp = c.sp
  returns : c'.x 0 = c.x 0
  result : c'.mem (c.x 0 + BitVec.ofNat 64 (8 * contextX0)) = result
  kept : ∀ k < contextWords, k ≠ contextX0 →
    c'.mem (c.x 0 + BitVec.ofNat 64 (8 * k)) = c.mem (c.x 0 + BitVec.ofNat 64 (8 * k))

/-- One trap: `entry` is the processor when the vector is entered, `back` at `eret`. -/
def Serviced (entry : Cpu) (result : Word) (back : Cpu) : Prop :=
  ∃ c, SyncHandler (run entry lowerElAarch64Sync) result c ∧ back = run c switchToUser

/-- The words of the saved frame, from the stack pointer up. -/
def savedFrame (c : Cpu) : List Word :=
  [c.sys .spsrEl1, c.sys .elrEl1, c.sys .esrEl1, 0] ++ (List.range 31).map c.x ++ [c.x 30]

theorem savedFrame_register (c : Cpu) (ws : List Word) {r : Nat} (inRange : r < 31) :
    (savedFrame c ++ ws)[contextX0 + r]? = some (c.x r) := by
  have behind : contextX0 + r = r + 1 + 1 + 1 + 1 := Nat.add_comm _ _
  have within : r < ((List.range 31).map c.x).length := by simpa using inRange
  rw [savedFrame, behind, List.append_assoc, List.append_assoc]
  simp only [List.cons_append, List.nil_append, List.getElem?_cons_succ]
  rw [List.getElem?_append_left within, List.getElem?_map, List.getElem?_range inRange, Option.map_some]

/- The words of the general registers, as the pairs are pushed. -/
theorem savedPairs_words (c : Cpu) : savedPairs.reverse.flatMap (fun p => [c.read p.1, c.read p.2]) =
    (List.range 31).map c.x ++ [c.x 30] := rfl

/-- The frame is 288 bytes, 16 less than a context; what was on the stack lies above it. -/
theorem save_spec (c : Cpu) {ws : List Word} (stacked : Stacked c.mem c.sp ws) (short : ws.length < 2 ^ 32) :
    let out := run c lowerElAarch64Sync
    out.sp = c.sp - 288 ∧ out.x 0 = c.sp - 288 ∧ Stacked out.mem (c.sp - 288) (savedFrame c ++ ws) := by
  have pairs : savedPairs.length = 16 := rfl
  obtain ⟨_, sys, sp, pushed⟩ := run_pushes savedPairs stacked (by rw [pairs]; omega)
  rw [lowerElAarch64Sync, el1ExcepSaveState, run_append, run_append]
  generalize run c (savedPairs.map fun p => .stpPre p.1 p.2) = c₁ at sys sp pushed ⊢
  rw [savedPairs_words] at pushed
  have length : ((List.range 31).map c.x ++ [c.x 30] ++ ws).length = 32 + ws.length := by
    simp only [List.length_append, List.length_map, List.length_range, List.length_cons, List.length_nil]
  -- the exception syndrome, then the saved program state
  have syndrome := pushed.push2 (by rw [length]; omega) (c₁.sys .esrEl1) 0
  have state := syndrome.push2 (by simp only [List.length_cons, length]; omega) (c₁.sys .spsrEl1) (c₁.sys .elrEl1)
  have place : c₁.sp - 16 - 16 = c.sp - 288 := by
    rw [sp, pairs]
    bv_omega
  refine ⟨place, place, ?_⟩
  have words : savedFrame c ++ ws = c₁.sys .spsrEl1 :: c₁.sys .elrEl1 :: c₁.sys .esrEl1 :: 0 ::
      ((List.range 31).map c.x ++ [c.x 30] ++ ws) := by
    rw [sys]
    rfl
  rw [← place, words]
  exact state

/- `_switch_to_user` before and behind the loads of x2 to x30. -/
def beforeLoads : List Instr :=
  [.ldrPost 1 0, .mrs 1 .spsrEl1, .ldrPost 1 0, .msr .elrEl1 1, .strPre 0, .addImm 0 0 32, .mov 1 0]

def behindLoads : List Instr := [.ldr 1 0 16, .msr .spEl0 1, .ldrPostSp 0, .addImm 0 0 16, .ldp 0 1 0]

theorem switchToUser_parts (c : Cpu) : run c switchToUser =
    run (run (run c beforeLoads) ((List.range' 2 29).map fun n => .ldrPost n 0)) behindLoads := by
  rw [← run_append, ← run_append]
  rfl

/-- x0 points at x[2], and the slot below the frame at x[0] - 16. -/
theorem beforeLoads_spec (c : Cpu) :
    let out := run c beforeLoads
    out.x 0 = c.x 0 + 48 ∧ out.mem = Function.update c.mem (c.sp - 8) (c.x 0 + 16) ∧ out.sp = c.sp - 8 ∧
      out.sys = Function.update c.sys .elrEl1 (c.mem (c.x 0 + 8)) := by
  have pointer : (run c beforeLoads).x 0 = c.x 0 + 8 + 8 + 32 := rfl
  have slot : (run c beforeLoads).mem = Function.update c.mem (c.sp - 8) (c.x 0 + 8 + 8) := rfl
  have sum : c.x 0 + 8 + 8 = c.x 0 + 16 := by bv_omega
  rw [sum] at pointer slot
  refine ⟨pointer.trans ?_, slot, rfl, rfl⟩
  bv_omega

theorem behindLoads_spec (c : Cpu) :
    let out := run c behindLoads
    (out.x 0 = c.mem (c.mem c.sp + 16) ∧ out.x 1 = c.mem (c.mem c.sp + 16 + 8)) ∧ (∀ r, 2 ≤ r → out.x r = c.x r) ∧
      out.sys = Function.update c.sys .spEl0 (c.mem (c.x 0 + 16)) ∧ out.sp = c.sp + 8 := by
  refine ⟨⟨rfl, rfl⟩, fun r from2 => ?_, rfl, rfl⟩
  have not0 : r ≠ 0 := by omega
  have not1 : r ≠ 1 := by omega
  simp [behindLoads, run_cons, run_nil, Instr.exec, Cpu.write, Cpu.read, not0, not1]

/-- What `_switch_to_user` leaves, in terms of the words of the context it is given. -/
theorem switch_spec (c : Cpu) (inside : c.x 0 = c.sp) :
    let out := run c switchToUser
    let word := fun k => c.mem (c.x 0 + BitVec.ofNat 64 (8 * k))
    (∀ r, r < 31 → out.x r = word (contextX0 + r)) ∧ out.sys .elrEl1 = word 1 ∧
      out.sys .spEl0 = word 37 ∧ out.sys .spsrEl1 = c.sys .spsrEl1 ∧ out.sp = c.sp := by
  intro out word
  obtain ⟨pointer, slot, sp, sys⟩ := beforeLoads_spec c
  have whole : out = _ := switchToUser_parts c
  generalize run c beforeLoads = c₁ at pointer slot sp sys whole
  obtain ⟨mem₂, sp₂, sys₂, last, loaded, _⟩ := run_loads 29 2 c₁ (by decide) (by decide)
  generalize run c₁ ((List.range' 2 29).map fun n => .ldrPost n 0) = c₂ at mem₂ sp₂ sys₂ last loaded whole
  obtain ⟨low, high, sys₃, popped⟩ := behindLoads_spec c₂
  generalize run c₂ behindLoads = c₃ at low high sys₃ popped whole
  -- the slot is below the context, which is read unchanged
  have frame : ∀ k < contextWords, c₁.mem (c.x 0 + BitVec.ofNat 64 (8 * k)) = word k := by
    intro k hk
    have apart : c.x 0 + BitVec.ofNat 64 (8 * k) ≠ c.sp - 8 := by
      rw [inside]
      unfold contextWords at hk
      bv_omega
    rw [slot, Function.update_of_ne apart]
  have stack : c₂.mem c₂.sp = c.x 0 + 16 := by rw [mem₂, sp₂, slot, sp, Function.update_self]
  have end₂ : c₂.x 0 = c.x 0 + 280 := by
    rw [last, pointer]
    bv_omega
  have lowest : c₃.x 0 = word contextX0 ∧ c₃.x 1 = word (contextX0 + 1) := by
    have place0 : c.x 0 + 16 + 16 = c.x 0 + BitVec.ofNat 64 (8 * contextX0) := by
      simp only [contextX0]
      bv_omega
    have place1 : c.x 0 + 16 + 16 + 8 = c.x 0 + BitVec.ofNat 64 (8 * (contextX0 + 1)) := by
      simp only [contextX0]
      bv_omega
    constructor
    · rw [low.1, stack, place0, mem₂]
      exact frame _ (by decide)
    · rw [low.2, stack, place1, mem₂]
      exact frame _ (by decide)
  rw [whole]
  refine ⟨fun r inRange => ?_, ?_, ?_, ?_, ?_⟩
  · rcases (by omega : r = 0 ∨ r = 1 ∨ 2 ≤ r) with rfl | rfl | from2
    · exact lowest.1
    · exact lowest.2
    · have place : c.x 0 + 48 + BitVec.ofNat 64 (8 * (r - 2)) =
          c.x 0 + BitVec.ofNat 64 (8 * (contextX0 + r)) := by
        simp only [contextX0]
        bv_omega
      rw [high r from2, loaded r from2 inRange, pointer, place]
      exact frame _ (by simp only [contextX0, contextWords]; omega)
  · rw [sys₃, Function.update_of_ne (by decide), sys₂, sys, Function.update_self]
    rfl
  · have place : c.x 0 + 280 + 16 = c.x 0 + BitVec.ofNat 64 (8 * 37) := by bv_omega
    rw [sys₃, Function.update_self, end₂, place, mem₂]
    exact frame 37 (by decide)
  · rw [sys₃, Function.update_of_ne (by decide), sys₂, sys, Function.update_of_ne (by decide)]
  · rw [popped, sp₂, sp]
    bv_omega

/-- One system call: the registers and the return address come back, but the frame stays
on the stack, and `SP_EL0` is what lay above it. -/
theorem serviced_spec {entry back : Cpu} {result : Word} (serviced : Serviced entry result back) :
    back.x 0 = result ∧ (∀ r, 1 ≤ r → r < 31 → back.x r = entry.x r) ∧
      back.sys .elrEl1 = entry.sys .elrEl1 ∧ back.sys .spEl0 = entry.mem (entry.sp + 8) ∧
      back.sp = entry.sp - 288 := by
  obtain ⟨c, handler, rfl⟩ := serviced
  have stacked : Stacked entry.mem entry.sp [entry.mem entry.sp, entry.mem (entry.sp + 8)] := by
    intro k inside
    simp only [List.length_cons, List.length_nil] at inside
    cases (by omega : k = 0 ∨ k = 1) with
    | inl zero =>
      subst zero
      simp
    | inr one =>
      subst one
      simp
  obtain ⟨sp, pointer, saved⟩ := save_spec entry stacked (by simp)
  obtain ⟨registers, elr, spEl0, _, after⟩ := switch_spec c (by rw [handler.returns, handler.sp, pointer, sp])
  have base : c.x 0 = entry.sp - 288 := handler.returns.trans pointer
  -- a word of the context that the handler leaves alone is one of the frame or above it
  have word : ∀ k < contextWords, k ≠ contextX0 → ∀ w,
      (savedFrame entry ++ [entry.mem entry.sp, entry.mem (entry.sp + 8)])[k]? = some w →
      c.mem (c.x 0 + BitVec.ofNat 64 (8 * k)) = w := by
    intro k inside other w at_k
    obtain ⟨long, found⟩ := List.getElem?_eq_some_iff.mp at_k
    have kept := handler.kept k inside other
    rw [pointer] at kept
    rw [base, kept, saved k long, found]
  refine ⟨?_, ?_, ?_, ?_, ?_⟩
  · rw [registers 0 (by decide), Nat.add_zero, handler.returns]
    exact handler.result
  · intro r positive inRange
    rw [registers r inRange]
    exact word _ (by simp only [contextX0, contextWords]; omega) (by simp only [contextX0]; omega) _
      (savedFrame_register entry _ inRange)
  · exact elr.trans (word 1 (by decide) (by decide) _ rfl)
  · exact spEl0.trans (word 37 (by decide) (by decide) _ rfl)
  · rw [after, handler.sp, sp]

end RealmVm
