import RealmVm.Exception.Vectors

/-! The vectors for exceptions from the current EL: what `exception_restore_half` makes of the
frame that `el1_excep_save_state` leaves. -/
namespace RealmVm

open Lib.A64

/-- The code of `curr_el_spx_irq`, and of its siblings, in front of the call of the handler. -/
def currElSpx : List Instr := el1ExcepSaveState ++ [.movSp 0]

/- The pairs of x0 to x29, in the order they are popped. -/
def generalPairs : List (Nat × Nat) :=
  [(0, 1), (2, 3), (4, 5), (6, 7), (8, 9), (10, 11), (12, 13), (14, 15), (16, 17), (18, 19), (20, 21),
    (22, 23), (24, 25), (26, 27), (28, 29)]

def el1ExcepRestoreState : List Instr :=
  [.ldpPre 0 1, .ldpPre 0 1] ++ (generalPairs.map fun p => .ldpPre p.1 p.2) ++ [.ldpPre 30 30]

/- The saved state in words: spsr_el1, elr_el1, esr_el1, pad and x[32]. -/
def frameWords : Nat := 36

/-- The handler returns with the stack pointer and the saved frame as they were. -/
structure HandledInPlace (entry c : Cpu) : Prop where
  sp : c.sp = (run entry currElSpx).sp
  frame : ∀ k < frameWords, c.mem (c.sp + BitVec.ofNat 64 (8 * k)) =
    (run entry currElSpx).mem (c.sp + BitVec.ofNat 64 (8 * k))

def InSavedFrame (entry : Cpu) (a : Word) : Prop :=
  ∃ k < frameWords, a = (run entry currElSpx).sp + BitVec.ofNat 64 (8 * k)

/-- The interrupted computation goes on with its registers, and they come from the frame. -/
structure Undone (entry c : Cpu) : Prop where
  registers : ∀ r < 31, (run c el1ExcepRestoreState).x r = entry.x r
  sp : (run c el1ExcepRestoreState).sp = entry.sp
  inside : ∀ a ∈ loads c el1ExcepRestoreState, InSavedFrame entry a

/-- The stack pointer moves before each load: x0 takes the seventh word, and the last pair lies
above the eighteen that were pushed. -/
theorem restore_spec (c : Cpu) :
    let out := run c el1ExcepRestoreState
    (∀ r < 30, out.x r = c.mem (c.sp + BitVec.ofNat 64 (8 * (r + 6)))) ∧
      out.x 30 = c.mem (c.sp + 288 + 8) ∧ out.sp = c.sp + 288 ∧
      c.sp + 288 + 8 ∈ loads c el1ExcepRestoreState := by
  intro out
  have start : (run c [.ldpPre 0 1, .ldpPre 0 1]).sp = c.sp + 32 ∧
      (run c [.ldpPre 0 1, .ldpPre 0 1]).mem = c.mem := by
    have moved : (run c [.ldpPre 0 1, .ldpPre 0 1]).sp = c.sp + 16 + 16 := rfl
    refine ⟨?_, rfl⟩
    rw [moved]
    bv_omega
  have parts : out = run (run (run c [.ldpPre 0 1, .ldpPre 0 1])
      (generalPairs.map fun p => .ldpPre p.1 p.2)) [.ldpPre 30 30] := by
    rw [← run_append, ← run_append]
    rfl
  have words : loads c el1ExcepRestoreState = loads c ([.ldpPre 0 1, .ldpPre 0 1] ++
      generalPairs.map fun p => .ldpPre p.1 p.2) ++ loads (run (run c [.ldpPre 0 1, .ldpPre 0 1])
        (generalPairs.map fun p => .ldpPre p.1 p.2)) [.ldpPre 30 30] := by
    rw [← run_append, ← loads_append]
    rfl
  generalize run c [.ldpPre 0 1, .ldpPre 0 1] = c₁ at start parts words
  have listed : (generalPairs.flatMap fun p => [p.1, p.2]) = List.range 30 := rfl
  obtain ⟨mem, sp, loaded, _⟩ := run_pops generalPairs c₁ (by rw [listed]; decide) (by rw [listed]; decide)
  rw [listed] at loaded
  rw [start.1, start.2] at loaded
  rw [start.2] at mem
  generalize run c₁ (generalPairs.map fun p => .ldpPre p.1 p.2) = c₂ at parts words mem sp loaded
  have top : c₂.sp + 16 = c.sp + 288 := by
    have fifteen : generalPairs.length = 15 := rfl
    rw [sp, start.1, fifteen]
    bv_omega
  have last : run c₂ [.ldpPre 30 30] = c₂.pop2 30 30 := rfl
  rw [last] at parts
  refine ⟨?_, ?_, ?_, ?_⟩
  · intro r low
    have other : r ≠ 30 := by omega
    have place : c.sp + 32 + 16 + BitVec.ofNat 64 (8 * r) = c.sp + BitVec.ofNat 64 (8 * (r + 6)) := by
      bv_omega
    have kept : out.x r = c₂.x r := by
      rw [parts, Cpu.pop2, write_x _ _ _ (by decide), write_x _ _ _ (by decide),
        Function.update_of_ne other, Function.update_of_ne other]
    rw [kept, loaded r r (List.getElem?_range low), place]
  · rw [parts, Cpu.pop2, write_x _ _ _ (by decide), Function.update_self, mem, top]
  · rw [parts, Cpu.pop2, write_sp, write_sp, top]
  · rw [words, ← top]
    exact List.mem_append_right _ (List.mem_cons_of_mem _ List.mem_cons_self)

/-- x0 to x27 come back as x2 to x29, and x28 and x29 both as x30. -/
theorem restored_shifted {entry c : Cpu} (handled : HandledInPlace entry c) :
    let back := run c el1ExcepRestoreState
    (∀ r < 28, back.x r = entry.x (r + 2)) ∧ back.x 28 = entry.x 30 ∧ back.x 29 = entry.x 30 ∧
      back.x 30 = c.mem (entry.sp + 8) ∧ back.sp = entry.sp ∧
      entry.sp + 8 ∈ loads c el1ExcepRestoreState := by
  intro back
  have nothing : Stacked entry.mem entry.sp [] := by
    intro k inside
    cases inside
  obtain ⟨pushed, _, saved⟩ := save_spec entry nothing (by decide)
  rw [List.append_nil] at saved
  obtain ⟨general, link, sp, above⟩ := restore_spec c
  have base : c.sp = entry.sp - 288 := handled.sp.trans pushed
  have balanced : c.sp + 288 = entry.sp := by
    rw [base]
    bv_omega
  rw [balanced] at link sp above
  have word : ∀ k < frameWords, ∀ w, (savedFrame entry)[k]? = some w →
      c.mem (c.sp + BitVec.ofNat 64 (8 * k)) = w := by
    intro k inside w found
    obtain ⟨long, same⟩ := List.getElem?_eq_some_iff.mp found
    rw [handled.frame k inside, base, ← same]
    exact saved k long
  refine ⟨?_, ?_, ?_, link, sp, above⟩
  · intro r low
    have found := savedFrame_register entry [] (show r + 2 < 31 by omega)
    rw [List.append_nil, contextX0, Nat.add_comm 4, Nat.add_assoc] at found
    exact (general r (by omega)).trans (word (r + 6) (by unfold frameWords; omega) _ found)
  · exact (general 28 (by decide)).trans (word 34 (by decide) _ rfl)
  · exact (general 29 (by decide)).trans (word 35 (by decide) _ rfl)

theorem above_frame (entry : Cpu) : ¬ InSavedFrame entry (entry.sp + 8) := by
  rintro ⟨k, inside, same⟩
  have nothing : Stacked entry.mem entry.sp [] := by
    intro k inside
    cases inside
  rw [(show (run entry currElSpx).sp = entry.sp - 288 from (save_spec entry nothing (by decide)).1)] at same
  unfold frameWords at inside
  bv_omega

/-- No exception of the current EL is undone: x30 is always read from above the frame. -/
theorem exception_never_undone {entry c : Cpu} (handled : HandledInPlace entry c) : ¬ Undone entry c := by
  intro undone
  obtain ⟨_, _, _, _, _, read⟩ := restored_shifted handled
  exact above_frame entry (undone.inside _ read)

/- Every register holds its number, and the stack ends at 4096. -/
def numbered : Cpu where
  x := BitVec.ofNat 64
  sp := 4096
  sys := fun _ => 0
  mem := fun _ => 0

theorem numbered_handled : HandledInPlace numbered (run numbered currElSpx) := ⟨rfl, fun _ _ => rfl⟩

theorem exception_never_undone_numbered : HandledInPlace numbered (run numbered currElSpx) ∧
    ¬ Undone numbered (run numbered currElSpx) :=
  ⟨numbered_handled, exception_never_undone numbered_handled⟩

/-- With a handler that does nothing, the interrupted code goes on with 2 in x0. -/
theorem registers_come_back_shifted : HandledInPlace numbered (run numbered currElSpx) ∧ numbered.x 0 = 0 ∧
    (run (run numbered currElSpx) el1ExcepRestoreState).x 0 = 2 ∧
    ¬ Undone numbered (run numbered currElSpx) := by
  have shifted := (restored_shifted numbered_handled).1 0 (by decide)
  refine ⟨numbered_handled, rfl, shifted, fun undone => ?_⟩
  have same := undone.registers 0 (by decide)
  rw [shifted] at same
  revert same
  decide

end RealmVm
