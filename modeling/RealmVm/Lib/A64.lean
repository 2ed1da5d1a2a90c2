import Mathlib.Data.List.Basic
import Mathlib.Data.List.Range
import Mathlib.Logic.Function.Basic
import Mathlib.Tactic.Ring

/-! Straight-line A64 code at EL1: the loads, stores and moves that save and restore a
context. Memory is read and written in aligned 8-byte words, keyed by their address. -/
namespace Lib.A64

inductive SysReg where
  | spEl0 | elrEl1 | spsrEl1 | esrEl1
deriving DecidableEq

/- General registers are numbered; 31 reads as zero and is never written. -/
structure Cpu where
  x : Nat → BitVec 64
  sp : BitVec 64
  sys : SysReg → BitVec 64
  mem : BitVec 64 → BitVec 64

inductive Instr where
  | stpPre (a b : Nat)              -- stp Xa, Xb, [sp, -16]!
  | ldpPre (a b : Nat)              -- ldp Xa, Xb, [sp, 16]!
  | strPre (t : Nat)                -- str Xt, [sp, -8]!
  | ldrPostSp (t : Nat)             -- ldr Xt, [sp], 8
  | ldrPost (t n : Nat)             -- ldr Xt, [Xn], #8
  | ldr (t n : Nat) (offset : BitVec 64)
  | ldp (a b n : Nat)               -- ldp Xa, Xb, [Xn]
  | mrs (t : Nat) (r : SysReg)
  | msr (r : SysReg) (t : Nat)
  | mov (d n : Nat)
  | movSp (d : Nat)                 -- mov Xd, sp
  | addImm (d n : Nat) (imm : BitVec 64)
deriving DecidableEq

def Cpu.read (c : Cpu) (n : Nat) : BitVec 64 := if n = 31 then 0 else c.x n

def Cpu.write (c : Cpu) (n : Nat) (v : BitVec 64) : Cpu :=
  if n = 31 then c else { c with x := Function.update c.x n v }

def Cpu.push2 (c : Cpu) (v w : BitVec 64) : Cpu :=
  { c with
    sp := c.sp - 16
    mem := Function.update (Function.update c.mem (c.sp - 16) v) (c.sp - 16 + 8) w }

def Cpu.push (c : Cpu) (v : BitVec 64) : Cpu :=
  { c with sp := c.sp - 8, mem := Function.update c.mem (c.sp - 8) v }

/- The loads of `ldp [sp, 16]!`: the stack pointer moves first. Where both registers are the
same one, which the architecture leaves open, the second word stays. -/
def Cpu.pop2 (c : Cpu) (a b : Nat) : Cpu :=
  (({ c with sp := c.sp + 16 } : Cpu).write a (c.mem (c.sp + 16))).write b (c.mem (c.sp + 16 + 8))

def Instr.exec (c : Cpu) : Instr → Cpu
  | .stpPre a b => c.push2 (c.read a) (c.read b)
  | .ldpPre a b => c.pop2 a b
  | .strPre t => c.push (c.read t)
  | .ldrPostSp t => ({ c with sp := c.sp + 8 } : Cpu).write t (c.mem c.sp)
  | .ldrPost t n => (c.write n (c.read n + 8)).write t (c.mem (c.read n))
  | .ldr t n offset => c.write t (c.mem (c.read n + offset))
  | .ldp a b n => (c.write a (c.mem (c.read n))).write b (c.mem (c.read n + 8))
  | .mrs t r => c.write t (c.sys r)
  | .msr r t => { c with sys := Function.update c.sys r (c.read t) }
  | .mov d n => c.write d (c.read n)
  | .movSp d => c.write d c.sp
  | .addImm d n imm => c.write d (c.read n + imm)

def run (c : Cpu) (code : List Instr) : Cpu := code.foldl Instr.exec c

@[simp] theorem run_nil (c : Cpu) : run c [] = c := rfl

@[simp] theorem run_cons (c : Cpu) (i : Instr) (code : List Instr) : run c (i :: code) = run (i.exec c) code :=
  rfl

theorem run_append (c : Cpu) (first second : List Instr) :
    run c (first ++ second) = run (run c first) second := List.foldl_append

/-- The words an instruction loads into registers. -/
def Instr.loads (c : Cpu) : Instr → List (BitVec 64)
  | .ldpPre _ _ => [c.sp + 16, c.sp + 16 + 8]
  | .ldrPostSp _ => [c.sp]
  | .ldrPost _ n => [c.read n]
  | .ldr _ n offset => [c.read n + offset]
  | .ldp _ _ n => [c.read n, c.read n + 8]
  | _ => []

def loads (c : Cpu) : List Instr → List (BitVec 64)
  | [] => []
  | i :: code => i.loads c ++ loads (i.exec c) code

theorem loads_append (c : Cpu) (first second : List Instr) :
    loads c (first ++ second) = loads c first ++ loads (run c first) second := by
  induction first generalizing c with
  | nil => rfl
  | cons i first ih => rw [List.cons_append, loads, loads, run_cons, ih, List.append_assoc]

@[simp] theorem write_sp (c : Cpu) (n : Nat) (v : BitVec 64) : (c.write n v).sp = c.sp := by
  unfold Cpu.write
  split <;> rfl

@[simp] theorem write_mem (c : Cpu) (n : Nat) (v : BitVec 64) : (c.write n v).mem = c.mem := by
  unfold Cpu.write
  split <;> rfl

@[simp] theorem write_sys (c : Cpu) (n : Nat) (v : BitVec 64) : (c.write n v).sys = c.sys := by
  unfold Cpu.write
  split <;> rfl

theorem read_x (c : Cpu) (n : Nat) (proper : n ≠ 31) : c.read n = c.x n := if_neg proper

theorem write_x (c : Cpu) (n : Nat) (v : BitVec 64) (proper : n ≠ 31) :
    (c.write n v).x = Function.update c.x n v := by
  rw [Cpu.write, if_neg proper]

/-- The words from `base` on. -/
def Stacked (mem : BitVec 64 → BitVec 64) (base : BitVec 64) (ws : List (BitVec 64)) : Prop :=
  ∀ k (h : k < ws.length), mem (base + BitVec.ofNat 64 (8 * k)) = ws[k]

theorem Stacked.push2 {c : Cpu} {ws : List (BitVec 64)} (stacked : Stacked c.mem c.sp ws)
    (short : ws.length < 2 ^ 60) (v w : BitVec 64) :
    Stacked (c.push2 v w).mem (c.push2 v w).sp (v :: w :: ws) := by
  intro k hk
  simp only [List.length_cons] at hk
  cases k with
  | zero =>
    have apart : c.sp - 16 + BitVec.ofNat 64 (8 * 0) ≠ c.sp - 16 + 8 := by bv_omega
    have same : c.sp - 16 + BitVec.ofNat 64 (8 * 0) = c.sp - 16 := by bv_omega
    simp only [Cpu.push2, Function.update_of_ne apart]
    rw [same, Function.update_self, List.getElem_cons_zero]
  | succ k =>
    cases k with
    | zero =>
      have same : c.sp - 16 + BitVec.ofNat 64 (8 * (0 + 1)) = c.sp - 16 + 8 := by bv_omega
      simp only [Cpu.push2, same, Function.update_self, List.getElem_cons_succ, List.getElem_cons_zero]
    | succ k =>
      have inside : k < ws.length := by omega
      have older : c.sp - 16 + BitVec.ofNat 64 (8 * (k + 1 + 1)) = c.sp + BitVec.ofNat 64 (8 * k) := by
        bv_omega
      have first : c.sp + BitVec.ofNat 64 (8 * k) ≠ c.sp - 16 + 8 := by bv_omega
      have second : c.sp + BitVec.ofNat 64 (8 * k) ≠ c.sp - 16 := by bv_omega
      simp only [Cpu.push2, older, Function.update_of_ne first, Function.update_of_ne second,
        List.getElem_cons_succ]
      exact stacked k inside

/-- A row of pushes leaves the registers alone and stacks their values, last pair first. -/
theorem run_pushes (pairs : List (Nat × Nat)) {c : Cpu} {ws : List (BitVec 64)}
    (stacked : Stacked c.mem c.sp ws) (short : ws.length + 2 * pairs.length < 2 ^ 60) :
    let out := run c (pairs.map fun p => .stpPre p.1 p.2)
    out.x = c.x ∧ out.sys = c.sys ∧ out.sp = c.sp - BitVec.ofNat 64 (16 * pairs.length) ∧
      Stacked out.mem out.sp (pairs.reverse.flatMap (fun p => [c.read p.1, c.read p.2]) ++ ws) := by
  induction pairs generalizing c ws with
  | nil => exact ⟨rfl, rfl, by simp, stacked⟩
  | cons p rest ih =>
    simp only [List.length_cons] at short
    have first := stacked.push2 (by omega) (c.read p.1) (c.read p.2)
    obtain ⟨x, sys, sp, after⟩ := ih first (by simp only [List.length_cons]; omega)
    refine ⟨x, sys, ?_, ?_⟩
    · rw [List.map_cons, run_cons]
      refine sp.trans ?_
      simp only [Cpu.push2, List.length_cons]
      bv_omega
    · rw [List.map_cons, run_cons, List.reverse_cons, List.flatMap_append, List.append_assoc]
      exact after

/-- A row of pops into different registers takes consecutive words, the first of them 16 above
the stack pointer. -/
theorem run_pops (pairs : List (Nat × Nat)) (c : Cpu)
    (proper : ∀ r ∈ pairs.flatMap fun p => [p.1, p.2], r ≠ 31)
    (different : (pairs.flatMap fun p => [p.1, p.2]).Nodup) :
    let out := run c (pairs.map fun p => .ldpPre p.1 p.2)
    out.mem = c.mem ∧ out.sp = c.sp + BitVec.ofNat 64 (16 * pairs.length) ∧
      (∀ k r, (pairs.flatMap fun p => [p.1, p.2])[k]? = some r →
        out.x r = c.mem (c.sp + 16 + BitVec.ofNat 64 (8 * k))) ∧
      ∀ r, (r ∉ pairs.flatMap fun p => [p.1, p.2]) → out.x r = c.x r := by
  induction pairs generalizing c with
  | nil => exact ⟨rfl, by simp, fun k r none => by simp at none, fun r _ => rfl⟩
  | cons p rest ih =>
    simp only [List.flatMap_cons, List.cons_append, List.nil_append, List.mem_cons, List.nodup_cons, not_or]
      at proper different
    have x : (Instr.exec c (.ldpPre p.1 p.2)).x =
        Function.update (Function.update c.x p.1 (c.mem (c.sp + 16))) p.2 (c.mem (c.sp + 16 + 8)) := by
      simp only [Instr.exec, Cpu.pop2, write_x _ _ _ (proper p.1 (.inl rfl)),
        write_x _ _ _ (proper p.2 (.inr (.inl rfl)))]
    have mem : (Instr.exec c (.ldpPre p.1 p.2)).mem = c.mem := by simp [Instr.exec, Cpu.pop2]
    have sp : (Instr.exec c (.ldpPre p.1 p.2)).sp = c.sp + 16 := by simp [Instr.exec, Cpu.pop2]
    obtain ⟨sameMem, last, loaded, kept⟩ := ih (Instr.exec c (.ldpPre p.1 p.2))
      (fun r member => proper r (.inr (.inr member))) different.2.2
    rw [mem] at sameMem loaded
    rw [sp] at last loaded
    refine ⟨sameMem, ?_, ?_, ?_⟩
    · refine last.trans ?_
      rw [List.length_cons]
      bv_omega
    · intro k r found
      simp only [List.flatMap_cons, List.cons_append, List.nil_append] at found
      cases k with
      | zero =>
        cases Option.some.inj found
        refine (kept p.1 different.1.2).trans ?_
        rw [x, Function.update_of_ne different.1.1, Function.update_self]
        simp
      | succ k =>
        cases k with
        | zero =>
          cases Option.some.inj found
          refine (kept p.2 different.2.1).trans ?_
          rw [x, Function.update_self]
          rfl
        | succ k =>
          have further : c.sp + 16 + 16 + BitVec.ofNat 64 (8 * k) =
              c.sp + 16 + BitVec.ofNat 64 (8 * (k + 1 + 1)) := by bv_omega
          rw [← further]
          exact loaded k r found
    · intro r absent
      simp only [List.flatMap_cons, List.cons_append, List.nil_append, List.mem_cons, not_or] at absent
      refine (kept r absent.2.2).trans ?_
      rw [x, Function.update_of_ne absent.2.1, Function.update_of_ne absent.1]

/-- `ldr` of the `m` registers from `n` on, through the pointer in `x0`. -/
theorem run_loads (m n : Nat) (c : Cpu) (above : 0 < n) (below : n + m ≤ 31) :
    let out := run c ((List.range' n m).map fun t => .ldrPost t 0)
    out.mem = c.mem ∧ out.sp = c.sp ∧ out.sys = c.sys ∧ out.x 0 = c.x 0 + BitVec.ofNat 64 (8 * m) ∧
      (∀ r, n ≤ r → r < n + m → out.x r = c.mem (c.x 0 + BitVec.ofNat 64 (8 * (r - n)))) ∧
      ∀ r, r ≠ 0 → r < n → out.x r = c.x r := by
  induction m generalizing n c with
  | zero => exact ⟨rfl, rfl, rfl, by simp, fun r low high => by omega, fun r _ _ => rfl⟩
  | succ m ih =>
    rw [List.range'_succ, List.map_cons, run_cons]
    have proper : n ≠ 31 := by omega
    have apart : (0 : Nat) ≠ n := by omega
    have x : (Instr.exec c (.ldrPost n 0)).x =
        Function.update (Function.update c.x 0 (c.x 0 + 8)) n (c.mem (c.x 0)) := by
      simp only [Instr.exec, read_x c 0 (by decide), write_x _ _ _ proper, write_x c 0 _ (by decide)]
    have pointer : (Instr.exec c (.ldrPost n 0)).x 0 = c.x 0 + 8 := by
      rw [x, Function.update_of_ne apart, Function.update_self]
    have mem : (Instr.exec c (.ldrPost n 0)).mem = c.mem := by simp [Instr.exec]
    obtain ⟨sameMem, sp, sys, last, loaded, kept⟩ := ih (n + 1) (Instr.exec c (.ldrPost n 0)) (by omega) (by omega)
    rw [pointer] at last loaded
    rw [mem] at sameMem loaded
    refine ⟨sameMem, sp.trans (by simp [Instr.exec]), sys.trans (by simp [Instr.exec]), ?_, ?_, ?_⟩
    · rw [last]
      bv_omega
    · intro r low high
      cases Nat.eq_or_lt_of_le low with
      | inl same =>
        subst same
        rw [kept n (by omega) (by omega), x, Function.update_self, Nat.sub_self]
        simp
      | inr later =>
        have shifted : c.x 0 + 8 + BitVec.ofNat 64 (8 * (r - (n + 1))) =
            c.x 0 + BitVec.ofNat 64 (8 * (r - n)) := by bv_omega
        rw [loaded r (by omega) (by omega), shifted]
    · intro r nonzero low
      rw [kept r nonzero (by omega), x, Function.update_of_ne (by omega), Function.update_of_ne nonzero]

end Lib.A64
