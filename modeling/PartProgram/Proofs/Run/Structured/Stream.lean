import PartProgram.Proofs.Run.Mirror
import PartProgram.Proofs.Run.Reach
import PartProgram.Proofs.Run.Structured.Tree

/-!
# Programs without jumps

A program that neither jumps nor returns, nor lets a subprogram do so, is run as
the stream of its statements.
-/

set_option autoImplicit false

namespace PartProgram

namespace Exec

/-- Runs a stream, with the steps that are left for the subprograms of its first block. -/
def flat (programs : Table Program) (program : Program) : Nat → List Step → Exec Unit
  | _, [] => return
  | steps, .enter index line total :: rest => do
    emit (.block index line total)
    flat programs program steps rest
  | steps, .act line s :: rest => do
    if (← get).control.stopped then flat programs program steps rest
    else
      statement programs (fun callee => runFrom programs steps callee 0) program line s
      flat programs program steps rest
  | steps, .ending :: rest => do
    modify Run.endBlock
    if (← get).control.stopped then return
    else
      match steps with
      | 0 => throw .exhausted
      | steps + 1 => flat programs program steps rest

variable {programs : Table Program} {program : Program} {steps : Nat} {r : Run}

theorem flat_enter (index line total : Nat) (rest : List Step) (r : Run) :
    flat programs program steps (.enter index line total :: rest) r =
      flat programs program steps rest
        { r with events := r.events.push (.block index line total) } := rfl

theorem flat_statement (line : Nat) (s : Statement) (rest : List Step) (r : Run) :
    flat programs program steps (.act line s :: rest) r =
      (if r.control.stopped then flat programs program steps rest
        else do
          statement programs (fun callee => runFrom programs steps callee 0) program line s
          flat programs program steps rest : Exec Unit) r := rfl

theorem flat_stopped (line : Nat) (s : Statement) (rest : List Step)
    (h : r.control.stopped = true) :
    flat programs program steps (.act line s :: rest) r = flat programs program steps rest r := by
  rw [flat_statement, if_pos h]

theorem flat_act (line : Nat) (s : Statement) (rest : List Step)
    (h : r.control.stopped = false) :
    flat programs program steps (.act line s :: rest) r =
      match statement programs (fun callee => runFrom programs steps callee 0) program line s r with
      | .ok _ after => flat programs program steps rest after
      | .error halt after => .error halt after := by
  rw [flat_statement, if_neg (by simp [h]), run_bind]
  cases statement programs (fun callee => runFrom programs steps callee 0) program line s r <;> rfl

theorem flat_ending (rest : List Step) (r : Run) :
    flat programs program steps (.ending :: rest) r =
      if r.control.stopped = true then .ok () r.endBlock
      else
        match steps with
        | 0 => .error .exhausted r.endBlock
        | steps + 1 => flat programs program steps rest r.endBlock := by
  cases steps <;> simp only [flat, run_modify, run_get, Run.endBlock_stopped] <;> split <;> rfl

theorem flat_acts (line : Nat) (list : List Statement) (rest : List Step) (r : Run) :
    flat programs program steps (list.map (Step.act line) ++ rest) r =
      (do
        statements programs (fun callee => runFrom programs steps callee 0) program line list
        flat programs program steps rest : Exec Unit) r := by
  induction list generalizing r with
  | nil => rfl
  | cons s list ih =>
    simp only [List.map_cons, List.cons_append, flat, statements, run_get, bind_assoc]
    by_cases hs : r.control.stopped = true
    · rw [if_pos hs, ih]
      cases list with
      | nil => simp [statements, hs]
      | cons s list => simp [statements, hs, run_get, bind_assoc]
    · simp only [if_neg hs, bind_assoc]
      rw [run_bind, run_bind]
      cases statement programs (fun callee => runFrom programs steps callee 0) program line s r with
      | ok a after => exact ih after
      | error halt after => rfl

def StaysUndue (r r' : Run) : Prop := r.control.jump = none → r'.control.jump = none

theorem staysUndue_passage : Passage StaysUndue where
  refl _ h := h
  trans h h' hr := h' (h hr)

theorem staysUndue_of_samePlace {α : Type} {x : Exec α} (h : Along SamePlace x) :
    Along StaysUndue x :=
  h.mono (fun hr hj => hr.2.trans hj)

theorem statement_staysUndue {call : Program → Exec Unit} {s : Statement}
    (hcall : ∀ name callee, s.callee? programs = some (name, callee) →
      Along StaysUndue (call callee)) (line : Nat) (hs : s.isJump = false) :
    Along StaysUndue (statement programs call program line s) := by
  have hP := staysUndue_passage
  cases s with
  | flow f => exact fun _ => hP.flow_at (fun _ hj => hj)
  | declare d => exact hP.unlessSkipping (staysUndue_of_samePlace (samePlace_declare line d))
  | assign name fields value =>
    exact hP.unlessSkipping (staysUndue_of_samePlace (samePlace_assign line name value))
  | gcode id args => exact hP.unlessSkipping (staysUndue_of_samePlace (samePlace_gcode id args))
  | mcode id =>
    have hid : id ≠ 17 := by simpa [Statement.isJump] using hs
    exact hP.unlessSkipping (staysUndue_of_samePlace (samePlace_mcode hid))
  | jump direction target => cases hs
  | instruction name args =>
    refine hP.unlessSkipping (fun r => hP.instruction_at ?_ ?_ (fun hj => hj))
    · exact fun replace _ => staysUndue_of_samePlace (samePlace_beginFrame replace) r
    · exact fun callee hframe hfind hargs =>
        hP.callSubprogram (hcall name callee (Statement.callee?_instruction hframe hfind hargs))
          (fun _ _ _ hj => hj) r

theorem runFrom_staysUndue {p : Program} (hfree : ∀ q, p.Reaches programs q → q.JumpFree)
    (steps index : Nat) : Along StaysUndue (runFrom programs steps p index) := by
  apply staysUndue_passage.runFrom (p.Reaches programs)
  · exact fun _ _ _ hj => hj
  · intro call hcall q hq block hblock s hs
    apply statement_staysUndue _ block.line (hfree q hq block hblock s hs)
    exact fun name callee h => hcall callee (hq.tail (Program.mem_callees_of_callee? hblock hs h))
  · exact fun r hj => (r.endBlock_jump).trans hj
  · exact fun _ _ => rfl
  · exact .self

theorem takeJump_none (h : r.control.jump = none) : takeJump r = .ok none r := by
  obtain ⟨state, control, events⟩ := r
  obtain ⟨stopped, jump, waiting, delay, framing, motion, branches⟩ := control
  cases h
  rfl

/-- Without jumps a program is run as its stream. -/
theorem runFrom_flat {p : Program} (hfree : ∀ q, p.Reaches programs q → q.JumpFree)
    (steps index : Nat) (hj : r.control.jump = none) :
    runFrom programs (steps + 1) p index r =
      flat programs p steps (Program.streamOf p.blocks.length index (p.blocks.drop index)) r := by
  induction steps using Nat.strongRecOn generalizing index r with
  | ind steps ih =>
    cases hb : p.blocks[index]? with
    | none =>
      have hd : p.blocks.drop index = [] := by
        rw [List.drop_eq_nil_iff]
        exact List.getElem?_eq_none_iff.mp hb
      simp only [runFrom, hb, hd, Program.streamOf, flat]
    | some block =>
      have hd : p.blocks.drop index = block :: p.blocks.drop (index + 1) := by
        obtain ⟨hlt, rfl⟩ := List.getElem?_eq_some_iff.mp hb
        exact List.drop_eq_getElem_cons hlt
      have hmem : block ∈ p.blocks := List.mem_of_getElem? hb
      simp only [runFrom, hb, hd, Program.streamOf, flat, emit]
      rw [run_modify, run_modify, flat_acts, run_bind, run_bind]
      generalize hentered :
        { r with events := r.events.push (.block index block.line p.blocks.length) } = entered
      have hkeep : Leads StaysUndue
          (statements programs (fun callee => runFrom programs steps callee 0) p block.line
            block.statements) entered := by
        apply staysUndue_passage.statements
        intro s hs
        apply statement_staysUndue _ block.line (hfree p .self block hmem s hs)
        intro name callee h
        have hcallee := Program.mem_callees_of_callee? hmem hs h
        exact runFrom_staysUndue (fun q hq => hfree q (.of_callee hcallee hq)) steps 0
      cases hx : statements programs (fun callee => runFrom programs steps callee 0) p block.line
          block.statements entered with
      | error halt after => rfl
      | ok _ after =>
        have hnone : after.endBlock.control.jump = none := by
          rw [Run.endBlock_jump]
          exact hkeep.of_ok hx (by rw [← hentered]; exact hj)
        simp only [run_modify, run_get, Run.endBlock_stopped]
        rw [flat_ending]
        by_cases hstop : after.control.stopped = true
        · rw [if_pos hstop, if_pos hstop]
          rfl
        · rw [if_neg hstop, if_neg hstop, run_bind, takeJump_none hnone]
          cases steps with
          | zero => rfl
          | succ steps => exact ih steps (Nat.lt_succ_self _) (index + 1) hnone

end Exec

end PartProgram
