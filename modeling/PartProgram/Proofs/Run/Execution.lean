import PartProgram.Proofs.Run.Along
import PartProgram.Proofs.Run.Reach

/-!
# Executions of a run

What a run executes, statement by statement, with the run as each of them finds it, and the
equations of a run block by block.
-/

set_option autoImplicit false

namespace PartProgram

namespace Event

def isRemark : Event → Bool
  | instruction .. | mcode _ | gcode .. => true
  | _ => false

theorem remark_kind {e : Event} (h : e.isRemark = true) : e.isPlace = false ∧ e ≠ .ended := by
  cases e with
  | instruction | mcode | gcode => exact ⟨rfl, by simp⟩
  | _ => cases h

end Event

namespace Run

def report (e : Event) (r : Run) : Run := { r with events := r.events.push e }

/-- The run with no jump due any more. -/
def landed (r : Run) : Run := { r with control := { r.control with jump := none } }

def ended (r : Run) : Run :=
  { r with control := { r.control with stopped := true } }.report .ended

/-- What the end of a block reports: at most one dwell and then at most one motion. -/
def dueEvents (r : Run) : List Event :=
  (if r.control.waiting then [.dwell r.control.delay] else []) ++
    match r.control.motion with
    | some motion =>
      let state := r.state.commit motion
      [.motion (state.startOf motion) (state.finishOf motion) state]
    | none => []

@[simp]
theorem toList_report (r : Run) (e : Event) :
    (r.report e).events.toList = r.events.toList ++ [e] := Array.toList_push

@[simp]
theorem toList_ended (r : Run) : r.ended.events.toList = r.events.toList ++ [.ended] :=
  Array.toList_push

@[simp]
theorem dueEvents_ended (r : Run) : r.ended.dueEvents = r.dueEvents := rfl

theorem endBlock_events (r : Run) :
    r.endBlock.events.toList = r.events.toList ++ r.dueEvents := by
  obtain ⟨state, ⟨stopped, jump, waiting, delay, framing, motion, branches⟩, events⟩ := r
  cases waiting <;> cases motion <;> cases framing <;>
    simp [endBlock, endDwell, endMotion, endFrame, dueEvents]

theorem dueEvents_kind {r : Run} {e : Event} (he : e ∈ r.dueEvents) :
    e.isPlace = false ∧ e ≠ .ended := by
  simp only [dueEvents, List.mem_append] at he
  rcases he with he | he
  · split at he
    · cases List.mem_singleton.mp he
      exact ⟨rfl, by simp⟩
    · cases he
  · split at he
    · cases List.mem_singleton.mp he
      exact ⟨rfl, by simp⟩
    · cases he

end Run

def Control.next? (index : Nat) (c : Control) : Option Nat :=
  match c.jump with
  | none => some (index + 1)
  | some (.to target) => some target
  | some .back => none

namespace Statement

def isExecuted (branches : List Branch) : Statement → Bool
  | flow _ => true
  | _ => !skipping branches

theorem isExecuted_of_not_skipping {branches : List Branch} (h : skipping branches = false)
    (s : Statement) : s.isExecuted branches = true := by
  cases s <;> simp [isExecuted, h]

def endsProgram : Statement → Bool
  | mcode id => id == 2 || id == 30
  | _ => false

def beginsFrame : Statement → Bool
  | instruction name _ => (frameInstruction? name).isSome
  | _ => false

end Statement

/-- A statement that is executed, with the run that it finds. -/
structure Execution where
  statement : Statement
  run : Run

def Execution.inside (programs : Table Program) (inner : Program → Run → List Execution)
    (e : Execution) : List Execution :=
  match e.statement.callee? programs with
  | some (name, callee) => inner callee (e.run.report (.enter name callee.blocks.length))
  | none => []

namespace Exec

def block (programs : Table Program) (call : Program → Exec Unit) (program : Program)
    (b : Block) : Exec Unit := do
  statements programs call program b.line b.statements
  modify Run.endBlock

def executed (programs : Table Program) (call : Program → Exec Unit) (program : Program)
    (line : Nat) : List Statement → Run → List Execution
  | [], _ => []
  | s :: rest, r =>
    if r.control.stopped then []
    else
      (if s.isExecuted r.control.branches then [⟨s, r⟩] else []) ++
        match statement programs call program line s r with
        | .ok _ after => executed programs call program line rest after
        | .error .. => []

/-- What a program executes from a block on, with what its subprograms execute. -/
def executions (programs : Table Program) : Nat → Program → Nat → Run → List Execution
  | 0, _, _, _ => []
  | steps + 1, program, index, r =>
    match program.blocks[index]? with
    | none => []
    | some b =>
      let call := fun callee => runFrom programs steps callee 0
      let entered := r.report (.block index b.line program.blocks.length)
      (executed programs call program b.line b.statements entered).flatMap
          (fun e => e :: e.inside programs (fun callee => executions programs steps callee 0)) ++
        match block programs call program b entered with
        | .error .. => []
        | .ok _ after =>
          if after.control.stopped then []
          else
            match after.control.next? index with
            | some next => executions programs steps program next after.landed
            | none => []

variable {programs : Table Program} {call : Program → Exec Unit} {program : Program}
  {line steps index : Nat} {r : Run}

theorem block_run (b : Block) (r : Run) :
    block programs call program b r =
      match statements programs call program b.line b.statements r with
      | .ok _ s => .ok () s.endBlock
      | .error halt s => .error halt s := by
  rw [block, run_bind]
  cases statements programs call program b.line b.statements r <;> rfl

theorem runFrom_none (hb : program.blocks[index]? = none) (r : Run) :
    runFrom programs (steps + 1) program index r = .ok () r := by
  simp only [runFrom, hb]
  rfl

theorem runFrom_some {b : Block} (hb : program.blocks[index]? = some b) (r : Run) :
    runFrom programs (steps + 1) program index r =
      match block programs (fun callee => runFrom programs steps callee 0) program b
          (r.report (.block index b.line program.blocks.length)) with
      | .error halt s => .error halt s
      | .ok _ s =>
        if s.control.stopped then .ok () s
        else
          match s.control.next? index with
          | some next => runFrom programs steps program next s.landed
          | none => .ok () s.landed := by
  simp only [runFrom, hb, emit, run_modify]
  rw [run_bind, block_run, Run.report]
  generalize statements programs (fun callee => runFrom programs steps callee 0) program b.line
    b.statements _ = result
  cases result with
  | error halt s => rfl
  | ok a s =>
    simp only [run_modify, run_get]
    by_cases hs : s.endBlock.control.stopped = true
    · rw [if_pos hs, if_pos hs]
      rfl
    · rw [if_neg hs, if_neg hs]
      simp only [takeJump, modifyControl, bind_assoc, run_get, run_modify, pure_bind]
      cases hj : s.endBlock.control.jump with
      | none => simp only [Control.next?, hj, Run.landed]
      | some j =>
        simp only [Control.next?, hj, Run.landed]
        cases j <;> rfl

theorem executed_stopped (list : List Statement) (h : r.control.stopped = true) :
    executed programs call program line list r = [] := by
  cases list with
  | nil => rfl
  | cons s rest => rw [executed, if_pos h]

theorem executed_cons (s : Statement) (rest : List Statement) (h : r.control.stopped = false) :
    executed programs call program line (s :: rest) r =
      (if s.isExecuted r.control.branches then [⟨s, r⟩] else []) ++
        match statement programs call program line s r with
        | .ok _ after => executed programs call program line rest after
        | .error .. => [] := by
  rw [executed, if_neg (by simp [h])]

theorem mem_of_executed {list : List Statement} {e : Execution}
    (he : e ∈ executed programs call program line list r) : e.statement ∈ list := by
  induction list generalizing r with
  | nil => cases he
  | cons s rest ih =>
    by_cases hstop : r.control.stopped = true
    · rw [executed_stopped _ hstop] at he
      cases he
    rw [executed_cons s rest (Bool.eq_false_iff.mpr hstop)] at he
    rcases List.mem_append.mp he with he | he
    · split at he
      · cases List.mem_singleton.mp he
        exact List.mem_cons_self
      · cases he
    · split at he
      · exact List.mem_cons_of_mem s (ih he)
      · cases he

theorem statements_cons (s : Statement) (rest : List Statement) (h : r.control.stopped = false) :
    statements programs call program line (s :: rest) r =
      match statement programs call program line s r with
      | .ok _ after => statements programs call program line rest after
      | .error halt after => .error halt after := by
  rw [statements, run_get, if_neg (by simp [h]), run_bind]
  cases statement programs call program line s r <;> rfl

theorem callSubprogram_run (name : String) (callee : Program) (r : Run) :
    callSubprogram call line name callee r =
      match call callee (r.report (.enter name callee.blocks.length)) with
      | .error halt s => .error (halt.within line name) s
      | .ok _ s =>
        .ok () (if s.control.stopped then s
          else s.report (.leave name callee.blocks.length)) := by
  simp only [callSubprogram, emit, run_modify]
  rw [run_bind, EStateM.adaptExcept, Run.report]
  generalize call callee _ = result
  cases result with
  | error halt s => rfl
  | ok a s =>
    simp only [run_get]
    cases hs : s.control.stopped <;> rfl

end Exec

end PartProgram
