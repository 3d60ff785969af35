import PartProgram.Run.Control

/-!
# Executing statements

A statement changes the state of a run and may report events. An error leaves
the run as it was when the error arose. How a subprogram is run is a parameter
here.
-/

set_option autoImplicit false

namespace PartProgram

/-- A run: the machine, what is under way, and what has been reported. -/
structure Run where
  state : State
  control : Control := {}
  events : Array Event := #[]

/-- Why a run ends early. -/
inductive Halt where
  | failed (error : RunError)
  /-- The run took more steps than it was given. -/
  | exhausted
deriving DecidableEq

def Halt.within (line : Nat) (name : String) : Halt → Halt
  | failed e => failed (e.within line name)
  | exhausted => exhausted

abbrev Exec (α : Type) : Type := EStateM Halt Run α

namespace Exec

def emit (e : Event) : Exec Unit := modify fun r => { r with events := r.events.push e }

def modifyState (f : State → State) : Exec Unit := modify fun r => { r with state := f r.state }

def modifyControl (f : Control → Control) : Exec Unit :=
  modify fun r => { r with control := f r.control }

def orFail {α : Type} (line : Nat) : Except RunCause α → Exec α
  | .ok a => return a
  | .error cause => throw (.failed { line, cause })

def flow (line : Nat) (f : Flow) : Exec Unit := do
  let r ← get
  let branches ← orFail line (f.step r.state.scope r.control.branches)
  modifyControl ({ · with branches })

def declareVariable (line : Nat) (zero : Expr) (v : DeclaredVariable) : Exec Unit := do
  let value ← orFail line ((← get).state.assigned false v.name (v.initial.getD zero))
  modifyState (·.mapScope (·.set v.name value))

def declare (line : Nat) (d : Declaration) : Exec Unit :=
  match d.type with
  | .int => d.declared.forM (declareVariable line (.int 0))
  | .real => d.declared.forM (declareVariable line (.real 0.0))
  | _ => return

def collect (temporary : Bool) (name : String) (value : Float) : Exec Unit := do
  let scope := (← get).state.scope
  let canonical := scope.canonical name
  let current := scope.getD canonical
  modifyControl fun c =>
    { c with motion := some ((c.motion.getD {}).write temporary canonical current value) }

/-- A parameter of the frame, the time of a dwell, a coordinate of the motion,
or a variable. -/
def assign (line : Nat) (name : String) (value : Expr) : Exec Unit := do
  let r ← get
  let x ← orFail line (r.state.assigned r.control.framing name value)
  let machine := r.state.machine
  if r.control.framing then
    modifyState fun s => { s with frame := ⟨s.frame.parameters.set name x⟩ }
  else if r.control.waiting && sameLetters name feedName then
    modifyControl ({ · with delay := some x })
  else if machine.isTemporary name || machine.isCoordinateOrCenter name then
    collect (machine.isTemporary name) name x
  else modifyState (·.mapScope (·.set name x))

def gcode (id : Nat) (args : Option (List Expr)) : Exec Unit :=
  match id with
  | 0 => modifyState ({ · with mode := .quick })
  | 1 => modifyState ({ · with mode := .linear })
  | 2 => modifyState ({ · with mode := .clockwise })
  | 3 => modifyState ({ · with mode := .counterClockwise })
  | 4 => modifyControl ({ · with waiting := true })
  | 70 => modifyState ({ · with metric := false })
  | 71 => modifyState ({ · with metric := true })
  | 90 => modifyState ({ · with absolute := true })
  | 91 => modifyState ({ · with absolute := false })
  | _ => emit (.gcode id args)

def mcode (id : Nat) : Exec Unit := do
  if id = 2 || id = 30 then
    modifyControl ({ · with stopped := true })
    emit .ended
  else if id = 17 then modifyControl ({ · with jump := some .back })
  else emit (.mcode id)

def jump (program : Program) (line : Nat) (target : Option Expr) : Exec Unit := do
  let index ← orFail line (program.target target)
  modifyControl ({ · with jump := some (.to index) })

def beginFrame (replace : Bool) : Exec Unit := do
  modifyState fun s =>
    let s := s.mapScope (s.frame.leave s.machine)
    if replace then { s with frame := ⟨s.frame.parameters.clear⟩ } else s
  modifyControl ({ · with framing := true })

def callSubprogram (call : Program → Exec Unit) (line : Nat) (name : String) (program : Program) :
    Exec Unit := do
  emit (.enter name program.blocks.length)
  EStateM.adaptExcept (Halt.within line name) (call program)
  if !(← get).control.stopped then emit (.leave name program.blocks.length)

def instruction (programs : Table Program) (call : Program → Exec Unit) (line : Nat)
    (name : String) (args : Option Slots) : Exec Unit :=
  match frameInstruction? name with
  | some replace => beginFrame replace
  | none =>
    match programs.find? (upper name) with
    | some program =>
      if (args.getD []).isEmpty then callSubprogram call line name program
      else orFail line (.error (.unexpectedArguments name))
    | none => emit (.instruction name args)

def unlessSkipping (body : Exec Unit) : Exec Unit := do
  if skipping (← get).control.branches then return else body

/-- A statement of a block in a line of a program. In a branch that is skipped
only flow statements have an effect. -/
def statement (programs : Table Program) (call : Program → Exec Unit) (program : Program)
    (line : Nat) : Statement → Exec Unit
  | .flow f => flow line f
  | .declare d => unlessSkipping (declare line d)
  | .assign name _ value => unlessSkipping (assign line name value)
  | .gcode id args => unlessSkipping (gcode id args)
  | .mcode id => unlessSkipping (mcode id)
  | .jump _ target => unlessSkipping (jump program line target)
  | .instruction name args => unlessSkipping (instruction programs call line name args)

def statements (programs : Table Program) (call : Program → Exec Unit) (program : Program)
    (line : Nat) : List Statement → Exec Unit
  | [] => return
  | s :: rest => do
    if (← get).control.stopped then return
    else
      statement programs call program line s
      statements programs call program line rest

end Exec

namespace Run

def endDwell (r : Run) : Run :=
  if r.control.waiting then
    { r with
      control := { r.control with waiting := false, delay := none }
      events := r.events.push (.dwell r.control.delay) }
  else r

def endMotion (r : Run) : Run :=
  match r.control.motion with
  | some motion =>
    let state := r.state.commit motion
    { state
      control := { r.control with motion := none }
      events := r.events.push (.motion (state.startOf motion) (state.finishOf motion) state) }
  | none => r

def endFrame (r : Run) : Run :=
  if r.control.framing then
    { r with
      control := { r.control with framing := false }
      state := r.state.mapScope (r.state.frame.enter r.state.machine) }
  else r

/-- Completes what the statements of a block have begun. -/
def endBlock (r : Run) : Run := r.endDwell.endMotion.endFrame

@[simp]
theorem endDwell_waiting (r : Run) : r.endDwell.control.waiting = false := by
  by_cases h : r.control.waiting = true <;> simp [endDwell, h]

@[simp]
theorem endMotion_motion (r : Run) : r.endMotion.control.motion = none := by
  cases h : r.control.motion <;> simp [endMotion, h]

@[simp]
theorem endMotion_waiting (r : Run) : r.endMotion.control.waiting = r.control.waiting := by
  cases h : r.control.motion <;> simp [endMotion, h]

@[simp]
theorem endFrame_framing (r : Run) : r.endFrame.control.framing = false := by
  by_cases h : r.control.framing = true <;> simp [endFrame, h]

@[simp]
theorem endFrame_waiting (r : Run) : r.endFrame.control.waiting = r.control.waiting := by
  by_cases h : r.control.framing = true <;> simp [endFrame, h]

@[simp]
theorem endFrame_motion (r : Run) : r.endFrame.control.motion = r.control.motion := by
  by_cases h : r.control.framing = true <;> simp [endFrame, h]

theorem endBlock_done (r : Run) :
    r.endBlock.control.waiting = false ∧ r.endBlock.control.motion = none ∧
      r.endBlock.control.framing = false := by
  simp [endBlock]

end Run

end PartProgram
