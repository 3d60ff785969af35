import PartProgram.Expr.Printer
import PartProgram.Expr.Value
import PartProgram.Run.Event
import PartProgram.Run.Motion

/-!
# Control of a run

Besides the machine state, a run keeps what the statements of a block have
begun and its end completes, and the open branches. All of it is shared by a
program and the subprograms that it calls.
-/

set_option autoImplicit false

namespace PartProgram

inductive Jump where
  | to (index : Nat)
  /-- Leaves the current program. -/
  | back
deriving DecidableEq

/-- The state of an open IF. -/
inductive Branch where
  | taken | skipToElse | skipToEnd
deriving DecidableEq

structure Control where
  /-- The program has ended itself. -/
  stopped : Bool := false
  jump : Option Jump := none
  /-- A dwell is due at the end of the block. -/
  waiting : Bool := false
  delay : Option Float := none
  /-- Assignments set parameters of the frame. -/
  framing : Bool := false
  motion : Option Motion := none
  /-- The open branches, the innermost first. -/
  branches : List Branch := []
deriving DecidableEq

def skipping (branches : List Branch) : Bool :=
  branches.head?.any (· ≠ .taken)

def Flow.step (scope : Scope) (branches : List Branch) :
    Flow → Except RunCause (List Branch)
  | ifThen condition => do
    if skipping branches then return .skipToEnd :: branches
    else if ← condition.holds scope then return .taken :: branches
    else return .skipToElse :: branches
  | otherwise =>
    match branches with
    | .skipToElse :: rest => return .taken :: rest
    | _ :: rest => return .skipToEnd :: rest
    | [] => throw .strayBranch
  | endIf =>
    match branches with
    | _ :: rest => return rest
    | [] => throw .strayBranch
  | f => if skipping branches then return branches else throw (.unsupportedFlow f.keyword)

def blockReference? (name : String) : Option Int :=
  match name.toList with
  | c :: cs =>
    if c.toUpper = 'N' && cs ≠ [] && cs.all Char.isDigit then readInteger 10 cs else none
  | [] => none

namespace Program

def findNumber? (p : Program) (n : Int) : Option Nat :=
  p.blocks.findIdx? (fun b => b.number == some n)

def findLabel? (p : Program) (label : String) : Option Nat :=
  p.blocks.findIdx? (Block.hasLabel label)

/-- The block that a jump leads to. The direction of the jump does not matter:
the first block that matches is the target. -/
def target (p : Program) : Option Expr → Except RunCause Nat
  | none => .ok 0
  | some (.var name none) =>
    let found := match blockReference? name with
      | some n => p.findNumber? n
      | none => p.findLabel? name
    found.elim (.error (.unknownTarget name)) .ok
  | some (.num ⟨x, true, _⟩) =>
    match integral? x with
    | some n => (p.findNumber? n).elim (.error (.unknownTarget (toString n))) .ok
    | none => .error (.invalidTarget (realText x))
  | some e => .error (.invalidTarget e.text)

end Program

def positionMode? (name : String) : Option Bool :=
  ofWord [("AC", true), ("DC", true), ("ACP", true), ("ACN", true), ("IC", false)] name

def Expr.marked? : Expr → Option (Bool × Expr)
  | call name [some arg] => (positionMode? name).map (·, arg)
  | _ => none

namespace State

def isAbsolute (s : State) (framing : Bool) (name : String) : Bool :=
  if framing || s.absolute then s.machine.isAbsolute name else !s.machine.isRelative name

/-- The value that an assignment stores. Parameters of a frame are relative to
the frame, all else to the variables. -/
def assigned (s : State) (framing : Bool) (name : String) (value : Expr) :
    Except RunCause Float := do
  let (absolute, e) := value.marked?.getD (s.isAbsolute framing name, value)
  let written ← e.evaluateNumber s.scope
  let x := if s.metric then written else s.machine.inchesToMillimetres name written
  if absolute then return x
  else
    let scope := if framing then s.frame.parameters else s.scope
    return scope.getD (s.machine.reference name) + x

end State

/-- Instructions that begin a frame: whether they replace the current one
rather than add to it. -/
def frameInstruction? (name : String) : Option Bool :=
  ofWord [("TRANS", true), ("ROT", true), ("ATRANS", false), ("AROT", false)] name

end PartProgram
