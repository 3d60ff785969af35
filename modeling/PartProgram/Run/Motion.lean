import PartProgram.Decimal.Binary
import PartProgram.State

/-!
# Motions

The coordinates written in a block are collected and become one motion at its
end: they are stored in the variables, and the motion runs between two
snapshots of them. A radius determines the centre of an arc, and in the arc
modes a centre that is not given is the start position.
-/

set_option autoImplicit false

namespace PartProgram

/-- The coordinates written in a block, before and after. Centres and the
radius are part of what comes before. -/
structure Motion where
  start : Table Float := []
  finish : Table Float := []
deriving DecidableEq

def Motion.write (m : Motion) (temporary : Bool) (name : String) (old new : Float) : Motion :=
  if temporary then { m with start := m.start.insert name new }
  else ⟨m.start.insert name old, m.finish.insert name new⟩

def signOf (x : Float) : Float :=
  if x.isNaN then x else if isNegative x then -1.0 else 1.0

/-- The centre of an arc between two points with a signed radius. A positive
radius selects the arc below half a turn. Equal points have no centre. -/
def arcCenter? (mode : MotionMode) (radius : Float) (p q : Point) : Option Point :=
  let dx := (q.x - p.x) / 2.0
  let dy := (q.y - p.y) / 2.0
  let square := dx * dx + dy * dy
  if square == 0.0 then none
  else
    let chord := square.sqrt
    let excess := radius * radius - square
    let distance := (if excess > 0.0 then excess else 0.0).sqrt
    let side := if mode = .clockwise then signOf radius else -signOf radius
    some ⟨p.x + dx + side * distance * dy / chord, p.y + dy - side * distance * dx / chord⟩

namespace State

def setArcCenter (s : State) (start finish : Scope) : Scope :=
  match s.machine.linear.head? with
  | some ⟨xName :: yName :: _, iName :: jName :: _⟩ =>
    match start.get? radiusName with
    | some radius =>
      match arcCenter? s.mode radius ⟨start.getD xName, start.getD yName⟩
          ⟨finish.getD xName, finish.getD yName⟩ with
      | some center => (start.set iName center.x).set jName center.y
      | none => start
    | none => start
  | _ => start

def setMissingCenter (start : Scope) (pair : String × String) : Scope :=
  if start.has pair.1 then start
  else
    match start.get? pair.2 with
    | some value => start.set pair.1 value
    | none => start

def setMissingCenters (s : State) (start : Scope) : Scope :=
  if s.mode.isArc then s.machine.centerPairs.foldl setMissingCenter start else start

/-- The state after a motion. -/
def commit (motion : Motion) (s : State) : State :=
  s.mapScope (Scope.setAll motion.finish)

def startOf (motion : Motion) (s : State) : Scope :=
  let start := s.scope.push.setAll motion.start
  let finish := s.scope.push.setAll motion.finish
  s.frame.leave s.machine (s.setMissingCenters (s.setArcCenter start finish))

def finishOf (motion : Motion) (s : State) : Scope :=
  s.frame.leave s.machine (s.scope.push.setAll motion.finish)

end State

end PartProgram
