import PartProgram.Frame

/-!
# Machine state

What a program leaves behind: the variables, the modes that stay until they
are changed, and the frame.
-/

set_option autoImplicit false

namespace PartProgram

/-- Feeds are kept in millimetres per minute. -/
def metresPerSecond : Float := 1e-3 / 60.0

structure State where
  machine : Machine := {}
  /-- The values of the variables. -/
  scope : Scope := {}
  /-- Positions are given absolutely rather than relatively. -/
  absolute : Bool := true
  /-- Lengths are given in millimetres rather than inches. -/
  metric : Bool := true
  mode : MotionMode := machine.initialMode
  frame : Frame := {}
deriving DecidableEq

namespace State

def velocity (s : State) : Float :=
  s.scope.getD (if s.mode = .quick then quickFeedName else feedName) * metresPerSecond

def mapScope (f : Scope → Scope) (s : State) : State := { s with scope := f s.scope }

end State

end PartProgram
