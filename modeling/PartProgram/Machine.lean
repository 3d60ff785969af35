import PartProgram.Text.Letter

/-!
# Machines

A machine has groups of linear axes, each with the names of the arc centre
coordinates that belong to its axes, and it has rotary axes. The role of a
variable follows from these names, whatever the case of its letters.
-/

set_option autoImplicit false

namespace PartProgram

inductive MotionMode where
  | quick | linear | clockwise | counterClockwise
deriving DecidableEq

namespace MotionMode

def name : MotionMode → String
  | quick => "Quick"
  | linear => "Linear"
  | clockwise => "Clockwise"
  | counterClockwise => "CounterClockwise"

def all : List MotionMode := [quick, linear, clockwise, counterClockwise]

def ofName? (text : String) : Option MotionMode := all.find? (fun m => m.name == text)

def isArc : MotionMode → Bool
  | clockwise | counterClockwise => true
  | _ => false

end MotionMode

/-- Linear axes such as `X Y Z`, with centre names such as `I J K`. -/
structure AxisGroup where
  names : List String
  centers : List String := []
deriving DecidableEq

structure Machine where
  linear : List AxisGroup := [⟨["X", "Y", "Z"], ["I", "J", "K"]⟩]
  rotary : List String := ["A", "B", "C"]
  initialMode : MotionMode := .linear
deriving DecidableEq

def radiusName : String := "CR"

def quickFeedName : String := "E"

def feedName : String := "F"

def angleName : String := "RPL"

def offsetXName : String := "X"

def offsetYName : String := "Y"

def millimetresPerInch : Float := 25.4

def hasName (names : List String) (name : String) : Bool := names.any (sameLetters name)

namespace Machine

def centerPairs (m : Machine) : List (String × String) :=
  m.linear.flatMap (fun axes => axes.centers.zip axes.names)

/-- The variable that a relative value is added to: the axis of a centre, else
the variable itself. -/
def reference (m : Machine) (name : String) : String :=
  ((m.centerPairs.find? (fun pair => sameLetters pair.1 name)).map Prod.snd).getD name

def isLinear (m : Machine) (name : String) : Bool :=
  m.linear.any (fun axes => hasName axes.names name)

def isCenter (m : Machine) (name : String) : Bool :=
  m.linear.any (fun axes => hasName axes.centers name)

def isRotary (m : Machine) (name : String) : Bool := hasName m.rotary name

def isCoordinate (m : Machine) (name : String) : Bool := m.isLinear name || m.isRotary name

def isCoordinateOrCenter (m : Machine) (name : String) : Bool :=
  m.isCoordinate name || m.isCenter name

def isAbsolute (m : Machine) (name : String) : Bool := !m.isCenter name

def isRelative (m : Machine) (name : String) : Bool :=
  m.isCoordinateOrCenter name || hasName [angleName, offsetXName, offsetYName] name

/-- Whether a value matters for the motion of its block only. -/
def isTemporary (m : Machine) (name : String) : Bool :=
  m.isCenter name || sameLetters name radiusName

def isLength (m : Machine) (name : String) : Bool := m.isLinear name || m.isCenter name

def isFeed (name : String) : Bool := hasName [feedName, quickFeedName] name

/-- Lengths and feeds are converted from inches to millimetres. -/
def inchesToMillimetres (m : Machine) (name : String) (value : Float) : Float :=
  if m.isLength name || isFeed name then millimetresPerInch * value else value

end Machine

end PartProgram
