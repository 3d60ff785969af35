import PartProgram.Machine
import PartProgram.Scope

/-!
# Frames

A frame rotates points in the plane of two axes and then shifts them. It acts
on the first two axes of every linear group, and on the first two arc centres
of the group if one of them has a value.
-/

set_option autoImplicit false

namespace PartProgram

structure Point where
  x : Float
  y : Float
deriving DecidableEq

/-- The angle in degrees and the offset, as variables of a scope. -/
structure Frame where
  parameters : Scope := {}
deriving DecidableEq

def radiansPerDegree : Float := 3.14159265358979323846 / 180.0

/-- Maps the point that two variables of a scope form; one without a value
counts as zero. -/
def mapPair (f : Point → Point) (xName yName : String) (s : Scope) : Scope :=
  let p := f ⟨s.getD xName, s.getD yName⟩
  (s.set xName p.x).set yName p.y

def mapFirstPair (f : Point → Point) (names : List String) (s : Scope) : Scope :=
  match names with
  | xName :: yName :: _ => mapPair f xName yName s
  | _ => s

def mapSetPair (f : Point → Point) (names : List String) (s : Scope) : Scope :=
  match names with
  | xName :: yName :: _ => if s.has xName || s.has yName then mapPair f xName yName s else s
  | _ => s

def mapGroup (f : Point → Point) (s : Scope) (axes : AxisGroup) : Scope :=
  mapSetPair f axes.centers (mapFirstPair f axes.names s)

namespace Frame

def angle (t : Frame) : Float := t.parameters.getD angleName

def offset (t : Frame) : Point := ⟨t.parameters.getD offsetXName, t.parameters.getD offsetYName⟩

def isIdentity (t : Frame) : Bool :=
  t.angle == 0.0 && t.offset.x == 0.0 && t.offset.y == 0.0

def rotate (t : Frame) (sign : Float) (p : Point) : Point :=
  let angle := sign * t.angle
  if angle == 0.0 then p
  else
    let sin := Float.sin (angle * radiansPerDegree)
    let cos := Float.cos (angle * radiansPerDegree)
    ⟨p.x * cos - p.y * sin, p.x * sin + p.y * cos⟩

def shift (t : Frame) (sign : Float) (p : Point) : Point :=
  ⟨p.x + sign * t.offset.x, p.y + sign * t.offset.y⟩

def toMachine (t : Frame) (p : Point) : Point := t.shift 1.0 (t.rotate 1.0 p)

def ofMachine (t : Frame) (p : Point) : Point := t.rotate (-1.0) (t.shift (-1.0) p)

/-- Takes the coordinates in a scope out of the frame. -/
def leave (t : Frame) (m : Machine) (s : Scope) : Scope :=
  m.linear.foldl (mapGroup t.toMachine) s

def enter (t : Frame) (m : Machine) (s : Scope) : Scope :=
  m.linear.foldl (mapGroup t.ofMachine) s

end Frame

end PartProgram
