import PartProgram.State
import PartProgram.Statement

/-!
# Events

What a run reports, in the order in which it happens.
-/

set_option autoImplicit false

namespace PartProgram

inductive Event where
  /-- A block is entered, by its place in a program of so many blocks. -/
  | block (index line total : Nat)
  /-- An instruction that is left to the receiver. -/
  | instruction (name : String) (args : Option Slots)
  | mcode (id : Nat)
  | gcode (id : Nat) (args : Option (List Expr))
  /-- A dwell, with its time if one is given. -/
  | dwell (delay : Option Float)
  /-- A motion between two snapshots in machine coordinates. The centre of an
  arc is part of the first. -/
  | motion (start finish : Scope) (state : State)
  /-- A subprogram of so many blocks is entered, by the name in the call. -/
  | enter (name : String) (total : Nat)
  | leave (name : String) (total : Nat)
  /-- The program ended itself. -/
  | ended

end PartProgram
