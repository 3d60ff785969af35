import PartProgram.Expr

/-!
# Statements and blocks

A block is one line of a program: an optional number, labels, statements and a
comment. A program is the list of its blocks, and jumps address a block by its
place in that list.
-/

set_option autoImplicit false

namespace PartProgram

inductive VariableType where
  | int | real | bool | char | string | axis | frame
deriving DecidableEq

namespace VariableType

def word : VariableType → String
  | int => "INT" | real => "REAL" | bool => "BOOL" | char => "CHAR"
  | string => "STRING" | axis => "AXIS" | frame => "FRAME"

def all : List VariableType := [int, real, bool, char, string, axis, frame]

def ofText (text : String) : Option VariableType :=
  ofWord (all.map (fun t => (t.word, t))) text

end VariableType

inductive JumpDirection where
  | start | backward | forward | search | searchQuietly
deriving DecidableEq

namespace JumpDirection

def suffix : JumpDirection → String
  | start => "S" | backward => "B" | forward => "F" | search => "" | searchQuietly => "C"

def all : List JumpDirection := [start, backward, forward, search, searchQuietly]

def ofSuffix (text : String) : Option JumpDirection :=
  ofWord (all.map (fun d => (d.suffix, d))) text

def ofText (text : String) : Option JumpDirection :=
  ofWord (all.map (fun d => ("GOTO" ++ d.suffix, d))) text

end JumpDirection

inductive FlowKeyword where
  | ifThen | otherwise | endIf | whileDo | endWhile | repeatDo | untilTrue
  | loop | endLoop | forTo | endFor
deriving DecidableEq

namespace FlowKeyword

def word : FlowKeyword → String
  | ifThen => "IF" | otherwise => "ELSE" | endIf => "ENDIF"
  | whileDo => "WHILE" | endWhile => "ENDWHILE"
  | repeatDo => "REPEAT" | untilTrue => "UNTIL"
  | loop => "LOOP" | endLoop => "ENDLOOP"
  | forTo => "FOR" | endFor => "ENDFOR"

def all : List FlowKeyword :=
  [ifThen, otherwise, endIf, whileDo, endWhile, repeatDo, untilTrue, loop, endLoop, forTo, endFor]

def ofText (text : String) : Option FlowKeyword :=
  ofWord (all.map (fun k => (k.word, k))) text

end FlowKeyword

/-- Statements that steer which statements are executed. -/
inductive Flow where
  | ifThen (condition : Expr)
  | otherwise
  | endIf
  | whileDo (condition : Expr)
  | endWhile
  | repeatDo
  | untilTrue (condition : Expr)
  | loop
  | endLoop
  | forTo (counter initial last : Expr)
  | endFor
deriving BEq

def Flow.keyword : Flow → FlowKeyword
  | ifThen _ => .ifThen
  | otherwise => .otherwise
  | endIf => .endIf
  | whileDo _ => .whileDo
  | endWhile => .endWhile
  | repeatDo => .repeatDo
  | untilTrue _ => .untilTrue
  | loop => .loop
  | endLoop => .endLoop
  | forTo .. => .forTo
  | endFor => .endFor

structure DeclaredVariable where
  name : String
  /-- The lengths in field braces that make it an array. -/
  dimensions : Option (List Nat)
  initial : Option Expr
deriving BEq

structure Declaration where
  type : VariableType
  /-- The greatest length of a string. -/
  length : Option Nat
  unit : Option Int
  lower : Option Float
  upper : Option Float
  declared : List DeclaredVariable
deriving BEq

inductive Statement where
  /-- A value for a variable, such as `X10`, `R1=5` or `R[2]=R1*2`. -/
  | assign (name : String) (fields : Option Slots) (value : Expr)
  | declare (declaration : Declaration)
  | gcode (id : Nat) (args : Option (List Expr))
  | mcode (id : Nat)
  | jump (direction : JumpDirection) (target : Option Expr)
  /-- A word of its own, or a call if there are arguments. -/
  | instruction (name : String) (args : Option Slots)
  | flow (flow : Flow)
deriving BEq

structure Block where
  /-- The line of the text, counted from one. -/
  line : Nat
  number : Option Int := none
  labels : List String := []
  statements : List Statement := []
  comment : Option String := none
deriving BEq

namespace Block

def hasLabel (label : String) (b : Block) : Bool := b.labels.any (sameLetters label)

end Block

structure Program where
  blocks : List Block
deriving BEq

end PartProgram
