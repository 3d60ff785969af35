import PartProgram.Text.Letter

/-!
# Operators

The binary operators with their binding strength, and the prefix operators.
An operator is written as a symbol or as a name; the case of a name does not
matter.
-/

set_option autoImplicit false

namespace PartProgram

inductive BinaryOp where
  | mul | div | intDiv | mod
  | add | sub
  | bitAnd | bitXor | bitOr
  | and | xor | or
  | concat
  | eq | ne | gt | lt | ge | le
deriving DecidableEq

inductive UnaryOp where
  | not | bitNot | negate | toText
deriving DecidableEq

namespace BinaryOp

def symbol : BinaryOp → String
  | mul => "*" | div => "/" | intDiv => "DIV" | mod => "MOD"
  | add => "+" | sub => "-"
  | bitAnd => "B_AND" | bitXor => "B_XOR" | bitOr => "B_OR"
  | and => "AND" | xor => "XOR" | or => "OR"
  | concat => "<<"
  | eq => "==" | ne => "<>" | gt => ">" | lt => "<" | ge => ">=" | le => "<="

/-- Binding strength; the higher one binds tighter. -/
def priority : BinaryOp → Nat
  | mul | div | intDiv | mod => 10
  | add | sub => 9
  | bitAnd => 8
  | bitXor => 7
  | bitOr => 6
  | and => 5
  | xor => 4
  | or => 3
  | concat => 2
  | eq | ne | gt | lt | ge | le => 1

def all : List BinaryOp :=
  [mul, div, intDiv, mod, add, sub, bitAnd, bitXor, bitOr, and, xor, or, concat,
   eq, ne, gt, lt, ge, le]

def isNamed (op : BinaryOp) : Bool :=
  (op.symbol.toList.head?.map Char.isAlpha).getD false

def ofText (text : String) : Option BinaryOp :=
  ofWord (all.map (fun op => (op.symbol, op))) text

end BinaryOp

namespace UnaryOp

def symbol : UnaryOp → String
  | not => "NOT" | bitNot => "B_NOT" | negate => "-" | toText => "<<"

def all : List UnaryOp := [not, bitNot, negate, toText]

def ofText (text : String) : Option UnaryOp :=
  ofWord (all.map (fun op => (op.symbol, op))) text

end UnaryOp

end PartProgram
