import PartProgram.Operator
import PartProgram.Token.Value

/-!
# Expressions

The tree of an expression. A number remembers whether it was written as an
integer and in which radix. Argument and field lists may have gaps, which are
kept. Brackets are nodes of the tree, so that they are written again.
-/

set_option autoImplicit false

namespace PartProgram

structure Number where
  value : Float
  /-- Written without a decimal point. -/
  isInteger : Bool
  radix : Radix
deriving DecidableEq

inductive Expr where
  | num (number : Number)
  | str (text : String)
  /-- A variable, with the indices in its field braces if it has any. -/
  | var (name : String) (fields : Option (List (Option Expr)))
  | call (name : String) (args : List (Option Expr))
  | bin (op : BinaryOp) (lhs rhs : Expr)
  | un (op : UnaryOp) (arg : Expr)
  | bracket (inner : Expr)

/-- A list of expressions in braces; a gap is an entry that was left out. -/
abbrev Slots : Type := List (Option Expr)

namespace Number

def negate (n : Number) : Number := { n with value := -n.value }

/-- Equality of literals; an undefined value differs from itself, and the two
zeros are equal. -/
def same (a b : Number) : Bool :=
  a.value == b.value && a.isInteger == b.isInteger && a.radix == b.radix

end Number

namespace Expr

def int (n : Int) : Expr := num ⟨realOfInt n, true, .decimal⟩

def real (x : Float) : Expr := num ⟨x, false, .decimal⟩

mutual

def same : Expr → Expr → Bool
  | num a, num b => a.same b
  | str a, str b => a == b
  | var a none, var b none => a == b
  | var a (some fs), var b (some gs) => a == b && sameSlots fs gs
  | call a xs, call b ys => a == b && sameSlots xs ys
  | bin op a b, bin op' a' b' => op == op' && same a a' && same b b'
  | un op a, un op' a' => op == op' && same a a'
  | bracket a, bracket b => same a b
  | _, _ => false

def sameSlots : Slots → Slots → Bool
  | [], [] => true
  | none :: xs, none :: ys => sameSlots xs ys
  | some x :: xs, some y :: ys => same x y && sameSlots xs ys
  | _, _ => false

end

instance : BEq Expr := ⟨same⟩

end Expr

end PartProgram
