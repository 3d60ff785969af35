import PartProgram.RunError
import PartProgram.Scope

/-!
# Values of expressions

An expression has a number or a string as its value. Both sides of a binary
operation are evaluated before the operation, the left one first, and no
operation skips a side. Truth is the number one, falsehood zero; any number
but zero counts as true.
-/

set_option autoImplicit false

namespace PartProgram

inductive Value where
  | number (x : Float)
  | string (s : String)
deriving DecidableEq

namespace Value

def truth (b : Bool) : Value := number (if b then 1.0 else 0.0)

def text : Value → String
  | number x => realText x
  | string s => s

def toNumber : Value → Except RunCause Float
  | number x => .ok x
  | string s => .error (.expectedNumber s)

def equal : Value → Value → Bool
  | number x, number y => x == y
  | string s, string t => s == t
  | _, _ => false

end Value

def divide (op : Float → Float → Float) (x y : Float) : Except RunCause Value :=
  if y == 0.0 then .error .divisionByZero else .ok (.number (op x y))

def onWords (op : Int64 → Int64 → Int64) (x y : Float) : Value :=
  .number (realOfWord (op (truncate x) (truncate y)))

namespace BinaryOp

/-- An operation on two numbers. Integer division truncates its operands, but
not its quotient. -/
def onNumbers (op : BinaryOp) (x y : Float) : Except RunCause Value :=
  match op with
  | mul => .ok (.number (x * y))
  | div => divide (· / ·) x y
  | intDiv => divide (· / ·) (realOfWord (truncate x)) (realOfWord (truncate y))
  | mod => divide remainder x y
  | add => .ok (.number (x + y))
  | sub => .ok (.number (x - y))
  | bitAnd => .ok (onWords (· &&& ·) x y)
  | bitXor => .ok (onWords (· ^^^ ·) x y)
  | bitOr => .ok (onWords (· ||| ·) x y)
  | and => .ok (.truth (x != 0.0 && y != 0.0))
  | xor => .ok (.truth ((x != 0.0) != (y != 0.0)))
  | or => .ok (.truth (x != 0.0 || y != 0.0))
  | concat => .ok (.string (realText x ++ realText y))
  | eq => .ok (.truth (x == y))
  | ne => .ok (.truth (x != y))
  | gt => .ok (.truth (x > y))
  | lt => .ok (.truth (x < y))
  | ge => .ok (.truth (x ≥ y))
  | le => .ok (.truth (x ≤ y))

/-- Any two values can be joined or tested for equality; the other operations
take numbers. -/
def apply (op : BinaryOp) (lhs rhs : Value) : Except RunCause Value :=
  match op with
  | concat => .ok (.string (lhs.text ++ rhs.text))
  | eq => .ok (.truth (lhs.equal rhs))
  | ne => .ok (.truth (!lhs.equal rhs))
  | op => do
    let x ← lhs.toNumber
    let y ← rhs.toNumber
    op.onNumbers x y

end BinaryOp

namespace UnaryOp

def onValue : UnaryOp → Value → Except RunCause Value
  | not, arg => return .truth ((← arg.toNumber) == 0.0)
  | bitNot, arg => return .number (realOfWord (~~~ (truncate (← arg.toNumber))))
  | negate, arg => return .number (-(← arg.toNumber))
  | toText, arg => return .string arg.text

end UnaryOp

namespace Expr

def evaluate (scope : Scope) : Expr → Except RunCause Value
  | num n => .ok (.number n.value)
  | str s => .ok (.string s)
  | var name _ =>
    match scope.get? name with
    | some x => .ok (.number x)
    | none => .error (.unknownVariable name)
  | call name _ => .error (.unsupportedFunction name)
  | bracket inner => evaluate scope inner
  | un op arg => do
    let value ← evaluate scope arg
    op.onValue value
  | bin op lhs rhs => do
    let left ← evaluate scope lhs
    let right ← evaluate scope rhs
    op.apply left right

def evaluateNumber (scope : Scope) (e : Expr) : Except RunCause Float := do
  (← e.evaluate scope).toNumber

def holds (scope : Scope) (e : Expr) : Except RunCause Bool := do
  match ← e.evaluate scope with
  | .number x => return x != 0.0
  | .string _ => throw .invalidCondition

end Expr

end PartProgram
