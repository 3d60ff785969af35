import PartProgram.Cursor
import PartProgram.Expr

/-!
# Reading expressions

An expression is a sequence of operands with binary operators between them.
Operands that wait for their right side are kept on a stack with their
operator; operators of equal priority associate to the left. Operands nest
through brackets, argument lists and prefix operators. Each level takes a token
at least, so the nesting is bounded by the characters ahead. When these are
used up the text is at its end, and the answer is the one that the end of the
text gives.
-/

set_option autoImplicit false

namespace PartProgram

inductive Braces where
  | round | field
deriving DecidableEq

namespace Braces

def kind : Braces → TokenKind
  | round => .brace
  | field => .fieldBrace

def opening : Braces → String
  | round => "("
  | field => "["

def closing : Braces → String
  | round => ")"
  | field => "]"

def unclosed : Braces → String → ReadCause
  | round => .expectedClosingBracket
  | field => .expectedClosingFieldBrace

end Braces

def UnaryOp.apply : UnaryOp → Expr → Expr
  | .negate, .num n => .num n.negate
  | op, arg => .un op arg

def scaleByTen (value exponent : Float) : Float :=
  if isWhole exponent then value * power 10.0 (saturate (twoTo 31) exponent)
  else value * Float.pow 10.0 exponent

/-- Operators with the left operands that wait for a right one, the latest
first. -/
abbrev Pending : Type := List (BinaryOp × Expr)

namespace Pending

/-- Completes the operations that bind at least as tight as the operator that
comes next. -/
def reduce (op : BinaryOp) : Pending → Expr → Pending × Expr
  | (top, lhs) :: rest, current =>
    if op.priority ≤ top.priority then reduce op rest (.bin top lhs current)
    else ((top, lhs) :: rest, current)
  | [], current => ([], current)

def unwind (pending : Pending) (current : Expr) : Expr :=
  pending.foldl (fun rhs entry => .bin entry.1 entry.2 rhs) current

end Pending

namespace Reader

def heldOperator : Reader (Option String) := do
  return ((← get).held.filter (fun t => t.kind == .operator && t.text != "=")).map Token.text

def binaryOperator (d : Dialect) : Reader (Option BinaryOp) := do
  match ← heldOperator with
  | none => return none
  | some text =>
    match BinaryOp.ofText text with
    | some op =>
      advance d
      return some op
    | none => fail (.expectedBinaryOperator text)

/-- The operator in front of an operand. A plus sign is dropped, and then no
other operator may precede the operand. -/
def unaryOperator (d : Dialect) : Reader (Option UnaryOp) := do
  match ← heldOperator with
  | none => return none
  | some text =>
    if text = "+" then
      advance d
      return none
    else
      match UnaryOp.ofText text with
      | some op =>
        advance d
        return some op
      | none => fail (.expectedOperand text)

def exponentSign (d : Dialect) : Reader Float := do
  if ← accept d .operator "-" then return -1.0
  else
    let _ ← accept d .operator "+"
    return 1.0

def exponent (d : Dialect) : Reader Float := do
  let sign ← exponentSign d
  match ((← get).held.filter Token.isDecimal).bind (fun t => readReal t.text) with
  | some value =>
    advance d
    return sign * value
  | none => failWith .expectedNumber

/-- A number token that is held, with the exponent that directly follows it. A
number with an exponent is no integer. -/
def number (d : Dialect) (t : Token) : Reader Number := do
  match t.number?, t.text.toList.head? with
  | some value, some mark =>
    let n : Number := ⟨value, !t.text.toList.contains '.', Radix.ofMark mark⟩
    advance d
    if (← get).held.any (fun next => next.isKeyword "EX" && !next.spaced) then
      advance d
      return { n with value := scaleByTen n.value (← exponent d), isInteger := false }
    else return n
  | _, _ => fail (.invalidNumber t.text)

def operations (d : Dialect) (operand : Reader Expr) :
    List Char → Pending → Expr → Reader Expr
  | [], pending, current => return pending.unwind current
  | _ :: ahead, pending, current => do
    match ← binaryOperator d with
    | none => return pending.unwind current
    | some op =>
      let (waiting, lhs) := pending.reduce op current
      operations d operand ahead ((op, lhs) :: waiting) (← operand)

def expressionOf (d : Dialect) (operand : Reader Expr) (ahead : List Char) : Reader Expr := do
  operations d operand ahead [] (← operand)

/-- The entries of a list up to its closing brace. A gap stands where a comma
follows directly; the comma between two entries may be missing. -/
def slots (d : Dialect) (b : Braces) (expression : Reader Expr) : List Char → Reader Slots
  | [] => failWith b.unclosed
  | _ :: ahead => do
    let c ← get
    if c.holds b.kind b.closing then
      advance d
      return []
    else if c.atLineEnd || c.holds .brace ")" || c.holds .fieldBrace "]" then
      failWith b.unclosed
    else
      let entry ← if c.holds .separator "," then pure none else some <$> expression
      let _ ← accept d .separator ","
      return entry :: (← slots d b expression ahead)

def braced (d : Dialect) (b : Braces) (expression : Reader Expr) (ahead : List Char) :
    Reader Slots := do
  advance d
  slots d b expression ahead

def variableOrCall (d : Dialect) (name : String) (expression : Reader Expr)
    (ahead : List Char) : Reader Expr := do
  advance d
  if (← get).holds .brace "(" then
    return .call name (← braced d .round expression ahead)
  else
    let name ← gluedDigits d name
    if (← get).holds .fieldBrace "[" then
      return .var name (some (← braced d .field expression ahead))
    else return .var name none

def bracket (d : Dialect) (expression : Reader Expr) : Reader Expr := do
  advance d
  let inner ← expression
  expect d .brace ")" .expectedClosingBracket
  return .bracket inner

def operandOf (d : Dialect) (expression : Reader Expr) (ahead : List Char) :
    Reader Expr := do
  expectMore
  match (← get).held with
  | none => fail .unexpectedLineEnd
  | some t =>
    match t.kind with
    | .number => .num <$> number d t
    | .identifier => variableOrCall d t.text expression ahead
    | .string =>
      advance d
      return .str t.text
    | .brace =>
      if t.text = "(" then bracket d expression else fail (.expectedOperand t.text)
    | _ => fail (.expectedOperand t.text)

def operand (d : Dialect) : List Char → Reader Expr
  | [] => fail .unexpectedLineEnd
  | _ :: ahead => do
    match ← unaryOperator d with
    | some op => return op.apply (← operand d ahead)
    | none => operandOf d (expressionOf d (operand d ahead) ahead) ahead

def expression (d : Dialect) : Reader Expr := fun c =>
  expressionOf d (operand d c.ahead) c.ahead c

def wholeExpression (d : Dialect) : Reader Expr := do
  advance d
  let e ← expression d
  if (← get).atLineEnd then return e else failWith .expectedLineEnd

end Reader

def Expr.parse (text : String) : Except ReadError Expr :=
  match Reader.wholeExpression {} (Cursor.ofText text) with
  | .ok e _ => .ok e
  | .error e _ => .error e

end PartProgram
