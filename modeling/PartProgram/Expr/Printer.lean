import PartProgram.Decimal.Text
import PartProgram.Expr
import PartProgram.Token.Scan

/-!
# Text of expressions

Every expression has one written form. Operators that are names stand between
blanks, operators that are signs stand close; a blank keeps two signs apart
that scanning would join.
-/

set_option autoImplicit false

namespace PartProgram

namespace Number

def constant (mark : Char) (radix : Nat) (n : Int) : String :=
  let sign := if n < 0 then "-" else ""
  sign ++ "'" ++ String.ofList (mark :: digits radix n.natAbs) ++ "'"

/-- A real number keeps its point, and an integer too large for its radix is
written in decimal. -/
def text (n : Number) : String :=
  if !n.isInteger then
    if isWhole n.value then realText n.value ++ "." else realText n.value
  else if !(n.value.abs < realOfInt wordLimit) then placesText 0 n.value
  else
    let value := (truncate n.value).toInt
    match n.radix with
    | .decimal => toString value
    | .hex => constant 'H' 16 value
    | .binary => constant 'B' 2 value

end Number

def collide (left right : String) : Bool :=
  match left.toList.getLast?, right.toList.head? with
  | some a, some b => Scan.joins a b
  | _, _ => false

def binaryText (op : BinaryOp) (lhs rhs : String) : String :=
  if op.isNamed then lhs ++ " " ++ op.symbol ++ " " ++ rhs
  else if collide op.symbol rhs then lhs ++ op.symbol ++ " " ++ rhs
  else lhs ++ op.symbol ++ rhs

def unaryText : UnaryOp → String → String
  | .not, arg => "NOT " ++ arg
  | .bitNot, arg => "B_NOT " ++ arg
  | .negate, arg => "-" ++ arg
  | .toText, arg => "<<" ++ arg

def inBraces (opening closing : String) (entries : List String) : String :=
  opening ++ ",".intercalate entries ++ closing

namespace Expr

mutual

def text : Expr → String
  | num n => n.text
  | str s => "\x22" ++ s ++ "\x22"
  | var name none => name
  | var name (some fields) => name ++ inBraces "[" "]" (slotTexts fields)
  | call name args => name ++ inBraces "(" ")" (slotTexts args)
  | bin op lhs rhs => binaryText op (text lhs) (text rhs)
  | un op arg => unaryText op (text arg)
  | bracket inner => "(" ++ text inner ++ ")"

def slotTexts : Slots → List String
  | [] => []
  | none :: rest => "" :: slotTexts rest
  | some e :: rest => text e :: slotTexts rest

end

end Expr

end PartProgram
