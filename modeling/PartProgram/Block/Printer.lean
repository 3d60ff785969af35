import PartProgram.Expr.Printer
import PartProgram.Statement
import PartProgram.Text.Blank

/-!
# Text of statements and blocks

Every block has one written form. A statement brings the blank behind it where
one is needed, and white space at the end of the line is cut. Arguments of G
codes have no written form.
-/

set_option autoImplicit false

namespace PartProgram

inductive WriteError where
  | gcodeArguments (id : Nat)
deriving DecidableEq

def codeText (letter : String) (id : Nat) : String :=
  letter ++ String.ofList (padded 2 (digits 10 id))

def WriteError.message : WriteError → String
  | gcodeArguments id => "arguments to " ++ codeText "G" id ++ " cannot be written"

namespace Expr

def fieldsText : Option Slots → String
  | none => ""
  | some fields => inBraces "[" "]" (slotTexts fields)

end Expr

namespace DeclaredVariable

def text (v : DeclaredVariable) : String :=
  let dimensions := match v.dimensions with
    | some lengths => inBraces "[" "]" (lengths.map toString)
    | none => ""
  let initial := match v.initial with
    | some e => "=" ++ e.text
    | none => ""
  v.name ++ dimensions ++ initial

end DeclaredVariable

namespace Declaration

def clauseText (word : String) : Option String → String
  | some value => word ++ " " ++ value ++ " "
  | none => ""

def text (decl : Declaration) : String :=
  let length := match decl.length with
    | some n => "[" ++ toString n ++ "]"
    | none => ""
  "DEF " ++ decl.type.word ++ length ++ " " ++
    clauseText "PHU" (decl.unit.map toString) ++
    clauseText "LLI" (decl.lower.map realText) ++
    clauseText "ULI" (decl.upper.map realText) ++
    ", ".intercalate (decl.declared.map DeclaredVariable.text) ++ " "

end Declaration

namespace Flow

def text (f : Flow) : String :=
  match f with
  | ifThen condition | whileDo condition | untilTrue condition =>
    f.keyword.word ++ " " ++ condition.text ++ " "
  | forTo counter initial last =>
    "FOR " ++ counter.text ++ "=" ++ initial.text ++ " TO " ++ last.text ++ " "
  | _ => f.keyword.word ++ " "

end Flow

namespace Statement

/-- An assignment; a number follows a single letter directly. -/
def assignText (name : String) (fields : Option Slots) (value : Expr) : String :=
  let explicit := name ++ Expr.fieldsText fields ++ "=" ++ value.text ++ " "
  match value with
  | .num n => if name.utf8ByteSize = 1 && fields.isNone then name ++ n.text else explicit
  | _ => explicit

def text : Statement → Except WriteError String
  | assign name fields value => .ok (assignText name fields value)
  | declare declaration => .ok declaration.text
  | gcode id none => .ok (codeText "G" id)
  | gcode id (some _) => .error (.gcodeArguments id)
  | mcode id => .ok (codeText "M" id)
  | jump direction none => .ok ("GOTO" ++ direction.suffix ++ " ")
  | jump direction (some target) =>
    .ok ("GOTO" ++ direction.suffix ++ " " ++ target.text ++ " ")
  | instruction name none => .ok (name ++ " ")
  | instruction name (some args) => .ok (name ++ inBraces "(" ")" (Expr.slotTexts args))
  | flow f => .ok f.text

end Statement

namespace Block

def text (b : Block) : Except WriteError String := do
  let number := match b.number with
    | some n => "N" ++ toString n
    | none => ""
  let labels := String.join (b.labels.map (· ++ ":"))
  let statements ← b.statements.mapM Statement.text
  let comment := match b.comment with
    | some text => ";" ++ text
    | none => ""
  return trimEnd (number ++ labels ++ String.join statements ++ comment)

end Block

namespace Program

def lines (p : Program) : Except WriteError (List String) := p.blocks.mapM Block.text

def text (separator : String) (p : Program) : Except WriteError String :=
  separator.intercalate <$> p.lines

end Program

end PartProgram
