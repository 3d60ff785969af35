import PartProgram.Expr.Reader
import PartProgram.Statement

/-!
# Reading statements

Most statements begin with a keyword. Any other statement is first read as an
expression: a variable is then assigned to or is an instruction, a call is an
instruction, and a sum or difference that begins with an address letter is the
letter with a signed value, as in `X-5`.
-/

set_option autoImplicit false

namespace PartProgram

namespace Expr

def negated : Expr → Expr
  | num n => num n.negate
  | bin op lhs rhs => un .negate (bracket (bin op lhs rhs))
  | e => un .negate e

/-- An address letter with a signed value. Only the outermost operation is
looked at, so `X-1.2+3` is none. -/
def signedWord? : Expr → Option (String × Expr)
  | bin .add (var name none) rhs =>
    if name.utf8ByteSize = 1 then some (name, rhs) else none
  | bin .sub (var name none) rhs =>
    if name.utf8ByteSize = 1 then some (name, rhs.negated) else none
  | _ => none

end Expr

namespace Reader

def separated {α : Type} (d : Dialect) (entry : Reader α) : List Char → Reader (List α)
  | [] => return [← entry]
  | _ :: ahead => do
    let first ← entry
    if ← accept d .separator "," then
      return first :: (← separated d entry ahead)
    else return [first]

def entries {α : Type} (d : Dialect) (entry : Reader α) : Reader (List α) := fun c =>
  separated d entry c.ahead c

def fieldEntries {α : Type} (d : Dialect) (entry : Reader α) : Reader (List α) := do
  advance d
  let list ← entries d entry
  expect d .fieldBrace "]" .expectedClosingFieldBrace
  return list

def codeNumber (d : Dialect) : Reader Nat := do
  advance d
  expectMore
  natural d

def gcode (d : Dialect) : Reader Statement := do
  let id ← codeNumber d
  if d.gcodeArguments && (← get).holds .fieldBrace "[" then
    return .gcode id (some (← fieldEntries d (expression d)))
  else return .gcode id none

def jump (d : Dialect) (direction : JumpDirection) : Reader Statement := do
  advance d
  if direction = .start then return .jump direction none
  else return .jump direction (some (← expression d))

def literal (d : Dialect) : Reader Float := do
  let found := (← get).found
  match ← expression d with
  | .num n => return n.value
  | _ => fail (.expectedNumber found)

def clause {α : Type} (d : Dialect) (word : String) (body : Reader α) : Reader (Option α) := do
  if ← acceptKeyword d word then some <$> body else return none

def variableType (d : Dialect) : Reader VariableType := do
  match ((← get).held.filter (·.kind == .identifier)).bind (VariableType.ofText ·.text) with
  | some type =>
    advance d
    return type
  | none => failWith .expectedVariableType

def stringLength (d : Dialect) (type : VariableType) : Reader (Option Nat) := do
  if type = .string && (← get).holds .fieldBrace "[" then
    advance d
    let length ← natural d
    expect d .fieldBrace "]" .expectedClosingFieldBrace
    return some length
  else return none

def dimensions (d : Dialect) : Reader (Option (List Nat)) := do
  if (← get).holds .fieldBrace "[" then some <$> fieldEntries d (natural d)
  else return none

def initialValue (d : Dialect) : Reader (Option Expr) := do
  if ← accept d .operator "=" then some <$> expression d else return none

def declaredVariable (d : Dialect) : Reader DeclaredVariable := do
  match (← get).held.filter (·.kind == .identifier) with
  | some t =>
    advance d
    let name ← gluedDigits d t.text
    let dimensions ← dimensions d
    let initial ← initialValue d
    return ⟨name, dimensions, initial⟩
  | none => failWith .expectedVariableName

def declaration (d : Dialect) : Reader Declaration := do
  advance d
  expectMore
  let type ← variableType d
  let length ← stringLength d type
  let unit ← clause d "PHU" (integer d)
  let lower ← clause d "LLI" (literal d)
  let upper ← clause d "ULI" (literal d)
  let declared ← entries d (declaredVariable d)
  return ⟨type, length, unit, lower, upper, declared⟩

/-- An assignment to a variable that was read, or the variable's name as an
instruction. A single letter, or a letter with digits, takes its value without
a sign of equality. -/
def variableStatement (d : Dialect) (name : String) (fields : Option Slots) :
    Reader Statement := do
  if ← accept d .operator "=" then
    return .assign name fields (← expression d)
  else if fields.isSome then fail .unexpectedFieldBraces
  else
    match name.toList with
    | [_] => return .assign name none (← expression d)
    | letter :: digit :: rest =>
      if digit.isDigit then
        match readInteger 10 (digit :: rest) with
        | some n => return .assign (String.singleton letter) none (.int n)
        | none => fail (.expectedInteger (String.ofList (digit :: rest)))
      else return .instruction name none
    | [] => return .instruction name none

def assignmentOrInstruction (d : Dialect) : Reader Statement := do
  match ← expression d with
  | .var name fields => variableStatement d name fields
  | .call name args => return .instruction name (some args)
  | .str text =>
    if d.stringInstructions then return .instruction ("\x22" ++ text ++ "\x22") none
    else fail .expectedAssignmentOrInstruction
  | e =>
    match e.signedWord? with
    | some (name, value) => return .assign name none value
    | none => fail .expectedAssignmentOrInstruction

def forLoop (d : Dialect) : Reader Flow := do
  match ← assignmentOrInstruction d with
  | .assign name fields initial =>
    if ← acceptKeyword d "TO" then
      return .forTo (.var name fields) initial (← expression d)
    else fail .expectedToKeyword
  | _ => fail .expectedAssignment

def flow (d : Dialect) (keyword : FlowKeyword) : Reader Flow := do
  advance d
  match keyword with
  | .ifThen => .ifThen <$> expression d
  | .otherwise => return .otherwise
  | .endIf => return .endIf
  | .whileDo => .whileDo <$> expression d
  | .endWhile => return .endWhile
  | .repeatDo => return .repeatDo
  | .untilTrue => .untilTrue <$> expression d
  | .loop => return .loop
  | .endLoop => return .endLoop
  | .forTo => forLoop d
  | .endFor => return .endFor

def namedStatement (d : Dialect) (name : String) : Reader Statement := do
  if sameLetters name "G" then gcode d
  else if sameLetters name "M" then .mcode <$> codeNumber d
  else
    match JumpDirection.ofText name with
    | some direction => jump d direction
    | none =>
      if sameLetters name "DEF" then .declare <$> declaration d
      else
        match FlowKeyword.ofText name with
        | some keyword => .flow <$> flow d keyword
        | none => assignmentOrInstruction d

def statement (d : Dialect) : Reader (Option Statement) := do
  let c ← get
  if c.atLineEnd then return none
  else
    match c.held with
    | some t =>
      if t.kind = .identifier then some <$> namedStatement d t.text
      else some <$> assignmentOrInstruction d
    | none => return none

end Reader

end PartProgram
