import PartProgram.Statement.Reader

/-!
# Reading blocks and programs

A block begins with an optional number and labels, and ends with an optional
comment at the line end. A program is read block by block up to the end of the
text; the first error ends it.
-/

set_option autoImplicit false

namespace PartProgram

namespace Reader

def blockNumber : Option Statement → Reader (Option Int)
  | some (.assign name _ value) => do
    if sameLetters name "N" then
      match value with
      | .num ⟨x, true, _⟩ =>
        match integral? x with
        | some n => return some n
        | none => fail .expectedBlockNumber
      | _ => fail .expectedBlockNumber
    else return none
  | _ => return none

/-- Labels are bare instructions with a colon behind them. What comes after the
last one is the first statement. -/
def labels (d : Dialect) :
    List Char → Option Statement → Reader (List String × Option Statement)
  | _ :: ahead, some (.instruction name none) => do
    if ← accept d .colon ":" then
      let (names, first) ← labels d ahead (← statement d)
      return (name :: names, first)
    else return ([], some (.instruction name none))
  | _, first => return ([], first)

def statements (d : Dialect) : List Char → Option Statement → Reader (List Statement)
  | _, none => return []
  | [], some s => return [s]
  | _ :: ahead, some s => do
    return s :: (← statements d ahead (← statement d))

def comment (d : Dialect) : Reader (Option String) := do
  match (← get).held.filter (·.kind == .comment) with
  | some t =>
    advance d
    return some t.text
  | none => return none

def lineEnd (d : Dialect) : Reader Unit := do
  match (← get).held with
  | none => return
  | some t => if t.kind = .newLine then advance d else failWith .expectedLineEnd

def blockBody (d : Dialect) (line : Nat) (number : Option Int) (ahead : List Char)
    (first : Option Statement) : Reader Block := do
  let (labels, first) ← labels d ahead first
  let statements ← statements d ahead first
  let comment ← comment d
  return { line, number, labels, statements, comment }

/-- The block from the held token on, without its line end. -/
def blockContent (d : Dialect) (line : Nat) : Reader Block := do
  let ahead := (← get).ahead
  let first ← statement d
  match ← blockNumber first with
  | some number => blockBody d line (some number) ahead (← statement d)
  | none => blockBody d line none ahead first

def blockFrom (d : Dialect) (line : Nat) : Reader Block := do
  let block ← blockContent d line
  lineEnd d
  return block

def heldBlock (d : Dialect) : Reader (Option Block) := do
  match (← get).held with
  | none => return none
  | some t =>
    if t.kind = .newLine then
      advance d
      return some { line := t.line }
    else some <$> blockFrom d t.line

def nextBlock (d : Dialect) : Reader (Option Block) := do
  if (← get).held.isNone then advance d
  heldBlock d

def nextBlocks (d : Dialect) : Nat → Cursor → List (Except ReadError (Option Block))
  | 0, _ => []
  | calls + 1, c =>
    match nextBlock d c with
    | .ok b after => .ok b :: nextBlocks d calls after
    | .error e after => .error e :: nextBlocks d calls after

end Reader

namespace Program

/-- The blocks from a position on. Every block takes a character at least. -/
def blocksFrom (d : Dialect) : List Char → Cursor → Except ReadError (List Block)
  | [], _ => .ok []
  | _ :: ahead, c =>
    match Reader.nextBlock d c with
    | .ok none _ => .ok []
    | .ok (some b) after => (b :: ·) <$> blocksFrom d ahead after
    | .error e _ => .error e

def parse (d : Dialect) (text : String) : Except ReadError Program :=
  (⟨·⟩) <$> blocksFrom d text.toList (Cursor.ofText text)

def parseLines (lines : List String) : Except ReadError Program :=
  parse {} ("\n".intercalate lines)

end Program

end PartProgram
