import PartProgram.Block.Printer
import PartProgram.Block.Reader
import PartProgram.Run.Session

/-!
# Command line

Two commands on program files. One writes a program in its canonical form, the
other runs it and writes a line for every event. What a command prints is a
function of its arguments and of the files it can read.
-/

set_option autoImplicit false

namespace PartProgram

inductive FileError where
  | missing
  | notText
  | unreadable (reason : String)

def FileError.message : FileError → String
  | missing => "No such file or directory (os error 2)"
  | notText => "stream did not contain valid UTF-8"
  | unreadable reason => reason

abbrev Files : Type := String → Except FileError String

def fileText (bytes : ByteArray) : Except FileError String :=
  (String.fromUTF8? bytes).elim (.error .notText) .ok

/-- What a command prints, and the error that ended it. -/
structure Report where
  output : String
  error : Option String

namespace Report

def ofExcept : Except String String → Report
  | .ok output => ⟨output, none⟩
  | .error message => ⟨"", some message⟩

def errorLine (r : Report) : Option String := r.error.map ("Error: " ++ ·)

def exitCode (r : Report) : Nat := if r.error.isSome then 1 else 0

end Report

namespace Event

def coordinateText (s : Scope) (name : String) : String :=
  (s.get? name).elim "-" (placesText 3)

def positionText (s : Scope) : String :=
  "(" ++ " ".intercalate (["X", "Y", "Z"].map (coordinateText s)) ++ ")"

def text : Event → String
  | block index line _ => "block " ++ toString index ++ " (line " ++ toString line ++ ")"
  | instruction name _ => "  instruction " ++ name
  | mcode id => "  unhandled " ++ codeText "M" id
  | gcode id _ => "  unhandled " ++ codeText "G" id
  | dwell none => "  wait"
  | dwell (some delay) => "  wait " ++ realText delay
  | motion start finish state =>
    "  " ++ state.mode.name ++ " " ++ positionText start ++ " -> " ++ positionText finish ++
      " at " ++ placesText 4 state.velocity ++ " m/s"
  | enter name _ => "  enter " ++ name
  | leave name _ => "  leave " ++ name
  | ended => "finished"

end Event

namespace CommandLine

def nameRequired : String := "file name required"

def loadProgram (files : Files) (name : String) : Except String Program := do
  let text ← (files name).mapError FileError.message
  (Program.parse {} text).mapError ReadError.message

def format (files : Files) (args : List String) : Report :=
  Report.ofExcept do
    match args with
    | [] => throw nameRequired
    | name :: _ =>
      let program ← loadProgram files name
      let text ← (program.text "\n").mapError WriteError.message
      return text ++ "\n"

/-- A subprogram and its file, given as `NAME=file`. -/
def splitArgument (arg : String) : Except String (String × String) :=
  match arg.toList.dropWhile (· ≠ '=') with
  | _ :: file => .ok (String.ofList (arg.toList.takeWhile (· ≠ '=')), String.ofList file)
  | [] => .error "subprograms are given as NAME=file"

def loadSubprograms (files : Files) (s : Session) : List String → Except String Session
  | [] => .ok s
  | arg :: rest => do
    let (name, file) ← splitArgument arg
    let program ← loadProgram files file
    loadSubprograms files (s.addSubprogram name program) rest

def haltMessage : Halt → String
  | .failed e => e.message
  | .exhausted => "the run does not end"

def outcomeReport (o : Outcome) : Report :=
  ⟨String.join (o.events.map (·.text ++ "\n")), o.halt.map haltMessage⟩

def loadSession (files : Files) : List String → Except String (Program × Session)
  | [] => .error nameRequired
  | name :: rest => do
    let program ← loadProgram files name
    let session ← loadSubprograms files {} rest
    return (program, session)

/-- Runs the program in the first file, with the other files as subprograms. -/
def run (steps : Nat) (files : Files) (args : List String) : Report :=
  match loadSession files args with
  | .error message => ⟨"", some message⟩
  | .ok (program, session) => outcomeReport (session.process steps program).1

def fileNames : List String → List String
  | [] => []
  | name :: rest => name :: rest.filterMap (fun arg => (splitArgument arg).toOption.map Prod.snd)

end CommandLine

end PartProgram
