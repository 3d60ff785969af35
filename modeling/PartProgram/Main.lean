import PartProgram.CommandLine

/-!
# The program

The first argument selects the command: `parse` or `run`.
-/

set_option autoImplicit false

namespace PartProgram

def readFile (name : String) : IO (Except FileError String) := do
  try
    return fileText (← IO.FS.readBinFile name)
  catch
    | .noFileOrDirectory .. => return .error .missing
    | e => return .error (.unreadable (toString e))

def readFiles (args : List String) : IO Files := do
  let contents ← (CommandLine.fileNames args).mapM fun name => do
    return (name, ← readFile name)
  return fun name => (contents.lookup name).getD (.error .missing)

def printReport (r : Report) : IO UInt32 := do
  IO.print r.output
  if let some line := r.errorLine then
    IO.eprintln line
  return r.exitCode.toUInt32

end PartProgram

open PartProgram

def main (args : List String) : IO UInt32 := do
  match args with
  | "parse" :: rest => printReport (CommandLine.format (← readFiles rest) rest)
  | "run" :: rest => printReport (CommandLine.run (twoTo 62) (← readFiles rest) rest)
  | _ =>
    IO.eprintln "usage: parse FILE | run FILE [NAME=FILE ...]"
    return 2
