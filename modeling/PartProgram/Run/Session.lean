import PartProgram.Run.Execute

/-!
# Running programs

A program is run block by block from its first one, until its end, a return or
the end of all programs. Jumps and calls can make a run endless, so it is given
a number of steps: every block takes one, and a subprogram has as many left as
the block that calls it. A session keeps the machine state and the subprograms
from one run to the next.
-/

set_option autoImplicit false

namespace PartProgram

namespace Exec

def takeJump : Exec (Option Jump) := do
  let jump := (← get).control.jump
  modifyControl ({ · with jump := none })
  return jump

def runFrom (programs : Table Program) : Nat → Program → Nat → Exec Unit
  | 0, _, _ => throw .exhausted
  | steps + 1, program, index => do
    match program.blocks[index]? with
    | none => return
    | some block =>
      emit (.block index block.line program.blocks.length)
      statements programs (fun callee => runFrom programs steps callee 0) program block.line
        block.statements
      modify Run.endBlock
      if (← get).control.stopped then return
      else
        match ← takeJump with
        | some (.to target) => runFrom programs steps program target
        | some .back => return
        | none => runFrom programs steps program (index + 1)

end Exec

structure Session where
  state : State := {}
  /-- The programs that an instruction of their name calls. -/
  programs : Table Program := []

structure Outcome where
  events : List Event
  halt : Option Halt

namespace Session

def ofMachine (m : Machine) : Session := { state := { machine := m } }

def addSubprogram (name : String) (p : Program) (s : Session) : Session :=
  { s with programs := s.programs.insert (upper name) p }

/-- Runs a program. The machine state is kept, also after an error. -/
def process (steps : Nat) (p : Program) (s : Session) : Outcome × Session :=
  match Exec.runFrom s.programs steps p 0 { state := s.state } with
  | .ok _ r => (⟨r.events.toList, none⟩, { s with state := r.state })
  | .error halt r => (⟨r.events.toList, some halt⟩, { s with state := r.state })

end Session

end PartProgram
