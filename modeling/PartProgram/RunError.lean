import PartProgram.Decimal.Text
import PartProgram.ReadError
import PartProgram.Statement

/-!
# Errors of running

An error of running has a cause and the line of the block in which it arose. If
that block belongs to a subprogram, the error also tells the calls that led
there, the outermost first.
-/

set_option autoImplicit false

namespace PartProgram

inductive RunCause where
  | unknownVariable (name : String)
  | unknownTarget (target : String)
  | invalidTarget (target : String)
  | unsupportedFlow (keyword : FlowKeyword)
  | strayBranch
  | unexpectedArguments (name : String)
  | invalidCondition
  | expectedNumber (found : String)
  | unsupportedFunction (name : String)
  | divisionByZero
deriving DecidableEq

/-- A subprogram call that had not ended, by the line of the calling block and
the name as written there. -/
structure OpenCall where
  line : Nat
  name : String
deriving DecidableEq

structure RunError where
  calls : List OpenCall := []
  line : Nat
  cause : RunCause
deriving DecidableEq

def RunCause.message : RunCause → String
  | unknownVariable name => "unknown variable " ++ quoted name
  | unknownTarget target => "unable to find goto target " ++ quoted target
  | invalidTarget target => "invalid goto target " ++ quoted target
  | unsupportedFlow keyword => "unsupported flow-control instruction " ++ quoted keyword.word
  | strayBranch => "non-matching IF/ELSE/ENDIF"
  | unexpectedArguments name => "unexpected arguments in call to subprogram " ++ quoted name
  | invalidCondition => "invalid conditional expression"
  | expectedNumber found => "expected number in expression but found " ++ quoted found
  | unsupportedFunction name => "function " ++ quoted name ++ " cannot be evaluated"
  | divisionByZero => "division by zero attempted"

namespace RunError

def within (line : Nat) (name : String) (e : RunError) : RunError :=
  { e with calls := ⟨line, name⟩ :: e.calls }

def root (e : RunError) : RunError := { e with calls := [] }

def outerLine (e : RunError) : Nat := (e.calls.head?.map OpenCall.line).getD e.line

def message (e : RunError) : String :=
  e.calls.foldr (fun call inner =>
    lineMessage call.line ("in subprogram " ++ quoted call.name ++ ": " ++ inner))
    (lineMessage e.line e.cause.message)

def category (_ : RunError) : ErrorCategory := .semantic

end RunError

end PartProgram
