/-!
# Errors of reading

An error names its cause and the line in which reading stopped. Most causes
carry the text of the token at which it stopped; at a line end that text is
empty.
-/

set_option autoImplicit false

namespace PartProgram

inductive ErrorCategory where
  | lexical | syntactic | semantic
deriving DecidableEq

inductive ReadCause where
  | invalidCharacter (c : Char)
  | unterminatedString
  | unterminatedConstant
  | tooManyPoints
  | textAfterComment
  | unexpectedLineEnd
  | expectedOperand (found : String)
  | invalidNumber (found : String)
  | expectedNumber (found : String)
  | expectedInteger (found : String)
  | expectedBinaryOperator (found : String)
  | expectedClosingBracket (found : String)
  | expectedClosingFieldBrace (found : String)
  | expectedLineEnd (found : String)
  | expectedVariableType (found : String)
  | expectedVariableName (found : String)
  | expectedAssignment
  | unexpectedFieldBraces
  | expectedAssignmentOrInstruction
  | expectedToKeyword
  | expectedBlockNumber
deriving DecidableEq

structure ReadError where
  line : Nat
  cause : ReadCause
deriving DecidableEq

def quoted (text : String) : String := "'" ++ text ++ "'"

def lineMessage (line : Nat) (message : String) : String :=
  "error in line " ++ toString line ++ ": " ++ message

namespace ReadCause

def category : ReadCause → ErrorCategory
  | invalidCharacter _ | unterminatedString | unterminatedConstant
  | tooManyPoints | textAfterComment => .lexical
  | _ => .syntactic

def message : ReadCause → String
  | invalidCharacter c => "invalid character " ++ quoted (String.singleton c)
  | unterminatedString => "string does not end"
  | unterminatedConstant => "number constant does not end"
  | tooManyPoints => "invalid number with too many decimal points"
  | textAfterComment => "extra characters after brace comment"
  | unexpectedLineEnd => "unexpected end of line or file"
  | expectedOperand found => "expected operand but found " ++ quoted found
  | invalidNumber found => "invalid number " ++ quoted found
  | expectedNumber found => "expected number but found " ++ quoted found
  | expectedInteger found => "expected integer number but found " ++ quoted found
  | expectedBinaryOperator found => "expected binary operator but found " ++ quoted found
  | expectedClosingBracket found => "expected closing bracket but found " ++ quoted found
  | expectedClosingFieldBrace found =>
    "expected closing field brace ']' but found " ++ quoted found
  | expectedLineEnd found => "expected line end but found " ++ quoted found
  | expectedVariableType found => "expected variable type but found " ++ quoted found
  | expectedVariableName found => "expected variable name but found " ++ quoted found
  | expectedAssignment => "expected assignment but found instruction"
  | unexpectedFieldBraces =>
    "expected explicit assignment for variable with field braces '[]'"
  | expectedAssignmentOrInstruction =>
    "expected assignment or instruction but found expression"
  | expectedToKeyword => "missing 'TO' keyword in FOR statement"
  | expectedBlockNumber => "expected block number but found expression"

end ReadCause

namespace ReadError

def category (e : ReadError) : ErrorCategory := e.cause.category

def message (e : ReadError) : String := lineMessage e.line e.cause.message

end ReadError

end PartProgram
