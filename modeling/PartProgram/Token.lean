import PartProgram.Text.Letter

/-!
# Tokens

A token is the smallest piece of program text with a meaning of its own. Line
ends are tokens too, so that empty lines count. A comment, a string and a quoted
number constant hold their content without the delimiters.
-/

set_option autoImplicit false

namespace PartProgram

/-- Which forms a program text may use. -/
structure Dialect where
  /-- A semicolon starts a comment that runs to the line end. -/
  lineComments : Bool := true
  /-- A parenthesis starts a comment, and nothing may follow its end. -/
  braceComments : Bool := false
  /-- A G code may take arguments in field braces. -/
  gcodeArguments : Bool := false
  /-- A string that stands alone is an instruction. -/
  stringInstructions : Bool := false
deriving DecidableEq

inductive TokenKind where
  | newLine | comment | identifier | number | string | operator
  | fieldBrace | brace | separator | colon
deriving DecidableEq

structure Token where
  kind : TokenKind
  text : String
  /-- Blanks stand in front of the token. -/
  spaced : Bool
  /-- The line on which the token starts, counted from one. -/
  line : Nat
deriving DecidableEq

namespace Token

def is (kind : TokenKind) (text : String) (t : Token) : Bool :=
  t.kind == kind && t.text == text

def isKeyword (word : String) (t : Token) : Bool :=
  t.kind == .identifier && sameLetters t.text word

def isDecimal (t : Token) : Bool :=
  t.kind == .number && (t.text.toList.head?.map Char.isDigit).getD false

end Token

end PartProgram
