import PartProgram.ReadError
import PartProgram.Text.Blank
import PartProgram.Token

/-!
# Scanning

One step of scanning skips blanks and takes one token from the front of the
text. What is left is always a rest of the text, so a scan moves forward only.
A scanning error says how far the text was consumed when it arose.
-/

set_option autoImplicit false

namespace PartProgram

/-- What a step of scanning finds. -/
inductive Scan where
  /-- Only blanks are left. -/
  | finished
  | token (t : Token) (line : Nat) (rest : List Char)
  | fault (cause : ReadCause) (rest : List Char)
deriving DecidableEq

inductive Lexeme where
  | found (kind : TokenKind) (text rest : List Char)
  | fault (cause : ReadCause) (rest : List Char)
deriving DecidableEq

namespace Scan

def isNameChar (c : Char) : Bool := c.isAlpha || c == '_' || c == '$'

def isOperatorChar (c : Char) : Bool := ['*', '/', '+', '-', '<', '>', '='].contains c

def joins (a b : Char) : Bool :=
  [('<', '<'), ('<', '='), ('<', '>'), ('>', '='), ('=', '=')].contains (a, b)

def operatorNames : List String :=
  ["NOT", "B_NOT", "DIV", "MOD", "B_AND", "B_XOR", "B_OR", "AND", "XOR", "OR"]

def isEx (a b : Char) : Bool := a.toUpper == 'E' && b.toUpper == 'X'

/-- Cuts a name from a run of name characters and digits. A digit does not
follow a single letter, which makes `N100` a letter and a number, and it does
not follow `EX`, which introduces the exponent of a number. -/
def cutName : List Char → List Char
  | a :: b :: c :: cs =>
    if b.isDigit then [a]
    else if isEx a b && c.isDigit then [a, b]
    else a :: b :: c :: cs
  | [a, b] => if b.isDigit then [a] else [a, b]
  | cs => cs

def name (cs : List Char) : Lexeme :=
  let text := cutName (cs.takeWhile (fun c => isNameChar c || c.isDigit))
  let kind := if operatorNames.any (sameLetters (String.ofList text)) then
    TokenKind.operator else .identifier
  .found kind text (cs.drop text.length)

def number (cs : List Char) : Lexeme :=
  let whole := cs.takeWhile Char.isDigit
  match cs.dropWhile Char.isDigit with
  | '.' :: rest =>
    match rest.dropWhile Char.isDigit with
    | '.' :: beyond => .fault .tooManyPoints ('.' :: beyond)
    | beyond => .found .number (whole ++ '.' :: rest.takeWhile Char.isDigit) beyond
  | rest => .found .number whole rest

def delimited (kind : TokenKind) (delimiter : Char) (cause : ReadCause) (cs : List Char) :
    Lexeme :=
  let inside := fun c => !isLineEnd c && c != delimiter
  match cs.dropWhile inside with
  | c :: rest =>
    if c == delimiter then .found kind (cs.takeWhile inside) rest
    else .fault cause (c :: rest)
  | [] => .fault cause []

def atLineEnd : List Char → Bool
  | [] => true
  | c :: _ => isLineEnd c

/-- A comment up to a closing parenthesis or the line end. Blanks behind the
parenthesis belong to it; anything else there is an error. -/
def braceComment (cs : List Char) : Lexeme :=
  let inside := fun c => !isLineEnd c && c != ')'
  match cs.dropWhile inside with
  | ')' :: rest =>
    let beyond := rest.dropWhile isBlank
    if atLineEnd beyond then .found .comment (cs.takeWhile inside) beyond
    else .fault .textAfterComment beyond
  | rest => .found .comment (cs.takeWhile inside) rest

def lineComment (cs : List Char) : Lexeme :=
  .found .comment (cs.takeWhile (fun c => !isLineEnd c)) (cs.dropWhile (fun c => !isLineEnd c))

def operator (c : Char) : List Char → Lexeme
  | next :: rest =>
    if joins c next then .found .operator [c, next] rest
    else .found .operator [c] (next :: rest)
  | [] => .found .operator [c] []

def lineEnd (c : Char) : List Char → Lexeme
  | next :: rest =>
    if c == '\r' && next == '\n' then .found .newLine [c, next] rest
    else .found .newLine [c] (next :: rest)
  | [] => .found .newLine [c] []

def lexeme (d : Dialect) (c : Char) (cs : List Char) : Lexeme :=
  if isLineEnd c then lineEnd c cs
  else if c == ';' && d.lineComments then lineComment cs
  else if c == '(' && d.braceComments then braceComment cs
  else if isNameChar c then name (c :: cs)
  else if c == '\x27' then delimited .number c .unterminatedConstant cs
  else if c.isDigit || c == '.' then number (c :: cs)
  else if c == '\x22' then delimited .string c .unterminatedString cs
  else if c == ',' then .found .separator [c] cs
  else if c == ':' then .found .colon [c] cs
  else if c == '(' || c == ')' then .found .brace [c] cs
  else if c == '[' || c == ']' then .found .fieldBrace [c] cs
  else if isOperatorChar c then operator c cs
  else .fault (.invalidCharacter c) (c :: cs)

def next (d : Dialect) (line : Nat) (cs : List Char) : Scan :=
  match cs.dropWhile isBlank with
  | [] => .finished
  | c :: rest =>
    match lexeme d c rest with
    | .fault cause beyond => .fault cause beyond
    | .found kind text beyond =>
      .token ⟨kind, String.ofList text, isBlank (cs.headD c), line⟩
        (if kind = .newLine then line + 1 else line) beyond

end Scan

structure Scanned where
  tokens : List Token
  fault : Option ReadError
  line : Nat
deriving DecidableEq

namespace Scanned

/-- Scans a text of at most the given number of characters; every step takes
one of them at least. -/
def upTo (d : Dialect) : Nat → Nat → List Char → Scanned
  | 0, line, _ => ⟨[], none, line⟩
  | bound + 1, line, cs =>
    match Scan.next d line cs with
    | .finished => ⟨[], none, line⟩
    | .fault cause _ => ⟨[], some ⟨line, cause⟩, line⟩
    | .token t line rest =>
      let behind := upTo d bound line rest
      ⟨t :: behind.tokens, behind.fault, behind.line⟩

end Scanned

def tokenize (d : Dialect) (text : String) : Scanned :=
  Scanned.upTo d text.toList.length 1 text.toList

end PartProgram
