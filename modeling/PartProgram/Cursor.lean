import PartProgram.Token.Scan
import PartProgram.Token.Value

/-!
# Reading position

Reading holds one token ahead of the unread text. An error leaves the position
where it arose: a failed step keeps the token that was held before, and the
unread text begins where scanning stopped. Reading can therefore go on after
an error.
-/

set_option autoImplicit false

namespace PartProgram

structure Cursor where
  unread : List Char
  /-- The line of the first unread character. -/
  line : Nat
  /-- The token at which reading stands; none before the first and at the end. -/
  held : Option Token
deriving DecidableEq

namespace Cursor

def ofText (text : String) : Cursor := ⟨text.toList, 1, none⟩

def size (c : Cursor) : Nat := c.unread.length + (if c.held.isSome then 1 else 0)

/-- As many characters as are still to be read. Readers that repeat or nest
recurse on it, since every round takes a token at least. -/
def ahead (c : Cursor) : List Char := if c.held.isSome then ' ' :: c.unread else c.unread

theorem ahead_length (c : Cursor) : c.ahead.length = c.size := by
  by_cases h : c.held.isSome = true <;> simp [ahead, size, h]

def errorLine (c : Cursor) : Nat := (c.held.map Token.line).getD c.line

def found (c : Cursor) : String :=
  match c.held with
  | some t => if t.kind = .newLine then "" else t.text
  | none => ""

def atLineEnd (c : Cursor) : Bool :=
  match c.held with
  | some t => t.kind == .newLine || t.kind == .comment
  | none => true

def holds (kind : TokenKind) (text : String) (c : Cursor) : Bool :=
  c.held.any (Token.is kind text)

def holdsKeyword (word : String) (c : Cursor) : Bool :=
  c.held.any (Token.isKeyword word)

end Cursor

/-- A reader moves the position and yields a value or an error. -/
abbrev Reader (α : Type) : Type := EStateM ReadError Cursor α

namespace Reader

theorem run_get {α : Type} (f : Cursor → Reader α) (c : Cursor) :
    ((get : Reader Cursor) >>= f) c = f c c := rfl

theorem run_pure {α : Type} (a : α) (c : Cursor) : (pure a : Reader α) c = .ok a c := rfl

theorem run_bind {α β : Type} (p : Reader α) (f : α → Reader β) (c : Cursor) :
    (p >>= f) c = match p c with
      | .ok a after => f a after
      | .error e after => .error e after := by
  simp only [bind, EStateM.bind]
  cases p c <;> rfl

theorem run_map {α β : Type} (f : α → β) (p : Reader α) (c : Cursor) :
    (f <$> p) c = match p c with
      | .ok a after => .ok (f a) after
      | .error e after => .error e after := by
  simp only [Functor.map, EStateM.map]
  cases p c <;> rfl

theorem ok_bind {α β : Type} {p : Reader α} {f : α → Reader β} {c after : Cursor} {b : β}
    (h : (p >>= f) c = .ok b after) : ∃ a mid, p c = .ok a mid ∧ f a mid = .ok b after := by
  rw [run_bind] at h
  cases hp : p c with
  | ok a mid => exact ⟨a, mid, rfl, by simpa [hp] using h⟩
  | error e mid => simp [hp] at h

theorem ok_map {α β : Type} {f : α → β} {p : Reader α} {c after : Cursor} {b : β}
    (h : (f <$> p) c = .ok b after) : ∃ a, p c = .ok a after ∧ f a = b := by
  rw [run_map] at h
  cases hp : p c with
  | ok a mid =>
    rw [hp] at h
    cases h
    exact ⟨a, rfl, rfl⟩
  | error e mid => simp [hp] at h

def failWith {α : Type} (cause : String → ReadCause) : Reader α :=
  fun c => .error ⟨c.errorLine, cause c.found⟩ c

def fail {α : Type} (cause : ReadCause) : Reader α := failWith (fun _ => cause)

/-- Holds the next token; none at the end of the text. -/
def advance (d : Dialect) : Reader Unit := fun c =>
  match Scan.next d c.line c.unread with
  | .finished => .ok () { c with unread := [], held := none }
  | .token t line rest => .ok () ⟨rest, line, some t⟩
  | .fault cause rest => .error ⟨c.line, cause⟩ { c with unread := rest }

def accept (d : Dialect) (kind : TokenKind) (text : String) : Reader Bool := do
  if (← get).holds kind text then
    advance d
    return true
  else return false

def acceptKeyword (d : Dialect) (word : String) : Reader Bool := do
  if (← get).holdsKeyword word then
    advance d
    return true
  else return false

def expect (d : Dialect) (kind : TokenKind) (text : String) (cause : String → ReadCause) :
    Reader Unit := do
  if (← get).holds kind text then advance d else failWith cause

def expectMore : Reader Unit := do
  if (← get).atLineEnd then fail .unexpectedLineEnd

def integer (d : Dialect) : Reader Int := do
  match (← get).held.bind Token.integer? with
  | some n =>
    advance d
    return n
  | none => failWith .expectedInteger

def natural (d : Dialect) : Reader Nat := do
  match (← get).held.bind Token.integer? with
  | some n =>
    if 0 ≤ n && n < twoTo 32 then
      advance d
      return n.toNat
    else failWith .expectedInteger
  | none => failWith .expectedInteger

/-- Digits that follow a one-letter name without a blank belong to the name, as
in `R1`. -/
def gluedDigits (d : Dialect) (name : String) : Reader String := do
  match (← get).held with
  | some t =>
    if name.utf8ByteSize = 1 && !t.spaced && t.isDecimal && !t.text.toList.contains '.' then
      advance d
      return name ++ t.text
    else return name
  | none => return name

end Reader

end PartProgram
