import PartProgram.Decimal.Read
import PartProgram.Token

/-!
# Values of number tokens

A number is decimal unless its text begins with `H` or `B`, which a quoted
constant may: these are hexadecimal and binary integers, and blanks among
their digits do not count.
-/

set_option autoImplicit false

namespace PartProgram

inductive Radix where
  | decimal | hex | binary
deriving DecidableEq

def Radix.ofMark (c : Char) : Radix :=
  if c.toUpper = 'H' then .hex else if c.toUpper = 'B' then .binary else .decimal

def shiftBit (word : Int64) (c : Char) : Option Int64 :=
  if c = '0' then some (word <<< 1)
  else if c = '1' then some ((word <<< 1) + 1)
  else if c = ' ' then some word
  else none

/-- Binary digits of any number; the word keeps the last 64 of them. -/
def readBinary (cs : List Char) : Option Int64 := cs.foldlM shiftBit 0

def integerText? : List Char → Option Int
  | [] => none
  | c :: cs =>
    match Radix.ofMark c with
    | .hex => readInteger 16 (cs.filter (· ≠ ' '))
    | .binary => (readBinary cs).map Int64.toInt
    | .decimal => readInteger 10 (c :: cs)

namespace Token

def integer? (t : Token) : Option Int :=
  if t.kind = .number then integerText? t.text.toList else none

def number? (t : Token) : Option Float :=
  if t.kind = .number then
    match t.text.toList with
    | [] => none
    | c :: _ =>
      match Radix.ofMark c with
      | .decimal => readReal t.text
      | _ => t.integer?.map realOfInt
  else none

end Token

end PartProgram
