import PartProgram.Decimal.Power

/-!
# Digits

Natural numbers as digit strings, and signed integers of 64 bits as written in
program text: an optional sign, then at least one digit.
-/

set_option autoImplicit false

namespace PartProgram

def digits (radix n : Nat) : List Char := Nat.toDigits radix n

def padded (width : Nat) (cs : List Char) : List Char :=
  List.replicate (width - cs.length) '0' ++ cs

def digitValue (c : Char) : Nat :=
  if c.isDigit then c.toNat - '0'.toNat else c.toUpper.toNat - 'A'.toNat + 10

def isDigitOf (radix : Nat) (c : Char) : Bool :=
  (c.isDigit || c.isAlpha) && digitValue c < radix

def ofDigits (radix : Nat) (cs : List Char) : Nat :=
  cs.foldl (fun n c => radix * n + digitValue c) 0

def isWord (n : Int) : Bool := -wordLimit ≤ n && n < wordLimit

def splitSign : List Char → Bool × List Char
  | '+' :: cs => (false, cs)
  | '-' :: cs => (true, cs)
  | cs => (false, cs)

def signed (negative : Bool) (n : Nat) : Int := if negative then -n else n

/-- Reads a signed integer and refuses what does not fit 64 bits. -/
def readInteger (radix : Nat) (cs : List Char) : Option Int :=
  let (negative, body) := splitSign cs
  if body ≠ [] && body.all (isDigitOf radix) then
    let n := signed negative (ofDigits radix body)
    if isWord n then some n else none
  else none

end PartProgram
