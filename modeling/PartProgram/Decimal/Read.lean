import PartProgram.Decimal.Binary
import PartProgram.Decimal.Digits

/-!
# Reading doubles

A number text is an optional sign and then either one of the words for
infinity and for an undefined value, in any case, or decimal digits with an
optional point and an optional exponent. The value is the double nearest to
the number written.
-/

set_option autoImplicit false

namespace PartProgram

/-- The double nearest to `coefficient * 10 ^ exponent`. Beyond four hundred
places the result is zero or infinite whatever the digits are. -/
def realOfDecimal (negative : Bool) (coefficient : Nat) (exponent : Int) : Float :=
  let size := (digits 10 coefficient).length + exponent
  if coefficient = 0 || size < -400 then nearest negative 0 1
  else if size > 400 then infinity negative
  else nearest negative (coefficient * tenTo exponent.toNat) (tenTo (-exponent).toNat)

def readExponent : List Char → Option Int
  | [] => some 0
  | c :: cs =>
    let (negative, body) := splitSign cs
    if c.toUpper = 'E' && body ≠ [] && body.all Char.isDigit then
      some (signed negative (ofDigits 10 body))
    else none

def splitFraction : List Char → List Char × List Char
  | '.' :: cs => (cs.takeWhile Char.isDigit, cs.dropWhile Char.isDigit)
  | cs => ([], cs)

def readDigits (negative : Bool) (cs : List Char) : Option Float :=
  let whole := cs.takeWhile Char.isDigit
  let (fraction, rest) := splitFraction (cs.dropWhile Char.isDigit)
  if whole ++ fraction = [] then none
  else (readExponent rest).map fun exponent =>
    realOfDecimal negative (ofDigits 10 (whole ++ fraction)) (exponent - fraction.length)

def readReal (text : String) : Option Float :=
  let (negative, body) := splitSign text.toList
  let word := String.ofList (body.map Char.toUpper)
  if word = "NAN" then some (0.0 / 0.0)
  else if word = "INF" || word = "INFINITY" then some (infinity negative)
  else readDigits negative body

end PartProgram
