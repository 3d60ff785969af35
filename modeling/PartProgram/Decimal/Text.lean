import PartProgram.Decimal.Binary
import PartProgram.Decimal.Digits

/-!
# Decimal text of doubles

A double is an exact decimal fraction. It is written with the fewest digits
that read back as the same double, or with a fixed number of places. Either
form is positional: there is never an exponent.
-/

set_option autoImplicit false

namespace PartProgram

/-- The number `coefficient / 10 ^ places`. -/
structure Decimal where
  coefficient : Nat
  places : Nat
deriving DecidableEq

namespace Decimal

def ofBinary (mantissa : Nat) (exponent : Int) : Decimal :=
  ⟨mantissa * twoTo exponent.toNat * fiveTo (-exponent).toNat, (-exponent).toNat⟩

def reaches (closed : Bool) (a b : Nat) : Bool :=
  if closed then a ≤ b else a < b

/-- The multiple of the highest power of ten up to `10 ^ p` that lies between
`low` and `high`, the ends included if `closed`. Of the two neighbours of `mid`
the nearer one is taken, and the upper one if they are equally near. -/
def coarsest (low mid high : Nat) (closed : Bool) : Nat → Nat
  | 0 => mid
  | p + 1 =>
    let down := mid / tenTo (p + 1) * tenTo (p + 1)
    let up := down + tenTo (p + 1)
    if reaches closed low down then
      if reaches closed up high && up - mid ≤ mid - down then up else down
    else if reaches closed up high then up
    else coarsest low mid high closed p

/-- The decimal with the fewest digits that lies nearer to the double
`mantissa * 2 ^ exponent` than to any other. The double's neighbours are one
unit of its last bit away, and half of that below a power of two; quarters of
the unit make all bounds integers. An end of the interval rounds to the double
if the mantissa is even. -/
def shortest (mantissa : Nat) (exponent : Int) : Decimal :=
  let below := if mantissa = twoTo 52 && exponent > -1074 then 1 else 2
  let low := ofBinary (4 * mantissa - below) (exponent - 2)
  let mid := ofBinary (4 * mantissa) (exponent - 2)
  let high := ofBinary (4 * mantissa + 2) (exponent - 2)
  let closed := mantissa % 2 == 0
  ⟨coarsest low.coefficient mid.coefficient high.coefficient closed
    ((digits 10 mid.coefficient).length - 1), mid.places⟩

def roundTo (places : Nat) (d : Decimal) : Decimal :=
  ⟨roundDiv (d.coefficient * tenTo places) (tenTo d.places), places⟩

def whole (d : Decimal) : List Char := digits 10 (d.coefficient / tenTo d.places)

def fraction (d : Decimal) : List Char :=
  if d.places = 0 then [] else padded d.places (digits 10 (d.coefficient % tenTo d.places))

def layout (whole fraction : List Char) : List Char :=
  if fraction = [] then whole else whole ++ '.' :: fraction

def fixedText (d : Decimal) : List Char := layout d.whole d.fraction

def briefText (d : Decimal) : List Char :=
  layout d.whole (d.fraction.reverse.dropWhile (· == '0')).reverse

end Decimal

def signedText (x : Float) (finite : Nat → Int → List Char) : String :=
  let sign := if isNegative x then ['-'] else []
  match magnitude x with
  | .finite m e => String.ofList (sign ++ finite m e)
  | .infinite => String.ofList (sign ++ ['i', 'n', 'f'])
  | .undefined => "NaN"

def realText (x : Float) : String :=
  signedText x (fun m e => (Decimal.shortest m e).briefText)

def placesText (places : Nat) (x : Float) : String :=
  signedText x (fun m e => ((Decimal.ofBinary m e).roundTo places).fixedText)

end PartProgram
