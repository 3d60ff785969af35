import PartProgram.Decimal.Power

/-!
# Doubles as integers

A finite double is a natural mantissa times a power of two. This module takes
a double apart into the two, and finds the double nearest to a quotient of
natural numbers. Truncation, the test for a fraction and the remainder of a
division are exact computations on the parts.
-/

set_option autoImplicit false

namespace PartProgram

/-- The absolute value of a double; a finite one is `mantissa * 2 ^ exponent`. -/
inductive Magnitude where
  | finite (mantissa : Nat) (exponent : Int)
  | infinite
  | undefined
deriving DecidableEq

def isNegative (x : Float) : Bool := x.toBits.toNat / twoTo 63 == 1

def magnitude (x : Float) : Magnitude :=
  let field : Nat := x.toBits.toNat / twoTo 52 % twoTo 11
  let fraction : Nat := x.toBits.toNat % twoTo 52
  if field = 2047 then
    if fraction = 0 then .infinite else .undefined
  else if field = 0 then .finite fraction (-1074)
  else .finite (twoTo 52 + fraction) (field - 1075)

def roundDiv (num den : Nat) : Nat :=
  let q := num / den
  let r := num % den
  if 2 * r < den then q else if den < 2 * r then q + 1 else q + q % 2

def floorLog (num den : Nat) : Int :=
  let guess : Int := num.log2 - den.log2
  if den * twoTo guess.toNat ≤ num * twoTo (-guess).toNat then guess else guess - 1

/-- The bits of the double nearest to `num / den`. The mantissa is rounded at
the place of its last bit, and a carry out of it runs into the exponent field,
where it is right. -/
def nearestBits (num den : Nat) : Nat :=
  if num = 0 then 0 else
  let exponent := max (-1074) (floorLog num den - 52)
  let mantissa := roundDiv (num * twoTo (-exponent).toNat) (den * twoTo exponent.toNat)
  min (mantissa + (exponent + 1074).toNat * twoTo 52) (2047 * twoTo 52)

def nearest (negative : Bool) (num den : Nat) : Float :=
  Float.ofBits (UInt64.ofNat ((if negative then twoTo 63 else 0) + nearestBits num den))

def infinity (negative : Bool) : Float := nearest negative (twoTo 1024) 1

def realOfInt (n : Int) : Float := nearest (n < 0) n.natAbs 1

def wholePart? (x : Float) : Option Int :=
  match magnitude x with
  | .finite m e =>
    let n := m * twoTo e.toNat / twoTo (-e).toNat
    some (if isNegative x then -n else n)
  | _ => none

def isWhole (x : Float) : Bool :=
  match magnitude x with
  | .finite m e => m * twoTo e.toNat % twoTo (-e).toNat == 0
  | _ => false

/-- The integer part as a signed number below a limit. A value beyond becomes
the nearest such number, and a value that is no number becomes zero. -/
def saturate (limit : Nat) (x : Float) : Int :=
  match wholePart? x with
  | some n => max (-limit) (min n (limit - 1))
  | none =>
    match magnitude x with
    | .infinite => if isNegative x then -limit else limit - 1
    | _ => 0

def truncate (x : Float) : Int64 := Int64.ofInt (saturate wordLimit x)

def realOfWord (w : Int64) : Float := realOfInt w.toInt

def integral? (x : Float) : Option Int :=
  if isWhole x then (wholePart? x).filter (fun n => n.natAbs < wordLimit) else none

/-- The remainder of the division truncated toward zero; it has the sign of
the dividend. -/
def remainder (x y : Float) : Float :=
  match magnitude x, magnitude y with
  | .finite m e, .finite n f =>
    if n = 0 then 0.0 / 0.0 else
    let unit := min e f
    let r := m * twoTo (e - unit).toNat % (n * twoTo (f - unit).toNat)
    nearest (isNegative x) (r * twoTo unit.toNat) (twoTo (-unit).toNat)
  | .finite .., .infinite => x
  | _, _ => 0.0 / 0.0

def powerLoop : Nat → Nat → Float → Float → Float
  | 0, _, _, result => result
  | steps + 1, n, base, result =>
    let result := if n % 2 = 1 then result * base else result
    if n / 2 = 0 then result else powerLoop steps (n / 2) (base * base) result

def power (base : Float) (n : Int) : Float :=
  let result := powerLoop (n.natAbs.log2 + 1) n.natAbs base 1.0
  if n < 0 then 1.0 / result else result

end PartProgram
