/-!
# Powers

The powers that binary and decimal numbers are scaled by.
-/

set_option autoImplicit false

namespace PartProgram

def twoTo (n : Nat) : Nat := Nat.pow 2 n

def fiveTo (n : Nat) : Nat := Nat.pow 5 n

def tenTo (n : Nat) : Nat := Nat.pow 10 n

/-- Signed words of 64 bits lie between minus this limit and one below it. -/
def wordLimit : Nat := twoTo 63

end PartProgram
