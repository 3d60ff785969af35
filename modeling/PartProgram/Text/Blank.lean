/-!
# Blanks and white space

Between tokens a blank is a space, a tab or a form feed. White space, which is
cut from the end of a written block, is the whole Unicode property.
-/

set_option autoImplicit false

namespace PartProgram

def isLineEnd (c : Char) : Bool := c == '\r' || c == '\n'

def isBlank (c : Char) : Bool := c == ' ' || c == '\t' || c == '\x0c'

/-- The code points with the property White_Space, as closed ranges. -/
def whiteSpaceRanges : List (Nat × Nat) :=
  [(0x09, 0x0d), (0x20, 0x20), (0x85, 0x85), (0xa0, 0xa0), (0x1680, 0x1680),
   (0x2000, 0x200a), (0x2028, 0x2029), (0x202f, 0x202f), (0x205f, 0x205f), (0x3000, 0x3000)]

def isWhiteSpace (c : Char) : Bool :=
  whiteSpaceRanges.any (fun range => range.1 ≤ c.toNat && c.toNat ≤ range.2)

def trimEnd (s : String) : String :=
  String.ofList (s.toList.reverse.dropWhile isWhiteSpace).reverse

end PartProgram
