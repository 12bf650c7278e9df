set_option autoImplicit false

/-! Numerals for natural numbers in bases of up to sixteen, with the digits of ASCII, and the
numbers that machines hold, which have 64 bits. -/

namespace ClassExpr.Text

def hexDigit? (c : Char) : Option Nat :=
  if c.isDigit then some (c.toNat - '0'.toNat)
  else if 'a' ≤ c && c ≤ 'f' then some (c.toNat - 'a'.toNat + 10)
  else if 'A' ≤ c && c ≤ 'F' then some (c.toNat - 'A'.toNat + 10)
  else none

def digit? (base : Nat) (c : Char) : Option Nat :=
  (hexDigit? c).filter (· < base)

def numeral? (base : Nat) (cs : List Char) : Option Nat :=
  if cs.isEmpty then none
  else cs.foldlM (fun value c => (digit? base c).map (base * value + ·)) 0

def word? (value : Nat) : Option Nat :=
  if value < UInt64.size then some value else none

def dropPlus : List Char → List Char
  | '+' :: cs => cs
  | cs => cs

/-- A number of at most 64 bits in decimal; a plus sign may be in front. -/
def decimal? (text : String) : Option Nat :=
  (numeral? 10 (dropPlus text.toList)).bind word?

end ClassExpr.Text
