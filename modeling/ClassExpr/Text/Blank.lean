import ClassExpr.Text.Utf8

set_option autoImplicit false

/-! White space. Lexemes are separated by the Unicode property White_Space; the body of a variant
ends at the five ASCII blanks only. -/

namespace ClassExpr.Text

/-- The Unicode property White_Space. -/
def isBlank (c : Char) : Bool :=
  let n := c.toNat
  (0x9 ≤ n && n ≤ 0xD) || n == 0x20 || n == 0x85 || n == 0xA0 || n == 0x1680 ||
    (0x2000 ≤ n && n ≤ 0x200A) || n == 0x2028 || n == 0x2029 || n == 0x202F || n == 0x205F ||
    n == 0x3000

def isAsciiBlank (c : Char) : Bool :=
  c == ' ' || c == '\t' || c == '\n' || c == '\x0C' || c == '\r'

theorem isBlank_of_isAsciiBlank {c : Char} (blank : isAsciiBlank c = true) : isBlank c = true := by
  simp only [isAsciiBlank, Bool.or_eq_true, beq_iff_eq] at blank
  rcases blank with (((rfl | rfl) | rfl) | rfl) | rfl <;> rfl

def skipBlank : Nat → List Char → Nat × List Char
  | offset, [] => (offset, [])
  | offset, c :: cs => if isBlank c then skipBlank (offset + c.utf8Size) cs else (offset, c :: cs)

/-- The first offset from `position` on that is not white space, or `stop`. There is no answer where
the two do not cut the text between characters and in order. -/
def skipBlankRange? (text : String) (position stop : Nat) : Option Nat :=
  if stop ≤ position then some stop
  else
    (slice? text.toList position stop).map (fun cs => (skipBlank position cs).1)

def trimEnd (cs : List Char) : List Char :=
  (cs.reverse.dropWhile isBlank).reverse

end ClassExpr.Text
