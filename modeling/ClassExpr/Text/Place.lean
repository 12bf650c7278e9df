import ClassExpr.Text.Utf8

set_option autoImplicit false

/-! Lines and columns, both counted from one. A column counts characters, and a line ends with its
line feed. -/

namespace ClassExpr.Text

def endPlace (before : List Char) : Nat × Nat :=
  (before.count '\n' + 1, (before.reverse.takeWhile (· != '\n')).length + 1)

/-- The line and column of an offset. One past the end stands for the end, as does one that lies
inside a character. -/
def place (cs : List Char) (offset : Nat) : Nat × Nat :=
  let (before, _) := splitBytes offset cs
  if byteLength before = offset then endPlace before else endPlace cs

end ClassExpr.Text
