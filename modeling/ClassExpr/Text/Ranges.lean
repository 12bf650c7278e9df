set_option autoImplicit false

/-! Tables of code points: ascending, disjoint, closed ranges. -/

namespace ClassExpr.Text

def inRanges : List (Nat × Nat) → Nat → Bool
  | [], _ => false
  | (low, high) :: rest, n => if n < low then false else n ≤ high || inRanges rest n

end ClassExpr.Text
