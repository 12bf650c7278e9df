import ClassExpr.Node

set_option autoImplicit false

/-! The context of a node: the identifiers of the variants around it, outermost first, and whether a
group around it is marked as important. -/

namespace ClassExpr

structure Scope where
  variants : List Token := []
  important : Bool := false
deriving Repr, DecidableEq

namespace Scope

def enter (scope : Scope) (variant : Variant) : Scope :=
  { scope with variants := scope.variants ++ [variant.identifier] }

def mark (scope : Scope) (important : Bool) : Scope :=
  { scope with important := scope.important || important }

end Scope

end ClassExpr
