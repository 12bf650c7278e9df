import ClassExpr.Scope
import ClassExpr.Tree

set_option autoImplicit false

/-! What is under a byte position: the most specific leaf, variant or group that contains it. White
space, comments and positions past the end are under nothing. -/

namespace ClassExpr

structure Hover where
  target : Token
  kind : Kind
  variants : List Token
  important : Bool
  prop : Option Token
  value : Option Token
deriving Repr, DecidableEq

namespace Hover

def region (scope : Scope) (target : Token) (kind : Kind) : Hover :=
  ⟨target, kind, scope.variants, scope.important, none, none⟩

def ofLeaf (scope : Scope) (leaf : Leaf) : Hover :=
  ⟨leaf.target, leaf.kind, scope.variants, scope.important || leaf.important, leaf.prop?,
    leaf.content?⟩

mutual

/-- Finds what contains a position in a node. A variant is not part of its own context; a group is,
and it is found where nothing in it is. -/
def resolve (position : Nat) (scope : Scope) : Node → Option Hover
  | .declaration range children =>
      if range.contains position then resolveFirst position scope children else none
  | .variantSpan range variant none =>
      if range.contains position && variant.range.contains position then
        some (region scope variant.identifier variant.kind)
      else none
  | .variantSpan range variant (some child) =>
      if !range.contains position then none
      else if variant.range.contains position then
        some (region scope variant.identifier variant.kind)
      else resolve position (scope.enter variant) child
  | .group range child _ important =>
      if range.contains position then
        let inner := scope.mark important
        some ((resolve position inner child).getD (region inner range .group))
      else none
  | .leaf leaf => if leaf.range.contains position then some (ofLeaf scope leaf) else none

def resolveFirst (position : Nat) (scope : Scope) : List Node → Option Hover
  | [] => none
  | child :: rest =>
      if child.range.contains position then resolve position scope child
      else resolveFirst position scope rest

end

def atPosition? (settings : Settings) (text : String) (position : Nat) : Option Hover :=
  if text.utf8ByteSize ≤ position then none
  else resolve position {} (Tree.read settings text (some position))

end Hover

end ClassExpr
