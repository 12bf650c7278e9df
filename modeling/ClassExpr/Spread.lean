import ClassExpr.Scope
import ClassExpr.Tree

set_option autoImplicit false

/-! Flattening of an expression: one item for each complete leaf, with its variants and
its importance, and one fault for each region that is broken or empty. -/

namespace ClassExpr

structure Item where
  target : Token
  kind : Kind
  variants : List Token
  important : Bool
  prop : Option Token
  content : Option Token
  opacity : Option Token
deriving Repr, DecidableEq

structure Fault where
  target : Token
  kind : Kind
  variants : List Token
  important : Bool
deriving Repr, DecidableEq

inductive Entry where
  | item (item : Item)
  | notClosed (fault : Fault)
  | emptyGroup (fault : Fault)
  | emptyVariants (fault : Fault)
deriving Repr, DecidableEq

namespace Entry

def item? : Entry → Option Item
  | .item value => some value
  | _ => none

def notClosed? : Entry → Option Fault
  | .notClosed region => some region
  | _ => none

def emptyGroup? : Entry → Option Fault
  | .emptyGroup region => some region
  | _ => none

def emptyVariants? : Entry → Option Fault
  | .emptyVariants region => some region
  | _ => none

def ofLeaf (scope : Scope) (leaf : Leaf) : Entry :=
  let important := scope.important || leaf.important
  if leaf.closed && leaf.opacity?.all (·.closed) then
    .item ⟨leaf.target, leaf.kind, scope.variants, important, leaf.prop?, leaf.content?,
      leaf.opacity?.map (·.value)⟩
  else .notClosed ⟨leaf.target, leaf.kind, scope.variants, important⟩

def fault (scope : Scope) (target : Token) (kind : Kind) : Fault :=
  ⟨target, kind, scope.variants, scope.important⟩

mutual

/-- Puts the entries of a node in front of those already found, the last one first. -/
def gather (scope : Scope) (found : List Entry) : Node → List Entry
  | .declaration _ children => gatherAll scope found children
  | .variantSpan range variant none =>
      (if variant.closed then .emptyVariants (fault scope variant.range variant.kind)
        else .notClosed (fault scope range variant.kind)) :: found
  | .variantSpan range variant (some child) =>
      if !variant.closed then .notClosed (fault scope range variant.kind) :: found
      else if child.isBlank then .emptyVariants (fault scope variant.range variant.kind) :: found
      else gather (scope.enter variant) found child
  | .group range child closed important =>
      let inner := scope.mark important
      if !closed then .notClosed (fault inner range .group) :: found
      else if child.isBlank then .emptyGroup (fault inner range .group) :: found
      else gather inner found child
  | .leaf leaf => ofLeaf scope leaf :: found

def gatherAll (scope : Scope) (found : List Entry) : List Node → List Entry
  | [] => found
  | child :: rest => gatherAll scope (gather scope found child) rest

end

end Entry

structure Spread where
  items : List Item
  emptyGroup : List Fault
  emptyVariants : List Fault
  notClosed : List Fault
deriving Repr, DecidableEq

namespace Spread

def ofEntries (entries : List Entry) : Spread :=
  { items := entries.filterMap Entry.item?
    emptyGroup := entries.filterMap Entry.emptyGroup?
    emptyVariants := entries.filterMap Entry.emptyVariants?
    notClosed := entries.filterMap Entry.notClosed? }

def ofNode (node : Node) : Spread :=
  ofEntries (Entry.gather {} [] node).reverse

def ofText (settings : Settings) (text : String) : Spread :=
  ofNode (Tree.read settings text none)

def hasFaults (spread : Spread) : Bool :=
  !spread.emptyGroup.isEmpty || !spread.emptyVariants.isEmpty || !spread.notClosed.isEmpty

def unknown (spread : Spread) : List Item :=
  spread.items.filter (·.kind == .unknown)

end Spread

end ClassExpr
