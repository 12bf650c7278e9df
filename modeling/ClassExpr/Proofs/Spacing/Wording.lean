import ClassExpr.Proofs.Spacing.Relation
import ClassExpr.Proofs.Spread

set_option autoImplicit false

/-! What the items of a tree say: their kinds, the texts of their variants and targets, and whether
they are important, but not where they stand. Two trees respace one another if the items of the
second one say what those of the first one do, with their white space replaced. -/

namespace ClassExpr

open Text

/-- What an item says, wherever it stands. -/
structure Wording where
  kind : Kind
  variants : List String
  important : Bool
  target : String
deriving Repr, DecidableEq

def Wording.spaced (wording : Wording) : Wording :=
  { wording with target := wording.target.map Text.spaced }

def Item.wording (item : Item) : Wording :=
  ⟨item.kind, item.variants.map (·.text), item.important, item.target.text⟩

def Scope.Alike (scope other : Scope) : Prop :=
  other.variants.map (·.text) = scope.variants.map (·.text) ∧ other.important = scope.important

namespace Entry

def wordings (scope : Scope) (node : Node) : List Wording :=
  ((gather scope [] node).reverse.filterMap item?).map Item.wording

private theorem wordings_gatherAll (scope : Scope) (nodes : List Node) :
    ((gatherAll scope [] nodes).reverse.filterMap item?).map Item.wording =
      nodes.flatMap (wordings scope) := by
  induction nodes with
  | nil => rfl
  | cons node rest ih =>
      rw [gatherAll, gatherAll_found, List.reverse_append, List.filterMap_append, List.map_append, ih,
        List.flatMap_cons]
      rfl

private theorem wordings_collect (scope : Scope) (offset : Nat) (cs : List Char)
    (nodes : List Node) :
    wordings scope (Tree.collect offset cs nodes) = nodes.flatMap (wordings scope) := by
  rw [wordings, gather_collect, wordings_gatherAll]

private theorem wordings_eq_nil (scope : Scope) {node : Node} (blank : node.isBlank = true) :
    wordings scope node = [] := by
  cases node with
  | declaration range children =>
      obtain rfl : children = [] := List.isEmpty_iff.1 blank
      rfl
  | variantSpan => cases blank
  | group => cases blank
  | leaf => cases blank

private theorem wordings_group (scope : Scope) (range : Token) (child : Node)
    (closed important : Bool) :
    wordings scope (.group range child closed important) =
      if closed then wordings (scope.mark important) child else [] := by
  rw [wordings, gather]
  cases closed with
  | false => rfl
  | true =>
      cases blank : child.isBlank with
      | true => exact (wordings_eq_nil _ blank).symm
      | false => rfl

private theorem wordings_variantSpan_none (scope : Scope) (range : Token) (variant : Variant) :
    wordings scope (.variantSpan range variant none) = [] := by
  rw [wordings, gather]
  cases variant.closed <;> rfl

private theorem wordings_variantSpan (scope : Scope) (range : Token) (variant : Variant)
    (child : Node) :
    wordings scope (.variantSpan range variant (some child)) =
      if variant.closed then wordings (scope.enter variant) child else [] := by
  rw [wordings, gather]
  cases variant.closed with
  | false => rfl
  | true =>
      cases blank : child.isBlank with
      | true => exact (wordings_eq_nil _ blank).symm
      | false => rfl

end Entry

namespace Node

/-- The items of the second tree say what those of the first one do, in scopes that say the same. -/
def Respaced (node other : Node) : Prop :=
  ∀ scope outer : Scope, scope.Alike outer →
    Entry.wordings outer other = (Entry.wordings scope node).map Wording.spaced

def AllRespaced (nodes others : List Node) : Prop :=
  ∀ scope outer : Scope, scope.Alike outer →
    others.flatMap (Entry.wordings outer) =
      (nodes.flatMap (Entry.wordings scope)).map Wording.spaced

theorem AllRespaced.nil : AllRespaced [] [] :=
  fun _ _ _ => rfl

theorem AllRespaced.cons {node other : Node} {nodes others : List Node}
    (first : Respaced node other) (later : AllRespaced nodes others) :
    AllRespaced (node :: nodes) (other :: others) := by
  intro scope outer alike
  rw [List.flatMap_cons, List.flatMap_cons, List.map_append, first scope outer alike,
    later scope outer alike]

theorem AllRespaced.collect {nodes others : List Node} (same : AllRespaced nodes others)
    (offset offset' : Nat) (cs cs' : List Char) :
    Respaced (Tree.collect offset cs nodes) (Tree.collect offset' cs' others) := by
  intro scope outer alike
  rw [Entry.wordings_collect, Entry.wordings_collect]
  exact same scope outer alike

theorem respaced_leaf {leaf other : Leaf}
    (closed : (leaf.closed && leaf.opacity?.all (·.closed)) = true)
    (closed' : (other.closed && other.opacity?.all (·.closed)) = true)
    (kind : other.kind = leaf.kind) (important : other.important = leaf.important)
    (target : other.target.text = leaf.target.text.map spaced) :
    Respaced (.leaf leaf) (.leaf other) := by
  intro scope outer alike
  obtain ⟨variants, marked⟩ := alike
  rw [Entry.wordings, Entry.wordings, Entry.gather, Entry.gather, Entry.ofLeaf, Entry.ofLeaf,
    closed, closed']
  simp [Entry.item?, Item.wording, Wording.spaced, kind, important, target, variants, marked]

theorem respaced_open (range range' : Token) (child child' : Node) (important : Bool) :
    Respaced (.group range child false important) (.group range' child' false important) := by
  intro scope outer _
  rw [Entry.wordings_group, Entry.wordings_group]
  rfl

theorem Respaced.group {child child' : Node} (same : Respaced child child') (range range' : Token)
    (important : Bool) :
    Respaced (.group range child true important) (.group range' child' true important) := by
  intro scope outer alike
  rw [Entry.wordings_group, Entry.wordings_group]
  exact same _ _ ⟨alike.1, by rw [Scope.mark, Scope.mark, alike.2]⟩

theorem respaced_childless (range range' : Token) (variant variant' : Variant) :
    Respaced (.variantSpan range variant none) (.variantSpan range' variant' none) := by
  intro scope outer _
  rw [Entry.wordings_variantSpan_none, Entry.wordings_variantSpan_none]
  rfl

theorem Respaced.variantSpan {child child' : Node} (same : Respaced child child')
    {variant variant' : Variant} (closed : variant'.closed = variant.closed)
    (named : variant'.identifier.text = variant.identifier.text) (range range' : Token) :
    Respaced (.variantSpan range variant (some child))
      (.variantSpan range' variant' (some child')) := by
  intro scope outer alike
  rw [Entry.wordings_variantSpan, Entry.wordings_variantSpan, closed]
  split
  · refine same _ _ ⟨?_, alike.2⟩
    simp only [Scope.enter, List.map_append, List.map_cons, List.map_nil, alike.1, named]
  · rfl

end Node

end ClassExpr
