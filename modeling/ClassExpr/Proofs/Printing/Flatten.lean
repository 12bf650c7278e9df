import ClassExpr.Proofs.Printing.Syntax
import ClassExpr.Proofs.Spread

set_option autoImplicit false

/-! The tree of a printed phrase, said from the phrase alone. Flattening it gives the items of the
phrase and nothing else. -/

namespace ClassExpr.Printing

open Text

def Strength.opacity (offset : Nat) (strength : Strength) : Opacity :=
  { range := .ofChars offset strength.print
    value := strength.token offset
    bracketed := match strength with
      | .number _ => false
      | .bracket _ => true
    closed := true }

def Utility.leaf (offset : Nat) (range : Token) (important : Bool) (utility : Utility) : Leaf :=
  let target := Token.ofChars offset utility.print
  let prop := utility.prop?.getD []
  let content (value : Value) := Token.ofChars (offset + byteLength prop + 1) value.chars
  match utility with
  | .className _ => .className range target important
  | .property _ value =>
      .cssProperty range target (.ofChars offset prop) (content value) true important
  | .style stem value strength =>
      .arbitraryStyle range target (.ofChars offset prop) (content value) true important
        (strength.map
          (Strength.opacity (offset + byteLength (bracketed (stem.chars ++ ['-']) value))))
  | .slashed _ value =>
      .arbitraryStyle range target (.ofChars offset prop) (content value) true important none
  | .bare value => .arbitraryProperty range target (content value) true important

def Atom.leaf (offset : Nat) (atom : Atom) : Leaf :=
  atom.utility.leaf (offset + byteLength (mark atom.leading)) (.ofChars offset atom.print)
    (atom.leading || atom.trailing)

def bracketVariant (offset : Nat) (stem : List Char) (value : Value) : Variant :=
  let identifier := bracketed stem value
  .bracket
    { range := .ofChars offset (identifier ++ [':'])
      identifier := .ofChars offset identifier
      stem := .ofChars offset stem
      content := .ofChars (offset + byteLength stem + 1) value.chars
      separator := some (.ofChars (offset + byteLength identifier) [':'])
      closed := true }

def Modifier.variant (offset : Nat) : Modifier → Variant
  | .named name =>
      .named
        { range := .ofChars offset (name.chars ++ [':'])
          identifier := .ofChars offset name.chars
          separator := .ofChars (offset + byteLength name.chars) [':'] }
  | .bare value => bracketVariant offset [] value
  | .styled stem value => bracketVariant offset (stem.chars ++ ['-']) value

mutual

def Phrase.node (offset : Nat) : Phrase → Node
  | .atom atom => .leaf (atom.leaf offset)
  | .modified modifier body =>
      .variantSpan (.ofChars offset (modifier.print ++ body.print)) (modifier.variant offset)
        (some (body.node (offset + byteLength modifier.print)))
  | .group leading inside trailing =>
      let start := offset + byteLength (mark leading) + 1
      .group (.ofChars offset (mark leading ++ '(' :: inside.print ++ ')' :: mark trailing))
        (Tree.collect start inside.print (inside.nodes start)) true (leading || trailing)

def Phrases.nodes (offset : Nat) : Phrases → List Node
  | .one phrase => [phrase.node offset]
  | .more phrase gap rest =>
      phrase.node offset ::
        rest.nodes (offset + byteLength phrase.print + byteLength gap.chars)

end

theorem Modifier.closed_variant (offset : Nat) (modifier : Modifier) :
    (modifier.variant offset).closed = true := by
  cases modifier <;> rfl

private theorem Modifier.identifier_variant (offset : Nat) (modifier : Modifier) :
    (modifier.variant offset).identifier = .ofChars offset modifier.identifier := by
  cases modifier <;> rfl

theorem Modifier.range_variant (offset : Nat) (modifier : Modifier) :
    (modifier.variant offset).range = .ofChars offset modifier.print := by
  cases modifier <;> rfl

private theorem Utility.range_leaf (offset : Nat) (range : Token) (important : Bool)
    (utility : Utility) :
    (utility.leaf offset range important).range = range := by
  cases utility <;> rfl

theorem Phrase.range_node (offset : Nat) (phrase : Phrase) :
    (phrase.node offset).range = .ofChars offset phrase.print := by
  cases phrase with
  | atom atom =>
      rw [Phrase.node, Phrase.print]
      exact Utility.range_leaf _ _ _ _
  | modified modifier body =>
      rw [Phrase.node, Phrase.print]
      rfl
  | group leading inside trailing =>
      rw [Phrase.node, Phrase.print]
      rfl

private theorem Phrase.isBlank_node (offset : Nat) (phrase : Phrase) :
    (phrase.node offset).isBlank = false := by
  cases phrase <;> rw [Phrase.node] <;> rfl

private theorem Phrases.isBlank_collect (offset start : Nat) (cs : List Char) (phrases : Phrases) :
    (Tree.collect start cs (phrases.nodes offset)).isBlank = false := by
  cases phrases with
  | one phrase =>
      rw [Phrases.nodes]
      exact phrase.isBlank_node offset
  | more phrase gap rest =>
      cases rest <;> rw [Phrases.nodes, Phrases.nodes] <;> rfl

theorem Atom.ofLeaf (scope : Scope) (offset : Nat) (atom : Atom) :
    Entry.ofLeaf scope (atom.leaf offset) =
      .item (atom.item offset scope.variants scope.important) := by
  obtain ⟨leading, utility, trailing⟩ := atom
  cases utility with
  | className name => rfl
  | property prop value => rfl
  | style stem value strength => cases strength <;> rfl
  | slashed stem value => rfl
  | bare value => rfl

mutual

/-- Flattening finds the items of a phrase, the last one first. -/
theorem Phrase.gather_node (scope : Scope) (found : List Entry) (offset : Nat) :
    (phrase : Phrase) → Entry.gather scope found (phrase.node offset) =
      ((phrase.items offset scope.variants scope.important).map Entry.item).reverse ++ found
  | .atom atom => by
      rw [Phrase.node, Entry.gather, atom.ofLeaf]
      rfl
  | .modified modifier body => by
      rw [Phrase.node, Entry.gather, modifier.closed_variant, body.isBlank_node]
      simp only [Bool.not_true, Bool.false_eq_true, if_false]
      rw [Phrase.gather_node, Scope.enter, modifier.identifier_variant]
      rfl
  | .group leading inside trailing => by
      rw [Phrase.node, Entry.gather, inside.isBlank_collect]
      simp only [Bool.not_true, Bool.false_eq_true, if_false]
      rw [Entry.gather_collect, Phrases.gather_nodes]
      rfl

private theorem Phrases.gather_nodes (scope : Scope) (found : List Entry) (offset : Nat) :
    (phrases : Phrases) → Entry.gatherAll scope found (phrases.nodes offset) =
      ((phrases.items offset scope.variants scope.important).map Entry.item).reverse ++ found
  | .one phrase => by
      rw [Phrases.nodes, Entry.gatherAll, Entry.gatherAll, Phrase.gather_node]
      rfl
  | .more phrase gap rest => by
      rw [Phrases.nodes, Entry.gatherAll, Phrase.gather_node, Phrases.gather_nodes, Phrases.items,
        List.map_append, List.reverse_append, List.append_assoc]

end

private theorem ofEntries_items (items : List Item) :
    Spread.ofEntries (items.map Entry.item) = ⟨items, [], [], []⟩ := by
  have kept : (items.map Entry.item).filterMap Entry.item? = items := by
    rw [List.filterMap_map]
    exact List.filterMap_some
  have dropped : ∀ select : Entry → Option Fault, (∀ item, select (.item item) = none) →
      (items.map Entry.item).filterMap select = [] := by
    intro select none
    rw [List.filterMap_eq_nil_iff]
    intro entry member
    obtain ⟨item, _, rfl⟩ := List.mem_map.1 member
    exact none item
  rw [Spread.ofEntries, kept, dropped Entry.emptyGroup? fun _ => rfl,
    dropped Entry.emptyVariants? fun _ => rfl, dropped Entry.notClosed? fun _ => rfl]

def Document.tree (document : Document) : Node :=
  Tree.collect 0 ((document.map Phrases.print).getD [])
    ((document.map (Phrases.nodes 0)).getD [])

theorem Document.ofNode_tree (document : Document) :
    Spread.ofNode document.tree = ⟨document.items, [], [], []⟩ := by
  rw [Spread.ofNode, Document.tree, Entry.gather_collect, ← ofEntries_items]
  cases document with
  | none => rfl
  | some phrases =>
      rw [Option.map_some, Option.getD_some, Phrases.gather_nodes, List.append_nil,
        List.reverse_reverse]
      rfl

end ClassExpr.Printing
