import ClassExpr.Proofs.Shift
import ClassExpr.Spread

set_option autoImplicit false

/-! Flattening puts the entries of a tree in front of those already found. The entries of a tree
that stands further on in a text and behind further variants are those of the tree alone: each keeps
what it says and only its offsets and the front of its list of variants differ. -/

namespace ClassExpr

namespace Entry

mutual

private theorem gather_found (scope : Scope) (found : List Entry) : (node : Node) →
    gather scope found node = gather scope [] node ++ found
  | .declaration range children => by
      rw [gather, gather]
      exact gatherAll_found scope found children
  | .variantSpan range variant none => by
      rw [gather, gather]
      rfl
  | .variantSpan range variant (some child) => by
      rw [gather, gather]
      split
      · rfl
      · split
        · rfl
        · exact gather_found (scope.enter variant) found child
  | .group range child closed important => by
      rw [gather, gather]
      split
      · rfl
      · split
        · rfl
        · exact gather_found (scope.mark important) found child
  | .leaf leaf => by
      rw [gather, gather]
      rfl

theorem gatherAll_found (scope : Scope) (found : List Entry) : (children : List Node) →
    gatherAll scope found children = gatherAll scope [] children ++ found
  | [] => by rw [gatherAll, gatherAll, List.nil_append]
  | child :: rest => by
      rw [gatherAll, gatherAll, gatherAll_found scope (gather scope found child),
        gatherAll_found scope (gather scope [] child), gather_found, List.append_assoc]

end

theorem gather_collect (scope : Scope) (found : List Entry) (offset : Nat) (cs : List Char)
    (nodes : List Node) :
    gather scope found (Tree.collect offset cs nodes) = gatherAll scope found nodes := by
  match nodes with
  | [] => rfl
  | [node] => rw [Tree.collect, gatherAll, gatherAll]
  | _ :: _ :: _ => simp only [Tree.collect, gather]

end Entry

def Scope.under (outer : List Token) (distance : Nat) (scope : Scope) : Scope :=
  { scope with variants := outer ++ scope.variants.map (Token.shift distance) }

def Item.under (outer : List Token) (distance : Nat) (item : Item) : Item :=
  { item with
    target := item.target.shift distance
    variants := outer ++ item.variants.map (Token.shift distance)
    prop := item.prop.map (Token.shift distance)
    content := item.content.map (Token.shift distance)
    opacity := item.opacity.map (Token.shift distance) }

def Fault.under (outer : List Token) (distance : Nat) (fault : Fault) : Fault :=
  { fault with
    target := fault.target.shift distance
    variants := outer ++ fault.variants.map (Token.shift distance) }

def Entry.under (outer : List Token) (distance : Nat) : Entry → Entry
  | .item value => .item (value.under outer distance)
  | .notClosed fault => .notClosed (fault.under outer distance)
  | .emptyGroup fault => .emptyGroup (fault.under outer distance)
  | .emptyVariants fault => .emptyVariants (fault.under outer distance)

def Spread.under (outer : List Token) (distance : Nat) (spread : Spread) : Spread :=
  { items := spread.items.map (Item.under outer distance)
    emptyGroup := spread.emptyGroup.map (Fault.under outer distance)
    emptyVariants := spread.emptyVariants.map (Fault.under outer distance)
    notClosed := spread.notClosed.map (Fault.under outer distance) }

variable (outer : List Token) (distance : Nat)

private theorem Variant.identifier_shift (variant : Variant) :
    (variant.shift distance).identifier = variant.identifier.shift distance := by
  cases variant <;> rfl

private theorem Variant.closed_shift (variant : Variant) :
    (variant.shift distance).closed = variant.closed := by
  cases variant <;> rfl

private theorem Variant.kind_shift (variant : Variant) :
    (variant.shift distance).kind = variant.kind := by
  cases variant <;> rfl

private theorem Node.isBlank_shift (node : Node) :
    (node.shift distance).isBlank = node.isBlank := by
  cases node with
  | declaration range children =>
      rw [shift, shiftAll_eq, isBlank, isBlank, List.isEmpty_map]
  | variantSpan range variant child => cases child <;> (rw [shift]; rfl)
  | group range child closed important => rw [shift]; rfl
  | leaf item => rw [shift]; rfl

private theorem Scope.enter_under (scope : Scope) (variant : Variant) :
    (scope.under outer distance).enter (variant.shift distance) =
      (scope.enter variant).under outer distance := by
  simp only [enter, under, List.map_append, List.map_cons, List.map_nil, List.append_assoc,
    Variant.identifier_shift]

namespace Entry

private theorem ofLeaf_under (scope : Scope) (leaf : Leaf) :
    ofLeaf (scope.under outer distance) (leaf.shift distance) =
      (ofLeaf scope leaf).under outer distance := by
  cases leaf with
  | arbitraryStyle range target prop content closed important opacity =>
      cases opacity with
      | none => cases closed <;> rfl
      | some opacity =>
          obtain ⟨_, _, _, opacityClosed⟩ := opacity
          cases closed <;> cases opacityClosed <;> rfl
  | className range target important => rfl
  | cssProperty range target prop content closed important => cases closed <;> rfl
  | arbitraryProperty range target content closed important => cases closed <;> rfl
  | unknown range => rfl

mutual

theorem gather_under (scope : Scope) (found : List Entry) : (node : Node) →
    gather (scope.under outer distance) (found.map (under outer distance)) (node.shift distance) =
      (gather scope found node).map (under outer distance)
  | .declaration range children => by
      rw [Node.shift_declaration, gather, gather]
      exact gatherAll_under scope found children
  | .variantSpan range variant none => by
      rw [Node.shift_variant, gather, gather, Variant.closed_shift, List.map_cons,
        Variant.kind_shift, Variant.range_shift]
      split <;> rfl
  | .variantSpan range variant (some child) => by
      rw [Node.shift_variantSpan, gather, gather, Variant.closed_shift, Node.isBlank_shift,
        Variant.kind_shift, Variant.range_shift]
      split
      · rfl
      · split
        · rfl
        · rw [Scope.enter_under]
          exact gather_under (scope.enter variant) found child
  | .group range child closed important => by
      rw [Node.shift_group, gather, gather, Node.isBlank_shift]
      split
      · rfl
      · split
        · rfl
        · exact gather_under (scope.mark important) found child
  | .leaf leaf => by
      rw [Node.shift_leaf, gather, gather, List.map_cons, ofLeaf_under]

private theorem gatherAll_under (scope : Scope) (found : List Entry) : (children : List Node) →
    gatherAll (scope.under outer distance) (found.map (under outer distance))
        (Node.shiftAll distance children) =
      (gatherAll scope found children).map (under outer distance)
  | [] => by rw [Node.shiftAll, gatherAll, gatherAll]
  | child :: rest => by
      rw [Node.shiftAll, gatherAll, gatherAll, gather_under, gatherAll_under]

end

end Entry

namespace Spread

private theorem filterMap_under {α : Type} {select : Entry → Option α} {change : α → α}
    (same : ∀ entry : Entry, select (entry.under outer distance) = (select entry).map change)
    (entries : List Entry) :
    (entries.map (Entry.under outer distance)).filterMap select =
      (entries.filterMap select).map change := by
  rw [List.filterMap_map, List.map_filterMap]
  congr 1
  funext entry
  exact same entry

theorem ofEntries_under (entries : List Entry) :
    ofEntries (entries.map (Entry.under outer distance)) =
      (ofEntries entries).under outer distance := by
  unfold ofEntries under
  rw [filterMap_under outer distance fun entry => by cases entry <;> rfl,
    filterMap_under outer distance fun entry => by cases entry <;> rfl,
    filterMap_under outer distance fun entry => by cases entry <;> rfl,
    filterMap_under outer distance fun entry => by cases entry <;> rfl]

theorem hasFaults_under (spread : Spread) :
    (spread.under outer distance).hasFaults = spread.hasFaults := by
  simp only [hasFaults, under, List.isEmpty_map]

/-- A variant in front of a tree puts itself in front of the variants of all of its entries. -/
theorem ofNode_span (range : Token) {variant : Variant} {node : Node}
    (closed : variant.closed = true) (solid : node.isBlank = false) :
    ofNode (.variantSpan range variant (some (node.shift distance))) =
      (ofNode node).under [variant.identifier] distance := by
  have gathered : Entry.gather (({} : Scope).enter variant) [] (node.shift distance) =
      (Entry.gather {} [] node).map (Entry.under [variant.identifier] distance) :=
    Entry.gather_under [variant.identifier] distance {} [] node
  rw [ofNode, Entry.gather, closed, Node.isBlank_shift, solid]
  simp only [Bool.not_true, Bool.false_eq_true, if_false]
  rw [gathered, ← List.map_reverse, ofEntries_under]
  rfl

end Spread

end ClassExpr
