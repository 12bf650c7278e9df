import ClassExpr.Node
import ClassExpr.Proofs.Text.Occurrence

set_option autoImplicit false

/-! The shape that a tree keeps at each of its nodes: how a node's range, its parts and the ranges
of its children lie to one another. -/

namespace ClassExpr

open Text

namespace Leaf

def parts (leaf : Leaf) : List Token :=
  leaf.prop?.toList ++ leaf.content?.toList ++ (leaf.opacity?.map Opacity.range).toList

/-- The target is not empty, the markers are what the range has besides it, and the parts lie in
order inside of it. -/
structure Proper (leaf : Leaf) : Prop where
  nonempty : leaf.target.start < leaf.target.stop
  inside : leaf.target.PartOf leaf.range
  marked : leaf.important = true ↔ leaf.range ≠ leaf.target
  within : ∀ part ∈ leaf.parts, part.PartOf leaf.target
  ordered : leaf.parts.Pairwise (fun left right => left.stop < right.start)
  opacity : ∀ opacity ∈ leaf.opacity?, opacity.value.PartOf opacity.range

end Leaf

namespace Node

def nodes (node : Node) : List Node :=
  (preorder 0 node).map (·.2)

mutual

private theorem map_preorder (depth : Nat) :
    (node : Node) → (preorder depth node).map (·.2) = node.nodes
  | .declaration range children => by
      rw [nodes, preorder, preorder, List.map_cons, List.map_cons, map_preorderAll,
        map_preorderAll]
  | .variantSpan range variant none => by
      rw [nodes, preorder, preorder]
      rfl
  | .variantSpan range variant (some child) => by
      rw [nodes, preorder, preorder, List.map_cons, List.map_cons, map_preorder, map_preorder]
  | .group range child closed important => by
      rw [nodes, preorder, preorder, List.map_cons, List.map_cons, map_preorder, map_preorder]
  | .leaf item => by
      rw [nodes, preorder, preorder]
      rfl

private theorem map_preorderAll (depth : Nat) :
    (children : List Node) → (preorderAll depth children).map (·.2) = children.flatMap nodes
  | [] => rfl
  | child :: rest => by
      rw [preorderAll, List.map_append, List.flatMap_cons, map_preorder, map_preorderAll]

end

theorem nodes_declaration (range : Token) (children : List Node) :
    (declaration range children).nodes = .declaration range children :: children.flatMap nodes := by
  rw [nodes, preorder, List.map_cons, map_preorderAll]

theorem nodes_variantSpan_none (range : Token) (variant : Variant) :
    (variantSpan range variant none).nodes = [.variantSpan range variant none] := by
  rw [nodes, preorder]
  rfl

theorem nodes_variantSpan_some (range : Token) (variant : Variant) (child : Node) :
    (variantSpan range variant (some child)).nodes =
      .variantSpan range variant (some child) :: child.nodes := by
  rw [nodes, preorder, List.map_cons, map_preorder]

theorem nodes_group (range : Token) (child : Node) (closed important : Bool) :
    (group range child closed important).nodes =
      .group range child closed important :: child.nodes := by
  rw [nodes, preorder, List.map_cons, map_preorder]

theorem nodes_leaf (item : Leaf) : (leaf item).nodes = [.leaf item] := by
  rw [nodes, preorder]
  rfl

/-- The children of a sequence are non-empty items one after the other, and never one alone. -/
structure ProperItems (range : Token) (children : List Node) : Prop where
  several : children.length ≠ 1
  items : ∀ child ∈ children, child.kind ≠ .declaration
  nonempty : ∀ child ∈ children, child.range.start < child.range.stop
  inside : ∀ child ∈ children, child.range.PartOf range
  ordered : children.Pairwise (fun left right => left.range.stop ≤ right.range.start)

/-- A span starts with its variant; what the variant applies to is not blank, starts right behind
the variant and ends with the span. -/
structure ProperSpan (range : Token) (variant : Variant) (child : Option Node) : Prop where
  start : range.start = variant.range.start
  leading : variant.range.PartOf range
  alone : child = none → range = variant.range
  solid : ∀ body ∈ child, body.isBlank = false
  attached : ∀ body ∈ child, body.range.start = variant.range.stop
  stop : ∀ body ∈ child, range.stop = body.range.stop

/-- A group is its parentheses with the markers around them and the interior between them. It is
important if its text starts with a marker or, once closed, ends with one. -/
structure ProperGroup (range : Token) (child : Node) (closed important : Bool) : Prop where
  delimited : ∃ lead inside trail, (lead = [] ∨ lead = ['!']) ∧ (trail = [] ∨ trail = ['!']) ∧
    range.text.toList =
      lead ++ '(' :: inside ++ (if closed then ')' :: trail else []) ∧
    child.range.PartOf (.ofChars (range.start + byteLength lead + 1) inside)
  marked : important = true ↔ ['!'] <+: range.text.toList ∨
    closed = true ∧ [')', '!'] <:+ range.text.toList

def Proper : Node → Prop
  | .declaration range children => ProperItems range children
  | .variantSpan range variant child => ProperSpan range variant child
  | .group range child closed important => ProperGroup range child closed important
  | .leaf item => item.Proper

/-- Every node of a tree lies to its children as it should, and their ranges lie inside its own. -/
def AllProper (node : Node) : Prop :=
  ∀ inner ∈ node.nodes, inner.Proper ∧ ∀ child ∈ inner.children, child.range.PartOf inner.range

theorem allProper_leaf {item : Leaf} (proper : item.Proper) : (leaf item).AllProper := by
  intro inner member
  rw [nodes_leaf, List.mem_singleton] at member
  rw [member]
  exact ⟨proper, by simp [children]⟩

theorem allProper_bare {range : Token} {variant : Variant}
    (proper : ProperSpan range variant none) : (variantSpan range variant none).AllProper := by
  intro inner member
  rw [nodes_variantSpan_none, List.mem_singleton] at member
  rw [member]
  exact ⟨proper, by simp [children]⟩

theorem allProper_variantSpan {range : Token} {variant : Variant} {child : Node}
    (proper : ProperSpan range variant (some child)) (inside : child.range.PartOf range)
    (deeper : child.AllProper) : (variantSpan range variant (some child)).AllProper := by
  intro inner member
  rw [nodes_variantSpan_some, List.mem_cons] at member
  rcases member with rfl | later
  · exact ⟨proper, by simpa [children, Node.range] using inside⟩
  · exact deeper inner later

theorem allProper_group {range : Token} {child : Node} {closed important : Bool}
    (proper : ProperGroup range child closed important) (inside : child.range.PartOf range)
    (deeper : child.AllProper) : (group range child closed important).AllProper := by
  intro inner member
  rw [nodes_group, List.mem_cons] at member
  rcases member with rfl | later
  · exact ⟨proper, by simpa [children, Node.range] using inside⟩
  · exact deeper inner later

theorem allProper_declaration {range : Token} {items : List Node}
    (proper : ProperItems range items) (deeper : ∀ item ∈ items, item.AllProper) :
    (declaration range items).AllProper := by
  intro inner member
  rw [nodes_declaration, List.mem_cons, List.mem_flatMap] at member
  rcases member with rfl | ⟨item, isItem, later⟩
  · exact ⟨proper, proper.inside⟩
  · exact deeper item isItem inner later

theorem mem_nodes_self (node : Node) : node ∈ node.nodes := by
  cases node with
  | declaration range children => rw [nodes_declaration]; exact List.mem_cons_self
  | variantSpan range variant child =>
      cases child with
      | none => rw [nodes_variantSpan_none]; exact List.mem_cons_self
      | some child => rw [nodes_variantSpan_some]; exact List.mem_cons_self
  | group range child closed important => rw [nodes_group]; exact List.mem_cons_self
  | leaf item => rw [nodes_leaf]; exact List.mem_cons_self

theorem mem_nodes_iff (node inner : Node) :
    inner ∈ node.nodes ↔ inner = node ∨ ∃ child ∈ node.children, inner ∈ child.nodes := by
  cases node with
  | declaration range items => rw [nodes_declaration, List.mem_cons, List.mem_flatMap, children]
  | variantSpan range variant child =>
      cases child with
      | none => simp [nodes_variantSpan_none, children]
      | some child => simp [nodes_variantSpan_some, children]
  | group range child closed important => simp [nodes_group, children]
  | leaf item => simp [nodes_leaf, children]

theorem sizeOf_lt_of_mem_children {node child : Node} (member : child ∈ node.children) :
    sizeOf child < sizeOf node := by
  cases node with
  | declaration range items =>
      rw [children] at member
      have smaller := List.sizeOf_lt_of_mem member
      simp only [declaration.sizeOf_spec]
      omega
  | variantSpan range variant body =>
      rw [children, Option.mem_toList] at member
      subst member
      simp only [variantSpan.sizeOf_spec, Option.some.sizeOf_spec]
      omega
  | group range body closed important =>
      rw [children, List.mem_singleton] at member
      subst member
      simp only [group.sizeOf_spec]
      omega
  | leaf item => cases member

theorem mem_nodes_of_children {root node child : Node} (member : node ∈ root.nodes)
    (isChild : child ∈ node.children) : child ∈ root.nodes := by
  rcases (mem_nodes_iff root node).1 member with rfl | ⟨first, isFirst, deeper⟩
  · exact (mem_nodes_iff node child).2 (Or.inr ⟨child, isChild, mem_nodes_self child⟩)
  · have smaller := sizeOf_lt_of_mem_children isFirst
    exact (mem_nodes_iff root child).2 (Or.inr ⟨first, isFirst, mem_nodes_of_children deeper isChild⟩)
termination_by sizeOf root

theorem AllProper.child {node child : Node} (proper : node.AllProper)
    (member : child ∈ node.children) : child.AllProper := by
  intro inner deeper
  exact proper inner ((mem_nodes_iff node inner).2 (Or.inr ⟨child, member, deeper⟩))

theorem AllProper.inside {node : Node} (proper : node.AllProper) :
    ∀ inner ∈ node.nodes, inner.range.PartOf node.range := by
  intro inner member
  rcases (mem_nodes_iff node inner).1 member with rfl | ⟨child, isChild, deeper⟩
  · exact Token.PartOf.refl _
  · have smaller := sizeOf_lt_of_mem_children isChild
    have attached := (proper node (mem_nodes_self node)).2 child isChild
    exact ((proper.child isChild).inside inner deeper).trans attached
termination_by sizeOf node

end Node

end ClassExpr
