import ClassExpr.Hover
import ClassExpr.Proofs.Tree.Cut

set_option autoImplicit false

/-! What is under a position is found in the tree that is read up to the position as it is in the
whole tree: whatever the limit takes away lies behind it, and a span that it makes shorter has lost
nothing that contains the position. -/

namespace ClassExpr

open Text

theorem Token.contains_iff (token : Token) (position : Nat) :
    token.contains position = true ↔ token.start ≤ position ∧ position < token.stop := by
  simp [contains]

theorem Token.not_contains_iff (token : Token) (position : Nat) :
    token.contains position = false ↔ (token.start ≤ position → token.stop ≤ position) := by
  rw [← Bool.not_eq_true, contains_iff]
  omega

theorem Token.PartOf.contains {inner outer : Token} {position : Nat} (part : inner.PartOf outer)
    (inside : inner.contains position = true) : outer.contains position = true := by
  rw [contains_iff] at inside ⊢
  exact ⟨Nat.le_trans part.start_le inside.1, Nat.lt_of_lt_of_le inside.2 part.stop_le⟩

theorem Node.AllProper.of_collect {offset : Nat} {cs : List Char} {items : List Node}
    (proper : (Tree.collect offset cs items).AllProper) : ∀ item ∈ items, item.AllProper := by
  intro item member
  rcases Tree.collect_cases offset cs items with ⟨other, rfl⟩ | several
  · rw [List.mem_singleton.1 member]
    exact proper
  · rw [several] at proper
    exact proper.child (by exact member)

namespace Hover

variable {position : Nat} {scope : Scope}

theorem resolve_declaration (range : Token) (children : List Node) :
    resolve position scope (.declaration range children) =
      if range.contains position then resolveFirst position scope children else none := rfl

private theorem resolve_variant (range : Token) (variant : Variant) :
    resolve position scope (.variantSpan range variant none) =
      if range.contains position && variant.range.contains position then
        some (region scope variant.identifier variant.kind)
      else none := rfl

theorem resolve_variantSpan (range : Token) (variant : Variant) (child : Node) :
    resolve position scope (.variantSpan range variant (some child)) =
      if !range.contains position then none
      else if variant.range.contains position then
        some (region scope variant.identifier variant.kind)
      else resolve position (scope.enter variant) child := rfl

theorem resolve_group (range : Token) (child : Node) (closed important : Bool) :
    resolve position scope (.group range child closed important) =
      if range.contains position then
        some ((resolve position (scope.mark important) child).getD
          (region (scope.mark important) range .group))
      else none := rfl

theorem resolve_leaf (leaf : Leaf) :
    resolve position scope (.leaf leaf) =
      if leaf.range.contains position then some (ofLeaf scope leaf) else none := rfl

private theorem resolveFirst_nil : resolveFirst position scope [] = none := rfl

theorem resolveFirst_cons (node : Node) (rest : List Node) :
    resolveFirst position scope (node :: rest) =
      if node.range.contains position then resolve position scope node
      else resolveFirst position scope rest := rfl

theorem resolve_eq_none {node : Node} (outside : node.range.contains position = false) :
    resolve position scope node = none := by
  cases node with
  | declaration range children =>
      rw [resolve_declaration, if_neg (by simpa [Node.range] using outside)]
  | variantSpan range variant child =>
      rw [Node.range] at outside
      cases child with
      | none => rw [resolve_variant, outside]; rfl
      | some child => rw [resolve_variantSpan, outside]; rfl
  | group range child closed important =>
      rw [resolve_group, if_neg (by simpa [Node.range] using outside)]
  | leaf leaf => rw [resolve_leaf, if_neg (by simpa [Node.range] using outside)]

private theorem resolveFirst_eq_none {nodes : List Node}
    (outside : ∀ node ∈ nodes, node.range.contains position = false) :
    resolveFirst position scope nodes = none := by
  induction nodes with
  | nil => exact resolveFirst_nil
  | cons node rest ih =>
      rw [resolveFirst_cons, outside node List.mem_cons_self]
      exact ih fun other member => outside other (List.mem_cons_of_mem node member)

private theorem resolveFirst_append {left right : List Node} (read : List Node)
    (same : resolveFirst position scope left = resolveFirst position scope right) :
    resolveFirst position scope (read ++ left) = resolveFirst position scope (read ++ right) := by
  induction read with
  | nil => exact same
  | cons node read ih => rw [List.cons_append, List.cons_append, resolveFirst_cons,
      resolveFirst_cons, ih]

private theorem resolveFirst_ahead {later : List Node} (read : List Node)
    (ahead : ∀ node ∈ later, position < node.range.start) :
    resolveFirst position scope (read ++ later) = resolveFirst position scope read := by
  have none : resolveFirst position scope later = resolveFirst position scope [] := by
    rw [resolveFirst_nil, resolveFirst_eq_none]
    intro node member
    have start := ahead node member
    rw [Token.not_contains_iff]
    omega
  rw [resolveFirst_append read none, List.append_nil]

private theorem resolveFirst_single (node : Node) :
    resolveFirst position scope [node] = resolve position scope node := by
  rw [resolveFirst_cons, resolveFirst_nil]
  split
  · rfl
  next outside => exact (resolve_eq_none (by simpa using outside)).symm

/-- A sequence is looked through item by item, also where one item stands for it. -/
theorem resolve_collect {offset : Nat} {cs : List Char} {items : List Node}
    (proper : (Tree.collect offset cs items).AllProper) :
    resolve position scope (Tree.collect offset cs items) = resolveFirst position scope items := by
  rcases Tree.collect_cases offset cs items with ⟨node, rfl⟩ | several
  · exact (resolveFirst_single node).symm
  · rw [several] at proper ⊢
    rw [resolve_declaration]
    split
    · rfl
    next outside =>
      have inside := (proper _ (Node.mem_nodes_self _)).2
      refine (resolveFirst_eq_none fun node member => ?_).symm
      rw [Bool.eq_false_iff]
      exact fun within => outside ((inside node member).contains within)

end Hover

namespace Tree

open Hover

variable {position : Nat}

/-- A span that a limit makes shorter answers a position up to the limit as before. -/
theorem resolve_span {scope : Scope} {range short : Token} {variant : Variant} {child cut : Node}
    (proper : (Node.variantSpan range variant (some child)).AllProper)
    (cutProper : (Node.variantSpan short variant (some cut)).AllProper)
    (reaches : position < range.stop)
    (inner : resolve position (scope.enter variant) cut =
      resolve position (scope.enter variant) child) :
    resolve position scope (.variantSpan short variant (some cut)) =
      resolve position scope (.variantSpan range variant (some child)) := by
  have shape : Node.ProperSpan range variant (some child) := (proper _ (Node.mem_nodes_self _)).1
  have cutShape : Node.ProperSpan short variant (some cut) :=
    (cutProper _ (Node.mem_nodes_self _)).1
  rw [resolve_variantSpan, resolve_variantSpan, inner]
  cases within : short.contains position with
  | true =>
      rw [Token.contains_iff, cutShape.start, ← shape.start] at within
      rw [(range.contains_iff position).2 ⟨within.1, reaches⟩]
  | false =>
      cases wider : range.contains position with
      | false => rfl
      | true =>
          -- what the span has lost lies behind its variant and behind what is left of its child
          rw [Token.contains_iff, shape.start, ← cutShape.start] at wider
          have behind := (short.not_contains_iff position).1 within wider.1
          have variantStop := cutShape.leading.stop_le
          have childStop := cutShape.stop cut rfl
          have outside : variant.range.contains position = false := by
            rw [Token.not_contains_iff]
            omega
          have nothing : resolve position (scope.enter variant) cut = none := by
            apply resolve_eq_none
            rw [Token.not_contains_iff]
            omega
          rw [outside, ← inner, nothing]
          rfl

/-- What a limit leaves of a tree answers the position of the limit as the whole tree does. -/
theorem Pruned.resolve_eq {node cut : Node} (pruned : Pruned position node cut)
    (proper : node.AllProper) (cutProper : cut.AllProper) (scope : Scope) :
    resolve position scope cut = resolve position scope node := by
  induction pruned generalizing scope with
  | whole _ => rfl
  | group _ ih =>
      simp only [resolve_group, ih (proper.child (by simp [Node.children]))
        (cutProper.child (by simp [Node.children]))]
  | span _ reaches ih =>
      exact resolve_span proper cutProper reaches (ih (proper.child (by simp [Node.children]))
        (cutProper.child (by simp [Node.children])) _)
  | ended _ ahead _ => rw [resolve_collect proper, resolve_collect cutProper, resolveFirst_ahead _ ahead]
  | @last offset cs read later node cut _ _ _ ahead _ ih =>
      have same := ih (proper.of_collect node (by simp)) (cutProper.of_collect cut (by simp)) scope
      rw [resolve_collect proper, resolve_collect cutProper, List.append_cons read node later,
        resolveFirst_ahead _ ahead]
      apply resolveFirst_append
      rw [resolveFirst_single, resolveFirst_single, same]

end Tree

namespace Hover

/-- What is under a position does not depend on whether the text is read on behind it. -/
theorem resolve_read_limit (settings : Settings) (text : String) (position : Nat) (scope : Scope) :
    resolve position scope (Tree.read settings text (some position)) =
      resolve position scope (Tree.read settings text none) := by
  have pruned := Tree.pruned_read settings text position
  have proper := Tree.allProper_read settings text none
  have cutProper := Tree.allProper_read settings text (some position)
  exact pruned.resolve_eq proper cutProper scope

end Hover

end ClassExpr
