import ClassExpr.Proofs.Tree.Proper

set_option autoImplicit false

/-! Where the nodes of a tree come from. Every node but the sequences was read as an item of some
window, on one of the levels above it; so what holds of every item that can be read holds of every
such node of a tree. -/

namespace ClassExpr.Tree

open Text

variable {reading : Reading} {interior : Interior}

/-- The node is read as an item of some window, with the windows inside of it read on some level. -/
def IsRead (reading : Reading) (node : Node) : Prop :=
  ∃ levels offset taken rest, NodeAt reading (sequence reading levels) offset taken rest node

def AllRead (reading : Reading) (node : Node) : Prop :=
  ∀ inner ∈ node.nodes, inner.kind ≠ .declaration → IsRead reading inner

theorem AllRead.of_children {node : Node}
    (own : node.kind ≠ .declaration → IsRead reading node)
    (deeper : ∀ child ∈ node.children, AllRead reading child) : AllRead reading node := by
  intro inner member item
  rcases (Node.mem_nodes_iff node inner).1 member with rfl | ⟨child, isChild, later⟩
  · exact own item
  · exact deeper child isChild inner later item

theorem NodeAt.allRead {levels : Nat}
    (deeper : ∀ offset cs, AllRead reading (sequence reading levels offset cs)) {offset : Nat}
    {taken rest : List Char} {node : Node}
    (nodeAt : NodeAt reading (sequence reading levels) offset taken rest node) :
    AllRead reading node := by
  have own : IsRead reading node := ⟨levels, offset, taken, rest, nodeAt⟩
  have grouped : ∀ {offset taken rest child},
      GroupAt (sequence reading levels) offset taken rest child → AllRead reading child := by
    intro offset taken rest child groupAt
    refine AllRead.of_children (fun _ => ⟨levels, _, _, _, NodeAt.group groupAt⟩) ?_
    cases groupAt <;> simpa [Node.children] using deeper _ _
  cases nodeAt with
  | leaf _ => exact AllRead.of_children (fun _ => own) (by simp [Node.children])
  | group groupAt => exact grouped groupAt
  | span _ spanAt =>
      cases spanAt with
      | empty _ => exact AllRead.of_children (fun _ => own) (by simp [Node.children])
      | group _ groupAt =>
          exact AllRead.of_children (fun _ => own)
            (by simpa [Node.children] using grouped groupAt)
      | item _ _ _ _ _ _ =>
          exact AllRead.of_children (fun _ => own) (by simpa [Node.children] using deeper _ _)
  | openVariant _ => exact AllRead.of_children (fun _ => own) (by simp [Node.children])

theorem allRead_sequence (reading : Reading) (levels offset : Nat) (cs : List Char) :
    AllRead reading (sequence reading levels offset cs) := by
  induction levels generalizing offset cs with
  | zero =>
      rw [sequence]
      rcases remainder_cases offset cs with ⟨_, read⟩ | ⟨_, kept, _, _, _, _, nonempty, read⟩
      · rw [read]
        exact AllRead.of_children (fun item => absurd rfl item) (by simp [collect, Node.children])
      · rw [read]
        exact AllRead.of_children
          (fun _ => ⟨0, _, kept, [], NodeAt.leaf (LeafAt.unknown nonempty)⟩)
          (by simp [collect, Node.children])
  | succ levels ih =>
      obtain ⟨nodes, read, itemsAt⟩ :=
        @itemsAt_items reading _ (framed_sequence reading levels) offset cs []
      rw [sequence, read, List.reverse_nil, List.nil_append]
      have items : ∀ node ∈ nodes, AllRead reading node := by
        intro node member
        obtain ⟨_, _, _, _, nodeAt⟩ := itemsAt.exists_between node member
        exact nodeAt.allRead ih
      rcases collect_cases offset cs nodes with ⟨node, rfl⟩ | several
      · exact items node List.mem_cons_self
      · rw [several]
        exact AllRead.of_children (fun item => absurd rfl item) items

theorem IsRead.allRead {node : Node} (isRead : IsRead reading node) : AllRead reading node := by
  obtain ⟨levels, _, _, _, nodeAt⟩ := isRead
  exact nodeAt.allRead (allRead_sequence reading levels)

theorem IsRead.allProper {node : Node} (isRead : IsRead reading node) : node.AllProper := by
  obtain ⟨levels, _, _, _, nodeAt⟩ := isRead
  exact nodeAt.allProper (framed_sequence reading levels) (allProper_sequence reading levels)

/-- A variant that applies to something is closed and stands in front of its separator. -/
theorem spanAt_of_isRead {range : Token} {variant : Variant} {child : Node}
    (isRead : IsRead reading (.variantSpan range variant (some child))) :
    ∃ levels offset text body rest, variant.Spelled reading.separator offset text ∧
      SpanAt reading (sequence reading levels) variant body rest
        (.variantSpan range variant (some child)) := by
  obtain ⟨levels, offset, taken, rest, nodeAt⟩ := isRead
  generalize node : Node.variantSpan range variant (some child) = span at nodeAt
  cases nodeAt with
  | leaf _ => cases node
  | group groupAt => cases groupAt <;> cases node
  | openVariant _ => cases node
  | @span text body _ other _ spelled spanAt =>
      obtain rfl : other = variant := by cases spanAt <;> cases node <;> rfl
      exact ⟨levels, offset, text, body, rest, spelled, node ▸ spanAt⟩

/-- A variant that is not closed is nothing but its bracket, and applies to nothing. -/
theorem unclosed_of_isRead {range : Token} {variant : Variant}
    {child : Option Node} (isRead : IsRead reading (.variantSpan range variant child))
    (opened : variant.closed = false) :
    child = none ∧ variant.range = range ∧ variant.identifier = range ∧
      variant.kind = .arbitraryVariant ∧ range.text.toList.head? = some '[' := by
  obtain ⟨levels, offset, taken, rest, nodeAt⟩ := isRead
  generalize node : Node.variantSpan range variant child = span at nodeAt
  cases nodeAt with
  | leaf _ => cases node
  | group groupAt => cases groupAt <;> cases node
  | span spelled spanAt => cases spanAt <;> cases node <;> cases spelled <;> cases opened
  | openVariant _ =>
      cases node
      exact ⟨rfl, rfl, rfl, rfl, by simp⟩

end ClassExpr.Tree
