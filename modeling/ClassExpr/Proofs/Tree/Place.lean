import ClassExpr.Proofs.Tree.Complete
import ClassExpr.Proofs.Tree.Origin

set_option autoImplicit false

/-! Where the items of a tree stand. Every item of a window of a tree is read from what there is in
that window behind its start. -/

namespace ClassExpr.Tree

open Text

variable {reading : Reading} {interior : Interior} {text separator : String}

/-- The node is read from a text as an item of a window, with the windows inside of it read on some
level. -/
def ReadIn (reading : Reading) (text : String) (window : Window) (node : Node) : Prop :=
  ∃ levels offset taken rest, NodeAt reading (sequence reading levels) offset taken rest node ∧
    Occurs text.toList offset (taken ++ rest) ∧ offset + byteLength (taken ++ rest) = window.stop

def AllReadIn (reading : Reading) (text : String) (windows : List Window) : Prop :=
  ∀ window ∈ windows, ∀ item ∈ window.items, item.kind ≠ .declaration →
    ReadIn reading text window item

section

variable (deeper : ∀ offset cs, Occurs text.toList offset cs →
  AllReadIn reading text
    ((interior offset cs).allWindows text separator offset (offset + byteLength cs)))

include deeper

theorem GroupAt.readIn {offset stop : Nat} {taken rest : List Char} {node : Node}
    (groupAt : GroupAt interior offset taken rest node) (occurs : Occurs text.toList offset taken) :
    AllReadIn reading text (node.windows text separator stop) := by
  obtain ⟨front, inside, back, rfl, _, windows, _⟩ := groupAt.exists_interior text separator stop
  rw [windows]
  exact deeper _ _ occurs.left.right

theorem NodeAt.readIn (proper : ∀ offset cs, (interior offset cs).AllProper)
    (separated : reading.separator = separator.toList) {offset : Nat} {taken rest : List Char}
    {node : Node} (nodeAt : NodeAt reading interior offset taken rest node)
    (occurs : Occurs text.toList offset (taken ++ rest)) :
    AllReadIn reading text
      (node.windows text separator (offset + byteLength (taken ++ rest))) := by
  cases nodeAt with
  | leaf _ => simp [AllReadIn, Node.windows]
  | openVariant _ => simp [AllReadIn, Node.windows]
  | group groupAt => exact groupAt.readIn deeper occurs.left
  | @span front body _ variant _ spelled spanAt =>
      have stops : variant.range.stop = offset + byteLength front := by
        rw [spelled.range_eq, Token.stop_ofChars]
      rw [List.append_assoc] at occurs ⊢
      have window := occurs.right
      rw [← stops] at window
      cases spanAt with
      | empty _ => simp [AllReadIn, Node.windows]
      | @group _ _ child _ grouped =>
          rw [Node.windows, if_pos grouped.kind_eq]
          exact grouped.readIn deeper window.left
      | @item _ tail rest _ single delimited framed _ _ =>
          rw [← List.append_assoc] at window
          rw [byteLength_append, ← Nat.add_assoc, ← stops, ← List.append_assoc,
            windows_item proper separated single delimited framed window]
          exact deeper _ _ window.left

end

private theorem allReadIn_sequence (separated : reading.separator = separator.toList) (levels : Nat)
    (offset : Nat) (cs : List Char) (occurs : Occurs text.toList offset cs) :
    AllReadIn reading text ((sequence reading levels offset cs).allWindows text separator offset
      (offset + byteLength cs)) := by
  induction levels generalizing offset cs with
  | zero =>
      rw [sequence]
      rcases remainder_cases offset cs with ⟨_, read⟩ | ⟨front, kept, back, whole, _, _, nonempty, read⟩
      · rw [read]
        simp [AllReadIn, Node.allWindows, collect, Node.windows, Node.windowsAll, Node.items]
      · rw [read, collect]
        intro window known item member _
        obtain rfl := List.mem_singleton.1 known
        obtain rfl := List.mem_singleton.1 member
        rw [whole, List.append_assoc] at occurs
        refine ⟨0, _, kept, back, NodeAt.leaf (LeafAt.unknown nonempty), occurs.right, ?_⟩
        dsimp only
        rw [whole, List.append_assoc, byteLength_append front, Nat.add_assoc]
  | succ levels ih =>
      have framed := framed_sequence reading levels
      have proper := allProper_sequence reading levels
      obtain ⟨nodes, read, itemsAt⟩ := @itemsAt_items reading _ framed offset cs []
      rw [sequence, read, List.reverse_nil, List.nil_append]
      have items : ∀ node ∈ nodes, ∃ start taken rest,
          NodeAt reading (sequence reading levels) start taken rest node ∧
            Occurs text.toList start (taken ++ rest) ∧
            start + byteLength (taken ++ rest) = offset + byteLength cs := by
        intro node member
        obtain ⟨before, taken, rest, rfl, nodeAt⟩ := itemsAt.exists_between node member
        exact ⟨_, taken, rest, nodeAt, occurs.right, by rw [byteLength_append before, Nat.add_assoc]⟩
      have known : (collect offset cs nodes).items = nodes :=
        items_collect fun node member => (itemsAt.ordered.1 node member).1
      have windows : (collect offset cs nodes).windows text separator (offset + byteLength cs) =
          nodes.flatMap (Node.windows text separator (offset + byteLength cs)) := by
        rcases collect_cases offset cs nodes with ⟨node, rfl⟩ | several
        · rw [collect, List.flatMap_cons, List.flatMap_nil, List.append_nil]
        · rw [several, Node.windows_declaration]
      intro window member
      rw [Node.allWindows, known, windows] at member
      rcases List.mem_cons.1 member with rfl | inside
      · intro item isItem _
        obtain ⟨start, taken, rest, nodeAt, stands, stops⟩ := items item isItem
        exact ⟨levels, start, taken, rest, nodeAt, stands, stops⟩
      · obtain ⟨node, isItem, below⟩ := List.mem_flatMap.1 inside
        obtain ⟨start, taken, rest, nodeAt, stands, stops⟩ := items node isItem
        rw [← stops] at below
        exact nodeAt.readIn (fun offset cs => ih offset cs) proper separated stands window below

theorem allReadIn_read (settings : Settings) (text : String) :
    AllReadIn ⟨settings.separator.toList, none⟩ text
      ((read settings text none).allWindows text settings.separator 0 text.utf8ByteSize) := by
  have inside := @allReadIn_sequence ⟨settings.separator.toList, none⟩ text settings.separator rfl
    (settings.maxDepth + 1) 0 text.toList (Occurs.refl _)
  rwa [← read_eq, Nat.zero_add, byteLength_toList] at inside

theorem ReadIn.isRead {window : Window} {node : Node} (readIn : ReadIn reading text window node) :
    IsRead reading node := by
  obtain ⟨levels, offset, taken, rest, nodeAt, _⟩ := readIn
  exact ⟨levels, offset, taken, rest, nodeAt⟩

/-- The body of a variant in its window: what the variant applies to, what is passed over behind it,
and the rest of the window. -/
theorem ReadIn.exists_body {window : Window} {range : Token} {variant : Variant} {child : Node}
    (readIn : ReadIn ⟨separator.toList, none⟩ text window (.variantSpan range variant (some child)))
    (single : child.kind ≠ .group) :
    ∃ body tail rest windows, range.stop = variant.range.stop + byteLength body ∧
      child.range = .ofChars variant.range.stop body ∧
      Occurs text.toList variant.range.stop (body ++ tail ++ rest) ∧
      variant.range.stop + byteLength (body ++ tail ++ rest) = window.stop ∧
      Body.split separator.toList (body ++ tail ++ rest) = (body ++ tail, rest) ∧
      Passed text windows (variant.range.stop + byteLength body) tail := by
  obtain ⟨levels, offset, taken, rest, nodeAt, occurs, stops⟩ := readIn
  generalize node : Node.variantSpan range variant (some child) = span at nodeAt
  cases nodeAt with
  | leaf _ => cases node
  | group groupAt => cases groupAt <;> cases node
  | openVariant _ => cases node
  | @span front behind _ other _ spelled spanAt =>
      obtain rfl : other = variant := by cases spanAt <;> cases node <;> rfl
      have place : other.range.stop = offset + byteLength front := by
        rw [spelled.range_eq, Token.stop_ofChars]
      rw [List.append_assoc] at occurs stops
      have within := occurs.right
      rw [byteLength_append, ← Nat.add_assoc, ← place] at stops
      rw [← place] at within
      cases spanAt with
      | empty _ => cases node
      | group _ groupAt =>
          cases node
          exact absurd groupAt.kind_eq single
      | @item _ tail after _ _ delimited framed _ _ =>
          cases node
          rw [← List.append_assoc] at within stops
          have laid := @laid_sequence ⟨separator.toList, none⟩ text separator rfl rfl levels
            other.range.stop (behind ++ tail) within.left
          refine ⟨behind, tail, after, _, ?_, framed, within, stops, delimited, (laid.behind framed).2⟩
          rw [Token.stop_ofChars, byteLength_append, ← Nat.add_assoc, ← Token.stop_eq]

end ClassExpr.Tree
