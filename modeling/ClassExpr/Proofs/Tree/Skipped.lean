import ClassExpr.Proofs.Tree.Complete

set_option autoImplicit false

/-! What stands between the pieces of a tree. A tiled text is taken apart one tile after the other:
a piece, a blank or a comment. The comments among them are those that reading passes over. -/

namespace ClassExpr

open Text

variable {text : String} {windows : List Window} {offset : Nat}

inductive Tile (text : String) (windows : List Window) (offset : Nat) :
    List Char → List Token → Prop
  | blank {c : Char} (white : isBlank c = true) : Tile text windows offset [c] []
  | comment {taken : List Char} {window : Window} (known : window ∈ windows)
      (holds : window.Holds text offset taken) : Tile text windows offset taken []
  | piece {cs : List Char} (nonempty : cs ≠ []) :
      Tile text windows offset cs [.ofChars offset cs]

theorem Tile.tiles {cs : List Char} {pieces : List Token} (tile : Tile text windows offset cs pieces) :
    Tiles text windows offset cs pieces := by
  cases tile with
  | blank white => exact Tiles.done (Passed.blank white Passed.nil)
  | comment known holds =>
      have passed : Passed text windows offset (cs ++ []) :=
        Passed.comment known holds Passed.nil
      rw [List.append_nil] at passed
      exact Tiles.done passed
  | piece nonempty => exact Tiles.single nonempty

theorem Tile.ne_nil {cs : List Char} {pieces : List Token}
    (tile : Tile text windows offset cs pieces) : cs ≠ [] := by
  cases tile with
  | blank _ => exact List.cons_ne_nil _ _
  | comment _ holds =>
      obtain ⟨_, _, _, spans⟩ := holds.delimited
      exact spans.ne_nil
  | piece nonempty => exact nonempty

theorem Tiles.first {cs : List Char} {pieces : List Token}
    (tiles : Tiles text windows offset cs pieces) (nonempty : cs ≠ []) :
    ∃ taken rest mine later, cs = taken ++ rest ∧ pieces = mine ++ later ∧
      Tile text windows offset taken mine ∧
      Tiles text windows (offset + byteLength taken) rest later := by
  cases tiles with
  | done passed =>
      cases passed with
      | nil => exact absurd rfl nonempty
      | @blank _ c rest white passed =>
          refine ⟨[c], rest, [], [], rfl, rfl, Tile.blank white, Tiles.done ?_⟩
          simpa using passed
      | @comment _ taken rest _ known holds passed =>
          exact ⟨taken, rest, [], [], rfl, rfl, Tile.comment known holds, Tiles.done passed⟩
  | @piece _ lead taken rest pieces passed filled later =>
      cases passed with
      | nil =>
          rw [byteLength_nil, Nat.add_zero] at later ⊢
          exact ⟨taken, rest, [_], pieces, rfl, rfl, Tile.piece filled, later⟩
      | @blank _ c lead white passed =>
          rw [byteLength_cons, ← Nat.add_assoc] at later ⊢
          refine ⟨[c], lead ++ taken ++ rest, [], _, rfl, rfl, Tile.blank white, ?_⟩
          have tiled := Tiles.piece passed filled later
          simpa using tiled
      | @comment _ front lead _ known holds passed =>
          rw [byteLength_append, ← Nat.add_assoc] at later ⊢
          refine ⟨front, lead ++ taken ++ rest, [], _, by simp, rfl, Tile.comment known holds, ?_⟩
          exact Tiles.piece passed filled later

theorem Tiles.covers {cs : List Char} {pieces : List Token}
    (tiles : Tiles text windows offset cs pieces) {position : Nat} (behind : offset < position)
    (within : position ≤ offset + byteLength cs) :
    ∃ before taken after left mine right, cs = before ++ taken ++ after ∧
      pieces = left ++ mine ++ right ∧ Tiles text windows offset before left ∧
      Tile text windows (offset + byteLength before) taken mine ∧
      Tiles text windows (offset + byteLength before + byteLength taken) after right ∧
      offset + byteLength before < position ∧
      position ≤ offset + byteLength before + byteLength taken := by
  induction counted : cs.length using Nat.strongRecOn generalizing offset cs pieces with
  | ind size ih =>
      have nonempty : cs ≠ [] := by
        rintro rfl
        rw [byteLength_nil] at within
        omega
      obtain ⟨taken, rest, mine, later, rfl, rfl, tile, others⟩ := tiles.first nonempty
      rcases Nat.lt_or_ge (offset + byteLength taken) position with far | here
      · have positive := List.length_pos_iff.2 tile.ne_nil
        rw [List.length_append] at counted
        rw [byteLength_append, ← Nat.add_assoc] at within
        obtain ⟨before, found, after, left, own, right, rfl, rfl, front, inner, back, start, stop⟩ :=
          ih rest.length (by omega) others far within rfl
        rw [Nat.add_assoc offset, ← byteLength_append] at inner back start stop
        exact ⟨taken ++ before, found, after, mine ++ left, own, right, by simp, by simp,
          tile.tiles.append front, inner, back, start, stop⟩
      · exact ⟨[], taken, rest, [], mine, later, rfl, rfl, Tiles.done Passed.nil, tile, others,
          behind, here⟩

def HasComment (text : String) (windows : List Window) (offset : Nat) (cs : List Char)
    (pieces : List Token) (start : Nat) (taken : List Char) : Prop :=
  ∃ before after left right, cs = before ++ taken ++ after ∧ pieces = left ++ right ∧
    start = offset + byteLength before ∧ Tiles text windows offset before left ∧
    (∃ window ∈ windows, window.Holds text start taken) ∧
    Tiles text windows (start + byteLength taken) after right

section

variable {first second taken : List Char} {left right : List Token} {start : Nat}

theorem HasComment.append (has : HasComment text windows offset first left start taken)
    (tiles : Tiles text windows (offset + byteLength first) second right) :
    HasComment text windows offset (first ++ second) (left ++ right) start taken := by
  obtain ⟨before, after, mine, later, rfl, rfl, rfl, front, held, back⟩ := has
  refine ⟨before, after ++ second, mine, later ++ right, by simp, by simp, rfl, front, held, ?_⟩
  apply back.append
  rw [byteLength_append, byteLength_append, ← Nat.add_assoc, ← Nat.add_assoc] at tiles
  exact tiles

theorem HasComment.prepend (tiles : Tiles text windows offset first left)
    (has : HasComment text windows (offset + byteLength first) second right start taken) :
    HasComment text windows offset (first ++ second) (left ++ right) start taken := by
  obtain ⟨before, after, mine, later, rfl, rfl, rfl, front, held, back⟩ := has
  refine ⟨first ++ before, after, left ++ mine, later, by simp, by simp, ?_, tiles.append front,
    held, back⟩
  rw [byteLength_append, Nat.add_assoc]

end

theorem HasComment.stop_le {cs taken : List Char} {pieces : List Token} {start : Nat}
    (has : HasComment text windows offset cs pieces start taken) :
    start + byteLength taken ≤ offset + byteLength cs := by
  obtain ⟨before, after, _, _, rfl, _, rfl, _⟩ := has
  rw [byteLength_append, byteLength_append]
  omega

theorem Tiles.stop_le {cs : List Char} {pieces : List Token}
    (tiles : Tiles text windows offset cs pieces) :
    ∀ piece ∈ pieces, piece.stop ≤ offset + byteLength cs := by
  induction tiles with
  | done _ => simp
  | piece _ _ _ ih =>
      intro piece member
      rw [byteLength_append, byteLength_append]
      rcases List.mem_cons.1 member with rfl | later
      · rw [Token.stop_ofChars]
        omega
      · have bound := ih piece later
        omega

theorem HasComment.apart {cs taken : List Char} {pieces : List Token} {start : Nat}
    (has : HasComment text windows offset cs pieces start taken) :
    ∀ piece ∈ pieces, piece.stop ≤ start ∨ start + byteLength taken ≤ piece.start := by
  obtain ⟨before, after, left, right, rfl, rfl, rfl, front, _, back⟩ := has
  intro piece member
  rcases List.mem_append.1 member with inFront | inBack
  · exact Or.inl (front.stop_le piece inFront)
  · exact Or.inr (back.start_le piece inBack)

/-- A comment that reading a text passes over: it stands between the pieces of the tree, and the
window of the tree that it stands in delimits it. -/
def Tree.Skips (settings : Settings) (text : String) (start : Nat) (taken : List Char) : Prop :=
  let node := read settings text none
  HasComment text (node.allWindows text settings.separator 0 text.utf8ByteSize) 0 text.toList
    node.pieces start taken

end ClassExpr
