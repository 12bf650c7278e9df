import ClassExpr.Body
import ClassExpr.Proofs.Comment
import ClassExpr.Proofs.Text.Occurrence
import ClassExpr.Proofs.Text.Sweep

set_option autoImplicit false

/-! The body of a variant is a prefix of what follows the variant, whether it is looked for in the
characters behind the variant or between two offsets of the whole text. -/

namespace ClassExpr.Body

open Text

theorem split_append (separator cs : List Char) :
    (split separator cs).1 ++ (split separator cs).2 = cs := by
  have whole := sweep_append (move ⟨separator, true⟩) .plain [] cs
  simpa [split] using whole

theorem split_cons (separator : List Char) {c : Char} {cs : List Char} (solid : isBlank c = false)
    (noLine : Comment.startsLine (c :: cs) = false)
    (noBlock : Comment.startsBlock (c :: cs) = false) :
    ∃ body, (split separator (c :: cs)).1 = c :: body := by
  have plain : ∃ next, move ⟨separator, true⟩ .plain [] c cs.head? = .advance next := by
    simp only [move, movePlain]
    split
    next blank => rw [isBlank_of_isAsciiBlank blank] at solid; cases solid
    · split
      · exact ⟨_, rfl⟩
      · split
        · exact ⟨_, rfl⟩
        · split
          next line =>
            obtain ⟨slash, ahead⟩ := Bool.and_eq_true_iff.1 line
            obtain ⟨rest, rfl⟩ := List.head?_eq_some_iff.1 (beq_iff_eq.1 ahead)
            rw [beq_iff_eq.1 slash] at noLine
            cases noLine
          · split
            next block =>
              obtain ⟨slash, ahead⟩ := Bool.and_eq_true_iff.1 block
              obtain ⟨rest, rfl⟩ := List.head?_eq_some_iff.1 (beq_iff_eq.1 ahead)
              rw [beq_iff_eq.1 slash] at noBlock
              cases noBlock
            · exact ⟨_, rfl⟩
  obtain ⟨next, moved⟩ := plain
  obtain ⟨passed, fronts, _⟩ := sweep_passed (move ⟨separator, true⟩) next [c] cs
  refine ⟨passed.reverse, ?_⟩
  rw [split, sweep_cons_advance (move ⟨separator, true⟩) moved]
  simp [fronts]

private theorem dropBefore_byteLength (left right : List Char) :
    dropBefore (byteLength left) (left ++ right) = right := by
  induction left with
  | nil => cases right <;> rfl
  | cons c left ih =>
      have positive := c.utf8Size_pos
      rw [byteLength_cons, List.cons_append]
      cases total : c.utf8Size + byteLength left with
      | zero => omega
      | succ size =>
          rw [dropBefore, show size + 1 - c.utf8Size = byteLength left by omega, ih]

/-- Between two boundaries of a text the body ends as it does in the characters between them. -/
theorem findEnd_eq {text : String} {start : Nat} {cs : List Char} (separator : String)
    (occurs : Occurs text.toList start cs) :
    findEnd text start (start + byteLength cs) separator =
      start + byteLength (split separator.toList cs).1 := by
  have inside := occurs.stop_le
  obtain ⟨before, after, whole, rfl⟩ := occurs
  have cut : splitBytes (byteLength before + byteLength cs) text.toList = (before ++ cs, after) := by
    rw [whole, ← byteLength_append, splitBytes_byteLength]
  have size := congrArg byteLength (split_append separator.toList cs)
  rw [byteLength_append] at size
  unfold findEnd
  unfold split at size ⊢
  simp only [cut, dropBefore_byteLength, byteLength_append, Nat.add_sub_cancel, beq_self_eq_true]
    at size ⊢
  generalize sweep (move ⟨separator.toList, true⟩) .plain [] cs = swept at size ⊢
  split
  next ended =>
    obtain ⟨atEnd, _⟩ := Bool.and_eq_true_iff.1 ended
    rw [List.isEmpty_iff.1 atEnd, byteLength_nil] at size
    omega
  · omega

end ClassExpr.Body
