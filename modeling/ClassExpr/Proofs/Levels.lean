import ClassExpr.Completion
import ClassExpr.Hover
import ClassExpr.Proofs.Tree.Window
import ClassExpr.Spread

set_option autoImplicit false

/-! Levels that are not needed. Each level down is paid for with a parenthesis or a separator in
front of its interior, so a text with no more of them than there are levels never reaches the last
one, and further levels change neither its tree nor any answer about it. -/

namespace ClassExpr

open Text

namespace Tree

variable {settings other : Settings} {text : String}

private theorem weight_le_of_occurs {whole cs : List Char} {offset : Nat} (separator : List Char)
    (occurs : Occurs whole offset cs) : weight separator cs ≤ weight separator whole := by
  obtain ⟨before, after, rfl, _⟩ := occurs
  calc weight separator cs
      ≤ weight separator (cs ++ after) := weight_le_append separator cs after
    _ ≤ weight separator (before ++ (cs ++ after)) := weight_append_le separator before _
    _ = weight separator (before ++ cs ++ after) := by rw [List.append_assoc]

/-- A window is read alike with any two numbers of levels that its parentheses and separators do not
use up. -/
theorem sequence_levels {reading : Reading} (nonempty : reading.separator ≠ []) {levels others : Nat}
    {cs : List Char} (enough : weight reading.separator cs < levels)
    (ample : weight reading.separator cs < others) (offset : Nat) :
    sequence reading others offset cs = sequence reading levels offset cs := by
  have still : Moves 0 reading reading := ⟨rfl, nonempty, fun _ _ => rfl⟩
  -- a shift by nothing is the same on both sides
  have first := sequence_shift still (Or.inr ⟨enough, ample⟩) offset
  have second := @sequence_shift _ _ 0 still levels levels cs (Or.inl rfl) offset
  exact first.trans second.symm

private theorem readRange_levels (valid : settings.fault? = none)
    (same : other.separator = settings.separator)
    (enough : weight settings.separator.toList text.toList ≤ settings.maxDepth)
    (ample : weight settings.separator.toList text.toList ≤ other.maxDepth)
    (start stop : Nat) (limit : Option Nat) :
    readRange other text start stop limit = readRange settings text start stop limit := by
  have nonempty := (Settings.separator_sound valid).nonempty
  obtain ⟨occurs, _⟩ := occurs_window text.toList start stop
  have inside := weight_le_of_occurs settings.separator.toList occurs
  unfold readRange
  rw [same]
  exact sequence_levels nonempty (Nat.lt_succ_of_le (Nat.le_trans inside enough))
    (Nat.lt_succ_of_le (Nat.le_trans inside ample)) _

/-- Two settings that differ in the number of levels only give the same tree of every window and the
same answers, where neither number is below that of the parentheses and separators of the text. -/
theorem depth_invisible (settings other : Settings) (text : String)
    (valid : settings.fault? = none) (same : other.separator = settings.separator)
    (enough : weight settings.separator.toList text.toList ≤ settings.maxDepth)
    (ample : weight settings.separator.toList text.toList ≤ other.maxDepth) :
    (∀ start stop limit,
        readRange other text start stop limit = readRange settings text start stop limit) ∧
      Spread.ofText other text = Spread.ofText settings text ∧
      (∀ position, Hover.atPosition? other text position = Hover.atPosition? settings text position) ∧
      ∀ cursor, Completion.atCursor other text cursor = Completion.atCursor settings text cursor := by
  have trees := readRange_levels valid same enough ample
  have read_eq : ∀ limit, read other text limit = read settings text limit := trees 0 _
  refine ⟨trees, ?_, ?_, ?_⟩
  · simp only [Spread.ofText, read_eq]
  · intro position
    simp only [Hover.atPosition?, read_eq]
  · intro cursor
    simp only [Completion.atCursor, read_eq]

/-- A separator that overlaps itself and a parenthesis take three levels. -/
theorem depth_invisible_overlapping :
    ({ separator := "::", maxDepth := 3 } : Settings).fault? = none ∧
      weight "::".toList "a:::(b c)".toList = 3 ∧
      Spread.ofText { separator := "::", maxDepth := 256 } "a:::(b c)" =
        Spread.ofText { separator := "::", maxDepth := 3 } "a:::(b c)" := by
  have valid : ({ separator := "::", maxDepth := 3 } : Settings).fault? = none := by decide
  have three : weight "::".toList "a:::(b c)".toList = 3 := by decide
  have answers := depth_invisible { separator := "::", maxDepth := 3 }
    { separator := "::", maxDepth := 256 } "a:::(b c)" valid rfl (by decide) (by decide)
  exact ⟨valid, three, answers.2.1⟩

end Tree

end ClassExpr
