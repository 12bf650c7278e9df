import ClassExpr.Proofs.Joining.Lookahead
import ClassExpr.Proofs.Tree.Complete

set_option autoImplicit false

/-! Nodes that nothing behind them adds to. A leaf or a group whose delimiters are all there ends
with its last delimiter or marker, and a variant ends with the group that it applies to; so each of
these is read alike in front of a line feed, whatever follows. -/

namespace ClassExpr

open Text

namespace Node

/-- A leaf, a group, or a variant that applies to a group at once. -/
def isDelimited : Node → Bool
  | .leaf _ => true
  | .group .. => true
  | .variantSpan _ _ (some (.group ..)) => true
  | _ => false

def isSealed : Node → Bool
  | .leaf item => item.closed && item.opacity?.all (·.closed)
  | .group _ _ closed _ => closed
  | .variantSpan _ _ (some (.group _ _ closed _)) => closed
  | _ => false

private theorem isSealed_variantSpan {range : Token} {variant : Variant} {child : Node}
    (closed : (variantSpan range variant (some child)).isSealed = true) :
    child.kind = .group ∧ child.isSealed = true := by
  cases child with
  | group _ _ _ _ => exact ⟨rfl, closed⟩
  | declaration _ _ => cases closed
  | variantSpan _ _ _ => cases closed
  | leaf _ => cases closed

end Node

namespace Tree

variable {reading : Reading} {interior : Interior} {offset : Nat} (more : List Char)

private theorem isEmptyBody_lineFeed {cs : List Char} (something : isEmptyBody cs = false) :
    isEmptyBody (cs ++ '\n' :: more) = false := by
  obtain ⟨c, cs, rfl⟩ : ∃ c rest, cs = c :: rest := by
    cases cs with
    | nil => cases something
    | cons c cs => exact ⟨c, cs, rfl⟩
  rw [← something, isEmptyBody, isEmptyBody, Comment.startsLine_lineFeed, Comment.startsBlock_lineFeed]
  rfl

private theorem group_lineFeed (interior : Interior) (offset : Nat) {lead cs : List Char}
    (marked : IsMarker lead ('(' :: cs))
    (closed : (group interior offset (lead ++ '(' :: cs)).isSealed = true) :
    group interior offset (lead ++ '(' :: cs ++ '\n' :: more) =
      group interior offset (lead ++ '(' :: cs) := by
  cases matching : Bracket.split? .parens [] ('(' :: cs) with
  | none =>
      rw [group_open interior offset marked matching] at closed
      cases closed
  | some parts =>
      obtain ⟨content, after⟩ := parts
      obtain ⟨inside, after, rfl, rfl, rfl⟩ := Bracket.split?_parens matching
      have longer := Bracket.split?_parens_ahead matching (after ++ '\n' :: more)
      have marks := marked.lineFeed more
      have here := group_of_split interior offset marked matching
      have there := @group_of_split interior offset lead inside (after ++ '\n' :: more)
        (by simpa using marks) longer
      rw [marker_lineFeed] at there
      rw [List.cons_append] at here there
      rw [here, ← there]
      simp

theorem GroupAt.starts {taken rest : List Char} {node : Node}
    (groupAt : GroupAt interior offset taken rest node) :
    ((taken ++ rest).drop (marker (taken ++ rest)).length).head? = some '(' := by
  cases groupAt with
  | @opened lead inside marked _ =>
      rw [List.append_nil, marker_append marked, List.drop_left]
      rfl
  | @closed lead inside trail _ marked _ _ =>
      have parts : lead ++ '(' :: inside ++ ')' :: trail ++ rest =
          lead ++ ('(' :: inside ++ ')' :: (trail ++ rest)) := by simp
      rw [parts, marker_append marked, List.drop_left]
      rfl

private theorem variantSpan_lineFeed (framed : Framed interior)
    (proper : ∀ offset cs, (interior offset cs).AllProper) {variant : Variant} {cs : List Char}
    (closed : (variantSpan reading interior variant cs).isSealed = true) :
    variantSpan reading interior variant (cs ++ '\n' :: more) =
      variantSpan reading interior variant cs := by
  cases something : isEmptyBody cs with
  | true =>
      unfold variantSpan at closed
      rw [if_pos something] at closed
      cases closed
  | false =>
      rcases group_cases cs with ⟨lead, inside, rfl, marked⟩ | ungrouped
      · obtain ⟨taken, rest, whole, groupAt⟩ := groupAt_group interior variant.range.stop marked
        have here := variantSpan_of_child something (attached_group reading interior _ marked)
          groupAt.range_eq whole
        rw [here] at closed ⊢
        have same := group_lineFeed more interior _ marked (Node.isSealed_variantSpan closed).2
        apply variantSpan_of_child (isEmptyBody_lineFeed more something) _ groupAt.range_eq
          (show lead ++ '(' :: inside ++ '\n' :: more = taken ++ (rest ++ '\n' :: more) by
            rw [whole, List.append_assoc])
        rw [← same, List.append_assoc, List.cons_append]
        exact attached_group reading interior variant.range.stop (marked.lineFeed more)
      · obtain ⟨body, rest, whole, spanAt⟩ := @spanAt_variantSpan reading _ framed variant cs
        generalize variantSpan reading interior variant cs = node at closed spanAt
        cases spanAt with
        | empty nothing => cases closed
        | group _ groupAt => exact absurd groupAt.starts (by rwa [← whole])
        | item _ single _ range _ _ =>
            exact absurd (Node.isSealed_variantSpan closed).1 (kind_ne_group (proper _ _) range
              (by rwa [← List.append_assoc]))

private theorem opacity?_lineFeed {cs : List Char}
    (closed : (opacity? offset cs).all (·.closed) = true) :
    opacity? offset (cs ++ '\n' :: more) = opacity? offset cs := by
  cases cs with
  | nil => rfl
  | cons c rest =>
      by_cases slash : c = '/'
      · subst slash
        by_cases square : rest.head? = some '['
        · obtain ⟨inside, rfl⟩ := List.head?_eq_some_iff.1 square
          cases matching : Bracket.split? .square [] ('[' :: inside) with
          | none =>
              rw [opacity?_open matching] at closed
              cases closed
          | some parts =>
              obtain ⟨content, after⟩ := parts
              obtain ⟨value, after, rfl, rfl, rfl⟩ := Bracket.split?_square matching
              have longer := Bracket.split?_square_ahead matching (after ++ '\n' :: more)
              have here := @opacity?_closed offset value after matching
              have there := @opacity?_closed offset value (after ++ '\n' :: more) longer
              rw [← here] at there
              simpa using there
        · have unbracketed : (rest ++ '\n' :: more).head? ≠ some '[' := by
            rwa [Ne, head?_lineFeed more (by decide)]
          rw [List.cons_append, opacity?_digits offset square, opacity?_digits offset unbracketed,
            splitRun_lineFeed more rfl fun _ _ => rfl]
      · rw [opacity?_none offset (by simpa using slash), opacity?_none offset (by simpa using slash)]

private theorem closedLeaf_lineFeed {lead body rest : List Char} {stem content : Token}
    (closed : (Node.leaf (closedLeaf offset lead stem body content rest)).isSealed = true) :
    closedLeaf offset lead stem body content (rest ++ '\n' :: more) =
      closedLeaf offset lead stem body content rest := by
  have behind : stem.text.toList.getLast? = some '-' →
      opacity? (offset + byteLength lead + byteLength body) (rest ++ '\n' :: more) =
        opacity? (offset + byteLength lead + byteLength body) rest := by
    intro styled
    apply opacity?_lineFeed
    simpa [closedLeaf, bracketLeaf, styled, Node.isSealed, Leaf.closed, Leaf.opacity?] using closed
  have same : (if (stem.text.toList.getLast? == some '-') = true then
      opacity? (offset + byteLength lead + byteLength body) (rest ++ '\n' :: more) else none) =
      if (stem.text.toList.getLast? == some '-') = true then
        opacity? (offset + byteLength lead + byteLength body) rest else none := by
    split
    next styled => exact behind (beq_iff_eq.1 styled)
    · rfl
  unfold closedLeaf
  simp only [same]
  generalize found : (if (stem.text.toList.getLast? == some '-') = true then
    opacity? (offset + byteLength lead + byteLength body) rest else none) = opacity
  -- the opacity stands in front of the line feed, and so does the marker behind it
  have short : ((opacity.map (·.range.text.toList)).getD []).length ≤ rest.length := by
    obtain ⟨suffix, left, rfl, taken, _⟩ := exists_opacity_text found
    rw [taken, List.length_append]
    exact Nat.le_add_right _ _
  rw [List.drop_append_of_le_length short, marker_lineFeed]

private theorem bracket_lineFeed (framed : Framed interior)
    (proper : ∀ offset cs, (interior offset cs).AllProper) (free : '\n' ∉ reading.separator)
    {lead stem cs : List Char} (marked : IsMarker lead (stem ++ '[' :: cs))
    (closed : (bracket reading interior offset (.ofChars (offset + byteLength lead) stem)
      (lead ++ stem ++ '[' :: cs)).isSealed = true) :
    bracket reading interior offset (.ofChars (offset + byteLength lead) stem)
        (lead ++ stem ++ '[' :: cs ++ '\n' :: more) =
      bracket reading interior offset (.ofChars (offset + byteLength lead) stem)
        (lead ++ stem ++ '[' :: cs) := by
  cases matching : Bracket.split? .square [] ('[' :: cs) with
  | none =>
      rw [bracket_open reading interior offset marked matching, openBracket] at closed
      split at closed
      · cases closed
      · simp [Node.isSealed, bracketLeaf_closed] at closed
  | some parts =>
      obtain ⟨content, after⟩ := parts
      obtain ⟨value, rest, rfl, rfl, rfl⟩ := Bracket.split?_square matching
      have longer := Bracket.split?_square_ahead matching (rest ++ '\n' :: more)
      have further : IsMarker lead (stem ++ '[' :: (value ++ ']' :: (rest ++ '\n' :: more))) := by
        simpa using marked.lineFeed more
      have parts : lead ++ stem ++ '[' :: (value ++ ']' :: rest) ++ '\n' :: more =
          lead ++ stem ++ '[' :: (value ++ ']' :: (rest ++ '\n' :: more)) := by simp
      rw [parts]
      rcases separated_cases reading.separator lead rest with ⟨rfl, after, rfl⟩ | plain
      · rw [List.append_assoc] at further longer
        simp only [List.nil_append, byteLength_nil, Nat.add_zero,
          List.append_assoc reading.separator] at closed ⊢
        rw [bracket_variant reading interior offset marked matching] at closed ⊢
        rw [bracket_variant reading interior offset further longer]
        exact variantSpan_lineFeed more framed proper closed
      · have apart : (lead.isEmpty && reading.separator.isPrefixOf (rest ++ '\n' :: more)) = false := by
          rw [isPrefixOf_lineFeed more free, plain]
        rw [bracket_leaf reading interior offset marked matching plain] at closed ⊢
        rw [bracket_leaf reading interior offset further longer apart, closedLeaf_lineFeed more closed]

/-- What a lexeme begins is the same node in front of a line feed. -/
theorem node?_lineFeed (framed : Framed interior)
    (proper : ∀ offset cs, (interior offset cs).AllProper) (free : '\n' ∉ reading.separator)
    {front after : List Char} {lexeme : Lexeme} {node : Node}
    (scans : Lexeme.Scans reading.separator offset front after lexeme)
    (begun : node? reading interior offset (front ++ after) after lexeme = some node)
    (closed : node.isSealed = true) :
    node? reading interior offset (front ++ after ++ '\n' :: more) (after ++ '\n' :: more) lexeme =
      some node := by
  cases scans with
  | lineComment _ _ => cases begun
  | blockComment => cases begun
  | variant _ _ =>
      cases begun
      rw [node?, variantSpan_lineFeed more framed proper closed]
  | @bracket lead stem _ marked _ =>
      rw [List.append_assoc _ ['['] after] at begun ⊢
      cases begun
      rw [node?]
      exact congrArg some (bracket_lineFeed more framed proper free marked closed)
  | className _ _ _ _ => exact begun
  | @group lead _ marked =>
      rw [List.append_assoc lead ['('] after] at begun ⊢
      cases begun
      exact congrArg some (group_lineFeed more interior offset marked closed)
  | unhandled _ => exact begun

end Tree

end ClassExpr
