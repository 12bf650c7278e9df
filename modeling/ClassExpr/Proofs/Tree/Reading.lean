import ClassExpr.Proofs.Body
import ClassExpr.Proofs.Tree.Step

set_option autoImplicit false

/-! Reading stays within its steps: whatever a lexeme begins is a node of the step relations, and
the items of a window are such nodes between white space and comments. -/

namespace ClassExpr.Tree

open Text

/-- A group whose closer is not found takes all of its window. -/
theorem group_open (interior : Interior) (offset : Nat) {lead inside : List Char}
    (marked : IsMarker lead ('(' :: inside))
    (unmatched : Bracket.split? .parens [] ('(' :: inside) = none) :
    group interior offset (lead ++ '(' :: inside) =
      .group (.ofChars offset (lead ++ '(' :: inside))
        (interior (offset + byteLength lead + 1) inside) false (!lead.isEmpty) := by
  unfold group
  simp only [marker_append marked, List.drop_left, unmatched, List.tail_cons]

/-- A group whose closer is found ends with it and the marker behind it. -/
theorem group_of_split (interior : Interior) (offset : Nat) {lead inside after : List Char}
    (marked : IsMarker lead ('(' :: inside ++ ')' :: after))
    (matched : Bracket.split? .parens [] ('(' :: inside ++ ')' :: after) =
      some ('(' :: inside, ')' :: after)) :
    group interior offset (lead ++ ('(' :: inside ++ ')' :: after)) =
      .group (.ofChars offset (lead ++ '(' :: inside ++ [')'] ++ marker after))
        (interior (offset + byteLength lead + 1) inside) true
        (!lead.isEmpty || !(marker after).isEmpty) := by
  unfold group
  simp only [marker_append marked, List.drop_left, matched, List.tail_cons, List.take_succ_cons,
    List.take_zero]

/-- A group node goes by its marker, its matching closer and the marker behind that. -/
theorem groupAt_group (interior : Interior) (offset : Nat) {lead cs : List Char}
    (marked : IsMarker lead ('(' :: cs)) :
    ∃ taken rest, lead ++ '(' :: cs = taken ++ rest ∧
      GroupAt interior offset taken rest (group interior offset (lead ++ '(' :: cs)) := by
  cases matching : Bracket.split? .parens [] ('(' :: cs) with
  | none =>
      refine ⟨lead ++ '(' :: cs, [], by simp, ?_⟩
      rw [group_open interior offset marked matching]
      exact GroupAt.opened marked matching
  | some parts =>
      obtain ⟨content, closed⟩ := parts
      obtain ⟨inside, after, rfl, rfl, rfl⟩ := Bracket.split?_parens matching
      have grouped := group_of_split interior offset marked matching
      obtain ⟨rest, whole, trailing, _⟩ := exists_marker after
      generalize marker after = trail at whole trailing grouped
      subst whole
      refine ⟨lead ++ '(' :: inside ++ ')' :: trail, rest, by simp, ?_⟩
      have closing : GroupAt interior offset _ rest _ := GroupAt.closed marked trailing matching
      rw [List.cons_append] at grouped
      rw [grouped]
      simpa using closing

theorem isEmptyBody_split {separator cs : List Char} (something : isEmptyBody cs = false) :
    isEmptyBody (Body.split separator cs).1 = false := by
  cases cs with
  | nil => cases something
  | cons c cs =>
      simp only [isEmptyBody, Bool.or_eq_false_iff, List.head?_cons, Option.all_some] at something
      obtain ⟨⟨solid, noLine⟩, noBlock⟩ := something
      obtain ⟨body, start⟩ := Body.split_cons separator solid noLine noBlock
      have whole := Body.split_append separator (c :: cs)
      rw [start] at whole ⊢
      simp only [isEmptyBody, Bool.or_eq_false_iff, List.head?_cons, Option.all_some]
      refine ⟨⟨solid, ?_⟩, ?_⟩
      · rw [Bool.eq_false_iff] at noLine ⊢
        intro line
        obtain ⟨rest, same⟩ := Comment.startsLine_iff.1 line
        rw [same] at whole
        exact noLine (Comment.startsLine_iff.2 ⟨_, whole.symm⟩)
      · rw [Bool.eq_false_iff] at noBlock ⊢
        intro block
        obtain ⟨rest, same⟩ := Comment.startsBlock_iff.1 block
        rw [same] at whole
        exact noBlock (Comment.startsBlock_iff.2 ⟨_, whole.symm⟩)

def attached (reading : Reading) (interior : Interior) (offset : Nat) (cs : List Char) : Node :=
  if (cs.drop (marker cs).length).head? == some '(' then group interior offset cs
  else interior offset (Body.split reading.separator cs).1

theorem variantSpan_attached {reading : Reading} {interior : Interior} (variant : Variant)
    {cs : List Char} (something : isEmptyBody cs = false) :
    variantSpan reading interior variant cs =
      let child := attached reading interior variant.range.stop cs
      let body := (splitBytes (child.range.stop - variant.range.stop) cs).1
      .variantSpan (.ofChars variant.range.start (variant.range.text.toList ++ body)) variant
        (some child) := by
  unfold variantSpan
  rw [if_neg (by rw [something]; decide)]
  rfl

theorem variantSpan_of_child {reading : Reading} {interior : Interior} {variant : Variant}
    {cs taken rest : List Char} {child : Node} (something : isEmptyBody cs = false)
    (built : attached reading interior variant.range.stop cs = child)
    (range : child.range = .ofChars variant.range.stop taken) (whole : cs = taken ++ rest) :
    variantSpan reading interior variant cs =
      .variantSpan (.ofChars variant.range.start (variant.range.text.toList ++ taken)) variant
        (some child) := by
  rw [variantSpan_attached variant something]
  simp only [built, range, Token.stop_ofChars, Nat.add_sub_cancel_left]
  rw [whole, splitBytes_byteLength]

theorem isEmptyBody_group {lead cs : List Char} (leading : lead = [] ∨ lead = ['!']) :
    isEmptyBody (lead ++ '(' :: cs) = false := by
  rcases leading with rfl | rfl
  · rfl
  · rfl

theorem attached_group (reading : Reading) (interior : Interior) (offset : Nat)
    {lead cs : List Char} (marked : IsMarker lead ('(' :: cs)) :
    attached reading interior offset (lead ++ '(' :: cs) = group interior offset (lead ++ '(' :: cs) := by
  rw [attached, if_pos]
  rw [marker_append marked, List.drop_left]
  rfl

theorem attached_single (reading : Reading) (interior : Interior) (offset : Nat) {cs : List Char}
    (single : (cs.drop (marker cs).length).head? ≠ some '(') :
    attached reading interior offset cs = interior offset (Body.split reading.separator cs).1 := by
  rw [attached, if_neg (by simpa using single)]

theorem group_cases (cs : List Char) :
    (∃ lead inside, cs = lead ++ '(' :: inside ∧ IsMarker lead ('(' :: inside)) ∨
      (cs.drop (marker cs).length).head? ≠ some '(' := by
  obtain ⟨following, whole, marked, dropped⟩ := exists_marker cs
  rw [dropped]
  by_cases grouped : following.head? = some '('
  · obtain ⟨inside, rfl⟩ := List.head?_eq_some_iff.1 grouped
    exact Or.inl ⟨marker cs, inside, whole, marked⟩
  · exact Or.inr grouped

/-- What follows a variant is attached to it as the steps say. -/
theorem spanAt_variantSpan {reading : Reading} {interior : Interior} (framed : Framed interior)
    {variant : Variant} (cs : List Char) :
    ∃ body rest, cs = body ++ rest ∧
      SpanAt reading interior variant body rest (variantSpan reading interior variant cs) := by
  cases something : isEmptyBody cs with
  | true =>
      unfold variantSpan
      rw [if_pos something]
      exact ⟨[], cs, rfl, SpanAt.empty something⟩
  | false =>
      rcases group_cases cs with ⟨lead, inside, rfl, marked⟩ | single
      · obtain ⟨body, rest, parts, groupAt⟩ := groupAt_group interior variant.range.stop marked
        refine ⟨body, rest, parts, ?_⟩
        rw [variantSpan_of_child something (attached_group reading interior _ marked)
          groupAt.range_eq parts]
        rw [parts] at something
        exact SpanAt.group something groupAt
      · have built := attached_single reading interior variant.range.stop single
        have delimited := Body.split_append reading.separator cs
        have solid : isEmptyBody (Body.split reading.separator cs).1 = false :=
          isEmptyBody_split something
        cases splitAt : Body.split reading.separator cs with
        | mk window rest =>
            rw [splitAt] at delimited solid built
            obtain ⟨lead, body, tail, parts, range, start⟩ := framed variant.range.stop window
            obtain ⟨rfl, nonempty, notBlank⟩ := start solid
            rw [List.nil_append] at parts
            rw [byteLength_nil, Nat.add_zero] at range
            subst parts delimited
            refine ⟨body, tail ++ rest, by simp, ?_⟩
            rw [variantSpan_of_child something built range (List.append_assoc body tail rest)]
            exact SpanAt.item something single splitAt range nonempty notBlank

private theorem opacity?_square (offset : Nat) (rest : List Char) :
    opacity? offset ('/' :: '[' :: rest) =
      match Bracket.split? .square [] ('[' :: rest) with
      | none => some ⟨.ofChars offset ('/' :: '[' :: rest), .ofChars (offset + 2) rest, true, false⟩
      | some (content, closed) =>
          some ⟨.ofChars offset ('/' :: content ++ closed.take 1),
            .ofChars (offset + 2) content.tail, true, true⟩ := rfl

theorem opacity?_none {cs : List Char} (offset : Nat) (noSlash : cs.head? ≠ some '/') :
    opacity? offset cs = none := by
  unfold opacity?
  split
  · exact absurd rfl noSlash
  · exact absurd rfl noSlash
  · rfl

theorem opacity?_digits {rest : List Char} (offset : Nat) (unbracketed : rest.head? ≠ some '[') :
    opacity? offset ('/' :: rest) =
      match (splitRun (fun c _ => c.isDigit) rest).1 with
      | [] => none
      | digits => some ⟨.ofChars offset ('/' :: digits), .ofChars (offset + 1) digits, false, true⟩ := by
  cases rest with
  | nil => rfl
  | cons c rest =>
      unfold opacity?
      split
      next same =>
        rw [List.cons.injEq, List.cons.injEq] at same
        rw [same.2.1] at unbracketed
        exact absurd rfl unbracketed
      next same =>
        rw [List.cons.injEq] at same
        obtain ⟨_, rfl⟩ := same
        rfl
      next _ other => exact absurd rfl (other (c :: rest))

theorem opacity?_open {offset : Nat} {inside : List Char}
    (unmatched : Bracket.split? .square [] ('[' :: inside) = none) :
    opacity? offset ('/' :: '[' :: inside) =
      some ⟨.ofChars offset ('/' :: '[' :: inside), .ofChars (offset + 2) inside, true, false⟩ := by
  rw [opacity?_square, unmatched]

theorem opacity?_closed {offset : Nat} {value after : List Char}
    (matched : Bracket.split? .square [] ('[' :: value ++ ']' :: after) =
      some ('[' :: value, ']' :: after)) :
    opacity? offset ('/' :: '[' :: value ++ ']' :: after) =
      some ⟨.ofChars offset ('/' :: '[' :: value ++ [']']), .ofChars (offset + 2) value, true, true⟩ := by
  rw [List.cons_append] at matched
  rw [List.cons_append, List.cons_append, opacity?_square, matched]
  rfl

private theorem spelled_of_opacity? {offset : Nat} {cs : List Char} {opacity : Opacity}
    (found : opacity? offset cs = some opacity) :
    ∃ taken rest, cs = taken ++ rest ∧ opacity.Spelled offset taken rest := by
  by_cases slash : cs.head? = some '/'
  · obtain ⟨rest, rfl⟩ := List.head?_eq_some_iff.1 slash
    by_cases bracketed : rest.head? = some '['
    · obtain ⟨inside, rfl⟩ := List.head?_eq_some_iff.1 bracketed
      cases matching : Bracket.split? .square [] ('[' :: inside) with
      | none =>
          rw [opacity?_open matching] at found
          cases found
          exact ⟨'/' :: '[' :: inside, [], by simp, Opacity.Spelled.opened⟩
      | some parts =>
          obtain ⟨content, closed⟩ := parts
          obtain ⟨value, after, rfl, rfl, rfl⟩ := Bracket.split?_square matching
          rw [← List.cons_append, ← List.cons_append, opacity?_closed matching] at found
          cases found
          exact ⟨'/' :: '[' :: value ++ [']'], after, by simp, Opacity.Spelled.closed ⟨after, matching⟩⟩
    · rw [opacity?_digits offset bracketed] at found
      have whole := splitRun_append (fun c _ => c.isDigit) rest
      have ⟨numeric, _⟩ := Lexeme.splitRun_forall Char.isDigit rest
      split at found
      · cases found
      next digits nonempty =>
        cases found
        exact ⟨'/' :: (splitRun (fun c _ => c.isDigit) rest).1,
          (splitRun (fun c _ => c.isDigit) rest).2, by simp [whole],
          Opacity.Spelled.number nonempty numeric⟩
  · rw [opacity?_none offset slash] at found
    cases found

theorem exists_opacity_text {looked : Bool} {offset : Nat} {rest : List Char}
    {opacity : Option Opacity}
    (found : (if looked = true then opacity? offset rest else none) = opacity) :
    ∃ suffix left, rest = suffix ++ left ∧
      (opacity.map (·.range.text.toList)).getD [] = suffix ∧
      (opacity.map (·.range.stop)).getD offset = offset + byteLength suffix := by
  cases opacity with
  | none => exact ⟨[], rest, rfl, rfl, rfl⟩
  | some opacity =>
      split at found
      · obtain ⟨suffix, left, whole, spelled⟩ := spelled_of_opacity? found
        refine ⟨suffix, left, whole, ?_, ?_⟩
        · rw [Option.map_some, Option.getD_some, spelled.range_eq, Token.toList_ofChars]
        · rw [Option.map_some, Option.getD_some, spelled.range_eq, Token.stop_ofChars]
      · cases found

theorem nodeAt_openBracket {reading : Reading} {interior : Interior} (offset : Nat)
    {lead stem value : List Char} (marked : IsMarker lead (stem ++ '[' :: value))
    (unmatched : Bracket.split? .square [] ('[' :: value) = none) :
    NodeAt reading interior offset (lead ++ stem ++ '[' :: value) []
      (openBracket offset lead (.ofChars (offset + byteLength lead) stem)
        (lead ++ stem ++ '[' :: value) value) := by
  unfold openBracket
  simp only [Token.isEmpty_ofChars, Token.stop_ofChars]
  by_cases bare : stem = [] ∧ lead = []
  · obtain ⟨rfl, rfl⟩ := bare
    exact NodeAt.openVariant unmatched
  · rw [if_neg (by simpa using bare), List.append_assoc lead stem ('[' :: value), List.drop_left,
      ← List.append_assoc lead stem ('[' :: value)]
    exact NodeAt.leaf (LeafAt.openBracket marked unmatched)

theorem leafAt_closedLeaf (offset : Nat) {lead stem value rest : List Char}
    (marked : IsMarker lead (stem ++ '[' :: value ++ [']'] ++ rest))
    (isStem : Lexeme.IsStem stem) (enclosed : Bracket.Encloses value) :
    ∃ taken left, lead ++ (stem ++ '[' :: value ++ [']']) ++ rest = taken ++ left ∧
      LeafAt offset taken left
        (closedLeaf offset lead (.ofChars (offset + byteLength lead) stem)
          (stem ++ '[' :: value ++ [']'])
          (.ofChars (offset + byteLength lead + byteLength stem + 1) value) rest) := by
  unfold closedLeaf
  simp only [Token.toList_ofChars]
  generalize opacityAt : (if (stem.getLast? == some '-') = true then
    opacity? (offset + byteLength lead + byteLength (stem ++ '[' :: value ++ [']'])) rest
    else none) = opacity
  cases opacity with
  | none =>
      obtain ⟨left, whole, trailing, _⟩ := exists_marker rest
      simp only [Option.map_none, Option.getD_none, List.append_nil, List.length_nil,
        List.drop_zero]
      generalize marker rest = trail at whole trailing
      subst whole
      exact ⟨lead ++ (stem ++ '[' :: value ++ [']']) ++ trail, left, by simp,
        LeafAt.closedBracket (by simpa using marked) trailing isStem enclosed⟩
  | some opacity =>
      by_cases styled : stem.getLast? = some '-'
      · rw [if_pos (by simp [styled])] at opacityAt
        obtain ⟨suffix, after, whole, spelled⟩ := spelled_of_opacity? opacityAt
        subst whole
        obtain ⟨left, whole, trailing, _⟩ := exists_marker after
        simp only [Option.map_some, Option.getD_some, spelled.range_eq, Token.toList_ofChars,
          List.drop_left]
        generalize marker after = trail at whole trailing
        subst whole
        refine ⟨lead ++ (stem ++ '[' :: value ++ [']'] ++ suffix) ++ trail, left, by simp, ?_⟩
        rw [List.append_assoc lead (stem ++ '[' :: value ++ [']']) suffix]
        exact LeafAt.withOpacity (by simpa using marked) trailing isStem enclosed styled spelled
      · rw [if_neg (by simpa using styled)] at opacityAt
        cases opacityAt

section

variable (reading : Reading) (interior : Interior) (offset : Nat) {lead stem value rest after : List Char}

theorem bracket_open (marked : IsMarker lead (stem ++ '[' :: rest))
    (unmatched : Bracket.split? .square [] ('[' :: rest) = none) :
    bracket reading interior offset (.ofChars (offset + byteLength lead) stem)
        (lead ++ stem ++ '[' :: rest) =
      openBracket offset lead (.ofChars (offset + byteLength lead) stem)
        (lead ++ stem ++ '[' :: rest) rest := by
  have leading : marker (lead ++ stem ++ '[' :: rest) = lead := by
    rw [List.append_assoc]
    exact marker_append marked
  unfold bracket
  simp only [leading, Token.toList_ofChars, ← List.length_append, List.drop_left, unmatched]
  rfl

/-- A bracket whose closer is found is a variant in front of the separator, or a leaf. -/
theorem bracket_of_split (marked : IsMarker lead (stem ++ '[' :: (value ++ ']' :: rest)))
    (matched : Bracket.split? .square [] ('[' :: (value ++ ']' :: rest)) =
      some ('[' :: value, ']' :: rest)) :
    bracket reading interior offset (.ofChars (offset + byteLength lead) stem)
        (lead ++ stem ++ '[' :: (value ++ ']' :: rest)) =
      let stem := Token.ofChars (offset + byteLength lead) stem
      let body := stem.text.toList ++ '[' :: value ++ [']']
      let content := Token.ofChars (stem.stop + 1) value
      if lead.isEmpty && reading.separator.isPrefixOf rest then
        let identifier := Token.ofChars offset body
        let separator := Token.ofChars identifier.stop reading.separator
        let range := Token.ofChars offset (body ++ reading.separator)
        variantSpan reading interior
          (.bracket ⟨range, identifier, stem, content, some separator, true⟩)
          (rest.drop reading.separator.length)
      else .leaf (closedLeaf offset lead stem body content rest) := by
  have leading : marker (lead ++ stem ++ '[' :: (value ++ ']' :: rest)) = lead := by
    rw [List.append_assoc]
    exact marker_append marked
  unfold bracket
  simp only [leading, Token.toList_ofChars, ← List.length_append, List.drop_left, matched,
    List.tail_cons, List.take_succ_cons, List.take_zero]

theorem bracket_variant
    (marked : IsMarker [] (stem ++ '[' :: (value ++ ']' :: (reading.separator ++ after))))
    (matched : Bracket.split? .square [] ('[' :: (value ++ ']' :: (reading.separator ++ after))) =
      some ('[' :: value, ']' :: (reading.separator ++ after))) :
    bracket reading interior offset (.ofChars offset stem)
        (stem ++ '[' :: (value ++ ']' :: (reading.separator ++ after))) =
      variantSpan reading interior
        (.bracket ⟨.ofChars offset (stem ++ '[' :: value ++ [']'] ++ reading.separator),
          .ofChars offset (stem ++ '[' :: value ++ [']']), .ofChars offset stem,
          .ofChars (offset + byteLength stem + 1) value,
          some (.ofChars (offset + byteLength (stem ++ '[' :: value ++ [']'])) reading.separator),
          true⟩) after := by
  have solved := bracket_of_split reading interior offset marked matched
  have separated : reading.separator.isPrefixOf (reading.separator ++ after) = true :=
    List.isPrefixOf_iff_prefix.2 (List.prefix_append _ _)
  simpa only [List.nil_append, byteLength_nil, Nat.add_zero, Token.toList_ofChars,
    Token.stop_ofChars, List.isEmpty_nil, Bool.true_and, separated, if_true, List.drop_left]
    using solved

theorem bracket_leaf (marked : IsMarker lead (stem ++ '[' :: (value ++ ']' :: rest)))
    (matched : Bracket.split? .square [] ('[' :: (value ++ ']' :: rest)) =
      some ('[' :: value, ']' :: rest))
    (plain : (lead.isEmpty && reading.separator.isPrefixOf rest) = false) :
    bracket reading interior offset (.ofChars (offset + byteLength lead) stem)
        (lead ++ stem ++ '[' :: (value ++ ']' :: rest)) =
      .leaf (closedLeaf offset lead (.ofChars (offset + byteLength lead) stem)
        (stem ++ '[' :: value ++ [']'])
        (.ofChars (offset + byteLength lead + byteLength stem + 1) value) rest) := by
  have solved := bracket_of_split reading interior offset marked matched
  simpa only [plain, Token.toList_ofChars, Token.stop_ofChars, Bool.false_eq_true, if_false]
    using solved

theorem separated_cases (separator lead rest : List Char) :
    (lead = [] ∧ ∃ after, rest = separator ++ after) ∨
      (lead.isEmpty && separator.isPrefixOf rest) = false := by
  cases separated : lead.isEmpty && separator.isPrefixOf rest with
  | false => exact Or.inr rfl
  | true =>
      obtain ⟨bare, prefixed⟩ := Bool.and_eq_true_iff.1 separated
      obtain ⟨after, whole⟩ := List.isPrefixOf_iff_prefix.1 prefixed
      exact Or.inl ⟨List.isEmpty_iff.1 bare, after, whole.symm⟩

end

/-- A stem with a bracket begins a variant or a leaf. -/
theorem nodeAt_bracket {reading : Reading} {interior : Interior} (framed : Framed interior)
    (offset : Nat) {lead stem cs : List Char} (marked : IsMarker lead (stem ++ '[' :: cs))
    (isStem : Lexeme.IsStem stem) : ∃ taken rest, lead ++ stem ++ '[' :: cs = taken ++ rest ∧
      NodeAt reading interior offset taken rest
        (bracket reading interior offset (.ofChars (offset + byteLength lead) stem)
          (lead ++ stem ++ '[' :: cs)) := by
  cases matching : Bracket.split? .square [] ('[' :: cs) with
  | none =>
      refine ⟨lead ++ stem ++ '[' :: cs, [], by simp, ?_⟩
      rw [bracket_open reading interior offset marked matching]
      exact nodeAt_openBracket offset marked matching
  | some parts =>
      obtain ⟨content, closed⟩ := parts
      obtain ⟨value, rest, rfl, rfl, rfl⟩ := Bracket.split?_square matching
      rcases separated_cases reading.separator lead rest with ⟨rfl, after, rfl⟩ | plain
      · rw [List.nil_append, byteLength_nil, Nat.add_zero,
          bracket_variant reading interior offset marked matching]
        obtain ⟨body, left, whole, spanAt⟩ := spanAt_variantSpan framed after
        subst whole
        refine ⟨_, left, ?_, NodeAt.span (Variant.Spelled.bracket isStem ⟨_, matching⟩) spanAt⟩
        simp
      · rw [bracket_leaf reading interior offset marked matching plain]
        obtain ⟨taken, left, whole, leafAt⟩ :=
          leafAt_closedLeaf offset (show IsMarker lead (stem ++ '[' :: value ++ [']'] ++ rest) by
            simpa using marked) isStem ⟨rest, matching⟩
        exact ⟨taken, left, by rw [← whole]; simp, NodeAt.leaf leafAt⟩

theorem nodeAt_of_scans {reading : Reading} {interior : Interior} (framed : Framed interior)
    {offset : Nat} {front after : List Char} {lexeme : Lexeme} {node : Node}
    (scans : Lexeme.Scans reading.separator offset front after lexeme)
    (begun : node? reading interior offset (front ++ after) after lexeme = some node) :
    ∃ taken rest, front ++ after = taken ++ rest ∧
      NodeAt reading interior offset taken rest node := by
  cases scans with
  | lineComment _ _ => cases begun
  | blockComment => cases begun
  | @variant name _ nonempty named =>
      cases begun
      simp only [Token.toList_ofChars]
      obtain ⟨body, rest, whole, spanAt⟩ := spanAt_variantSpan framed after
      subst whole
      refine ⟨name ++ reading.separator ++ body, rest, by simp, ?_⟩
      exact NodeAt.span (Variant.Spelled.named nonempty named) spanAt
  | @bracket lead stem _ marked isStem =>
      cases begun
      obtain ⟨taken, rest, whole, nodeAt⟩ :=
        nodeAt_bracket framed offset marked isStem
      refine ⟨taken, rest, by rw [← whole]; simp, ?_⟩
      rw [List.append_assoc _ ['['] after]
      exact nodeAt
  | className marked nonempty run trailing =>
      cases begun
      exact ⟨_, after, rfl, NodeAt.leaf (LeafAt.className marked nonempty run trailing)⟩
  | @group lead _ marked =>
      cases begun
      obtain ⟨taken, rest, whole, groupAt⟩ := groupAt_group interior offset marked
      refine ⟨taken, rest, by rw [← whole]; simp, ?_⟩
      rw [List.append_assoc lead ['('] after]
      exact NodeAt.group groupAt
  | unhandled nonempty =>
      cases begun
      exact ⟨front, after, rfl, NodeAt.leaf (LeafAt.unknown nonempty)⟩

end ClassExpr.Tree
