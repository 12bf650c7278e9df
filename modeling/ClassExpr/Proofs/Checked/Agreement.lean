import ClassExpr.Proofs.Checked.Tree

set_option autoImplicit false

/-! Reading by offsets agrees with reading characters. Each function is given the window that its
offsets stand for; it has a value there, and the value is that of the function on characters. -/

namespace ClassExpr.Checked

open Text ClassExpr.Tree

variable {reading : Reading} {interior? : Interior?} {interior : Interior} {text : String}

private theorem retake?_eq {separator taken rest : List Char} {offset : Nat} {lexeme : Lexeme}
    (scans : Lexeme.Scans separator offset taken rest lexeme)
    (occurs : Occurs text.toList offset taken) : retake? text lexeme = some lexeme := by
  cases scans with
  | lineComment _ _ =>
      simp only [retake?, Token.start_ofChars, Token.stop_ofChars, token?_eq occurs rfl,
        Option.bind_eq_bind, Option.bind_some]
  | blockComment =>
      simp only [retake?, Token.start_ofChars, Token.stop_ofChars, token?_eq occurs rfl,
        Option.bind_eq_bind, Option.bind_some]
  | variant _ _ =>
      simp only [retake?, Token.start_ofChars, Token.stop_ofChars, token?_eq occurs.left rfl,
        token?_eq occurs.right rfl, Option.bind_eq_bind, Option.bind_some]
  | @bracket lead stem _ marked _ =>
      have size := marker_size marked
      simp only [retake?, Token.start_ofChars, Token.stop_ofChars, size,
        token?_eq occurs.left.left rfl, token?_eq occurs.left.right rfl, Option.bind_eq_bind,
        Option.bind_some, Token.isEmpty_ofChars]
  | @className lead body trail _ marked _ _ _ =>
      have behind := occurs.right
      rw [byteLength_append] at behind
      have last : offset + byteLength lead + byteLength body + byteLength trail =
          offset + byteLength (lead ++ body ++ trail) := by
        simp only [byteLength_append]
        omega
      rw [← Nat.add_assoc] at behind
      simp only [retake?, Token.start_ofChars, Token.stop_ofChars, token?_eq occurs.left.left rfl,
        token?_eq occurs.left.right rfl, token?_eq behind last, token?_eq occurs rfl,
        Option.bind_eq_bind, Option.bind_some, Token.isEmpty_ofChars]
  | @group lead _ marked =>
      have size := marker_size marked
      simp only [retake?, Token.start_ofChars, size, token?_eq occurs.left rfl,
        Option.bind_eq_bind, Option.bind_some, Token.isEmpty_ofChars]
  | unhandled _ =>
      simp only [retake?, Token.start_ofChars, Token.stop_ofChars, token?_eq occurs rfl,
        Option.bind_eq_bind, Option.bind_some]

theorem scan?_eq {position stop : Nat} {cs : List Char} (occurs : Occurs text.toList position cs)
    (stops : position + byteLength cs = stop) :
    scan? reading text position stop =
      some ((Lexeme.scan? reading.separator position cs).map (·.1)) := by
  unfold scan?
  cases cs with
  | nil =>
      rw [if_pos (by simp at stops; omega)]
      rfl
  | cons c cs =>
      have positive := c.utf8Size_pos
      have longer := stops
      rw [byteLength_cons] at longer
      rw [if_neg (by omega), slice?_eq occurs stops]
      simp only [Option.bind_eq_bind, Option.bind_some]
      cases scanned : Lexeme.scan? reading.separator position (c :: cs) with
      | none => rfl
      | some found =>
          obtain ⟨lexeme, rest⟩ := found
          obtain ⟨taken, whole, scans⟩ := Lexeme.scans_of_scan? scanned
          rw [whole] at occurs
          simp only [retake?_eq scans occurs.left, Option.bind_some, Option.map_some]

private theorem marked_eq {offset stop : Nat} {cs : List Char}
    (occurs : Occurs text.toList offset cs)
    (stops : offset + byteLength cs = stop) :
    (octetAt text offset stop == some '!') = !(marker cs).isEmpty := by
  rw [octetAt_eq (by decide) occurs stops, marker]
  cases cs with
  | nil => rfl
  | cons c cs => cases (c :: cs).head? == some '!' <;> rfl

private theorem group?_eq (agrees : Agrees text interior? interior) {offset opener stop : Nat}
    {lead cs : List Char} {important : Bool} (marked : IsMarker lead ('(' :: cs))
    (occurs : Occurs text.toList offset (lead ++ '(' :: cs))
    (stops : offset + byteLength (lead ++ '(' :: cs) = stop)
    (opens : opener = offset + byteLength lead) (leads : important = !lead.isEmpty) :
    group? interior? text offset important opener stop =
      some (Tree.group interior offset (lead ++ '(' :: cs)) := by
  have openerSize : Char.utf8Size '(' = 1 := rfl
  have closerSize : Char.utf8Size ')' = 1 := rfl
  subst opens leads
  have behind : offset + byteLength lead + byteLength ('(' :: cs) = stop := by
    rw [← stops, byteLength_append, Nat.add_assoc]
  have matching := findMatch?_parens occurs.right behind
  have inside : Occurs text.toList (offset + byteLength lead + 1) cs := occurs.right.tail
  unfold group?
  simp only [matching, Option.bind_eq_bind, Option.bind_some]
  cases split : Bracket.split? .parens [] ('(' :: cs) with
  | none =>
      have child := agrees _ _ stop inside (by rw [← behind, byteLength_cons]; omega)
      rw [group_open interior offset marked split]
      simp only [Option.map_none, Option.getD_none, child, token?_eq occurs stops, Option.bind_some]
  | some parts =>
      obtain ⟨content, closed⟩ := parts
      obtain ⟨interiorText, after, rfl, rfl, rfl⟩ := Bracket.split?_parens split
      obtain ⟨following, afterParts, trailMarked, _⟩ := exists_marker after
      have child := agrees _ _ (offset + byteLength lead + byteLength ('(' :: interiorText))
        inside.left (by rw [byteLength_cons]; omega)
      have trailPlace : offset + byteLength lead + byteLength ('(' :: interiorText) + 1 =
          offset + byteLength lead + 1 + byteLength interiorText + Char.utf8Size ')' := by
        rw [byteLength_cons]
        omega
      have trailing := @marked_eq text
        (offset + byteLength lead + byteLength ('(' :: interiorText) + 1) stop after
        (by rw [trailPlace]; exact inside.right.tail)
        (by rw [← behind]; simp; omega)
      have range : Occurs text.toList offset (lead ++ '(' :: interiorText ++ [')'] ++ marker after) := by
        have whole := occurs
        rw [afterParts] at whole
        have grouped : lead ++ '(' :: (interiorText ++ ')' :: (marker after ++ following)) =
            (lead ++ '(' :: interiorText ++ [')'] ++ marker after) ++ following := by simp
        rw [grouped] at whole
        exact whole.left
      have token := token?_eq range (show _ = offset + byteLength lead +
        byteLength ('(' :: interiorText) + 1 + byteLength (marker after) by simp; omega)
      have grouped := group_of_split interior offset marked split
      rw [List.cons_append] at grouped
      rw [grouped]
      simp only [Option.map_some, Option.getD_some, child, Option.bind_some, trailing,
        marker_size trailMarked, token]

private theorem attached_range (framed : Framed interior) (variant : Variant) {cs : List Char}
    (something : isEmptyBody cs = false) :
    ∃ body rest, cs = body ++ rest ∧
      (attached reading interior variant.range.stop cs).range =
        .ofChars variant.range.stop body := by
  obtain ⟨body, rest, whole, spanAt⟩ := @spanAt_variantSpan reading interior framed variant cs
  refine ⟨body, rest, whole, ?_⟩
  have spanned := @variantSpan_attached reading interior variant cs something
  generalize Tree.variantSpan reading interior variant cs = node at spanAt spanned
  cases spanAt with
  | empty nothing =>
      rw [whole, List.nil_append] at something
      rw [something] at nothing
      cases nothing
  | group _ grouped =>
      rw [← Option.some.inj (Node.variantSpan.inj spanned).2.2]
      exact grouped.range_eq
  | item _ _ _ framedBody _ _ =>
      rw [← Option.some.inj (Node.variantSpan.inj spanned).2.2]
      exact framedBody

private theorem item?_eq (agrees : Agrees text interior? interior) {offset stop : Nat}
    {cs : List Char}
    (occurs : Occurs text.toList offset cs) (stops : offset + byteLength cs = stop) :
    (do
      let last ← findEnd? text offset stop reading.separator
      interior? offset last) = some (interior offset (Body.split reading.separator cs).1) := by
  have whole := Body.split_append reading.separator cs
  rw [findEnd?_eq reading.separator occurs stops]
  rw [← whole] at occurs
  exact agrees _ _ _ occurs.left rfl

private theorem body?_eq (agrees : Agrees text interior? interior) {offset stop : Nat}
    {cs : List Char}
    (occurs : Occurs text.toList offset cs) (stops : offset + byteLength cs = stop) :
    body? reading interior? text offset stop = some (attached reading interior offset cs) := by
  have bangSize : Char.utf8Size '!' = 1 := rfl
  obtain ⟨following, whole, marked, dropped⟩ := exists_marker cs
  have opener := @octetAt_eq text offset stop cs '(' (by decide) occurs stops
  have bang := @octetAt_eq text offset stop cs '!' (by decide) occurs stops
  unfold body? attached
  rw [dropped, opener, bang]
  generalize marker cs = lead at whole marked
  rcases marked with rfl | ⟨rfl, unmarked⟩
  · subst whole
    have behind : Occurs text.toList (offset + 1) following := occurs.tail
    have ahead := @octetAt_eq text (offset + 1) stop following '(' (by decide) behind
      (by rw [← stops]; simp; omega)
    rw [ahead]
    simp only [List.singleton_append, List.head?_cons]
    by_cases opened : following.head? = some '('
    · obtain ⟨inside, rfl⟩ := List.head?_eq_some_iff.1 opened
      simp only [List.head?_cons, beq_self_eq_true, Bool.and_self, if_true]
      exact group?_eq agrees (Or.inl rfl) occurs stops rfl rfl
    · have other : (following.head? == some '(') = false := beq_eq_false_iff_ne.2 opened
      simp only [other, Bool.and_false, Bool.false_eq_true, if_false]
      exact item?_eq agrees occurs stops
  · rw [List.nil_append] at whole
    subst whole
    have notBang : (cs.head? == some '!') = false := beq_eq_false_iff_ne.2 unmarked
    simp only [notBang, Bool.false_and, Bool.false_eq_true, if_false]
    by_cases opened : cs.head? = some '('
    · obtain ⟨inside, rfl⟩ := List.head?_eq_some_iff.1 opened
      simp only [List.head?_cons, beq_self_eq_true, if_true]
      exact group?_eq agrees (Or.inr ⟨rfl, unmarked⟩) occurs stops rfl rfl
    · have other : (cs.head? == some '(') = false := beq_eq_false_iff_ne.2 opened
      simp only [other, Bool.false_eq_true, if_false]
      exact item?_eq agrees occurs stops

private theorem variantSpan?_eq (agrees : Agrees text interior? interior) (framed : Framed interior)
    {variant : Variant} {offset stop : Nat} {spelled cs : List Char}
    (ranged : variant.range = .ofChars offset spelled)
    (occurs : Occurs text.toList offset (spelled ++ cs))
    (stops : offset + byteLength (spelled ++ cs) = stop) :
    variantSpan? reading interior? text variant stop =
      some (Tree.variantSpan reading interior variant cs) := by
  have last : variant.range.stop = offset + byteLength spelled := by
    rw [ranged, Token.stop_ofChars]
  have behind : Occurs text.toList variant.range.stop cs := by
    rw [last]
    exact occurs.right
  have place : variant.range.stop + byteLength cs = stop := by
    rw [last, ← stops, byteLength_append, Nat.add_assoc]
  have window : slice? text.toList (min variant.range.stop stop) stop = some cs := by
    rw [Nat.min_eq_left (by omega)]
    exact slice?_eq behind place
  unfold variantSpan? Tree.variantSpan isEmptyBody?
  simp only [window, Option.bind_eq_bind, Option.bind_some]
  cases something : isEmptyBody cs with
  | true => rfl
  | false =>
      obtain ⟨body, rest, whole, range⟩ := @attached_range reading interior framed variant cs something
      have child := @body?_eq reading interior? interior text agrees _ _ _ behind place
      have longer : max (attached reading interior variant.range.stop cs).range.stop
          variant.range.stop = offset + byteLength (spelled ++ body) := by
        rw [range, Token.stop_ofChars, last, byteLength_append]
        omega
      rw [whole, ← List.append_assoc] at occurs
      have token := token?_eq occurs.left longer.symm
      have start : variant.range.start = offset := by rw [ranged, Token.start_ofChars]
      simp only [Bool.false_eq_true, if_false, child, Option.bind_some, start, token]
      have taken : (splitBytes ((attached reading interior variant.range.stop cs).range.stop -
          variant.range.stop) cs).1 = body := by
        rw [range, Token.stop_ofChars, Nat.add_sub_cancel_left, whole, splitBytes_byteLength]
      have text : variant.range.text.toList = spelled := by rw [ranged, Token.toList_ofChars]
      rw [← taken, ← text]
      rfl

private theorem isDigit_of_wide {c : Char} (wide : IsWide c) : c.isDigit = false := by
  rw [Char.isDigit, Bool.and_eq_false_iff]
  right
  rw [decide_eq_false_iff_not]
  intro small
  have bound : c.toNat ≤ 57 := small
  unfold IsWide at wide
  omega

private theorem opacity?_bracket {offset stop : Nat} {rest : List Char}
    (occurs : Occurs text.toList offset ('/' :: '[' :: rest))
    (stops : offset + byteLength ('/' :: '[' :: rest) = stop) :
    opacity? text offset stop = some (Tree.opacity? offset ('/' :: '[' :: rest)) := by
  have slashSize : Char.utf8Size '/' = 1 := rfl
  have bracketSize : Char.utf8Size '[' = 1 := rfl
  have closerSize : Char.utf8Size ']' = 1 := rfl
  have behind : Occurs text.toList (offset + 1) ('[' :: rest) := occurs.tail
  have inside : Occurs text.toList (offset + 1 + 1) rest := behind.tail
  have place : offset + 1 + byteLength ('[' :: rest) = stop := by
    rw [← stops]
    simp
    omega
  have slash := @octetAt_eq text offset stop _ '/' (by decide) occurs stops
  have opener := @octetAt_eq text (offset + 1) stop _ '[' (by decide) behind place
  have matching := findMatch?_square behind place
  unfold opacity? Tree.opacity?
  simp only [bne, slash, List.head?_cons, beq_self_eq_true, Bool.not_true, Bool.false_eq_true,
    if_false, opener, if_true, matching, Option.bind_eq_bind, Option.bind_some]
  cases split : Bracket.split? .square [] ('[' :: rest) with
  | none =>
      simp only [Option.map_none, token?_eq occurs stops, Option.bind_some]
      rw [token?_eq inside (by rw [← place, byteLength_cons]; omega)]
      rfl
  | some parts =>
      obtain ⟨content, closed⟩ := parts
      obtain ⟨value, after, rfl, rfl, rfl⟩ := Bracket.split?_square split
      have range : Occurs text.toList offset ('/' :: '[' :: value ++ [']']) := by
        have grouped : '/' :: '[' :: (value ++ ']' :: after) =
            ('/' :: '[' :: value ++ [']']) ++ after := by simp
        rw [grouped] at occurs
        exact occurs.left
      have rangeToken := token?_eq range
        (show _ = offset + 1 + byteLength ('[' :: value) + 1 by simp; omega)
      have valueToken := token?_eq inside.left
        (show _ = offset + 1 + byteLength ('[' :: value) by simp; omega)
      simp only [Option.map_some, rangeToken, Option.bind_some]
      rw [valueToken]
      rfl

private theorem opacity?_number {offset stop : Nat} {rest : List Char}
    (notBracket : rest.head? ≠ some '[')
    (occurs : Occurs text.toList offset ('/' :: rest))
    (stops : offset + byteLength ('/' :: rest) = stop) :
    opacity? text offset stop = some (Tree.opacity? offset ('/' :: rest)) := by
  have slashSize : Char.utf8Size '/' = 1 := rfl
  have behind : Occurs text.toList (offset + 1) rest := occurs.tail
  have place : offset + 1 + byteLength rest = stop := by
    rw [← stops]
    simp
    omega
  have slash := @octetAt_eq text offset stop _ '/' (by decide) occurs stops
  have opener := @octetAt_eq text (offset + 1) stop rest '[' (by decide) behind place
  have unbracketed : (rest.head? == some '[') = false := beq_eq_false_iff_ne.2 notBracket
  have narrowRun := @splitRun_octets (fun c _ => c.isDigit) false (fun _ _ _ => rfl)
    (fun _ _ wide => isDigit_of_wide wide) rest
  have whole := splitRun_append (fun c _ => c.isDigit) rest
  rw [opacity?_digits offset notBracket]
  unfold opacity?
  simp only [bne, slash, List.head?_cons, beq_self_eq_true, Bool.not_true, Bool.false_eq_true,
    if_false, opener, unbracketed, octetsBetween?_occurs behind place, narrowRun, length_octets,
    Option.bind_eq_bind, Option.bind_some]
  cases run : (splitRun (fun c _ => c.isDigit) rest).1 with
  | nil => rfl
  | cons c digits =>
      have positive := c.utf8Size_pos
      rw [run] at whole
      rw [← whole] at behind
      have range : Occurs text.toList offset ('/' :: c :: digits) := by
        rw [← whole, ← List.cons_append] at occurs
        exact occurs.left
      have rangeToken := token?_eq range
        (show _ = offset + 1 + byteLength (c :: digits) by simp; omega)
      rw [if_neg (by simp; omega), rangeToken, token?_eq behind.left rfl]
      rfl

private theorem opacity?_eq {offset stop : Nat} {cs : List Char}
    (occurs : Occurs text.toList offset cs)
    (stops : offset + byteLength cs = stop) :
    opacity? text offset stop = some (Tree.opacity? offset cs) := by
  by_cases slashed : cs.head? = some '/'
  · obtain ⟨rest, rfl⟩ := List.head?_eq_some_iff.1 slashed
    by_cases bracketed : rest.head? = some '['
    · obtain ⟨inside, rfl⟩ := List.head?_eq_some_iff.1 bracketed
      exact opacity?_bracket occurs stops
    · exact opacity?_number bracketed occurs stops
  · have slash := @octetAt_eq text offset stop cs '/' (by decide) occurs stops
    rw [Tree.opacity?_none offset slashed]
    unfold opacity?
    rw [bne, slash, beq_eq_false_iff_ne.2 slashed]
    rfl

private theorem openBracket?_eq {offset opener stop : Nat} {lead stem cs : List Char}
    {important : Bool}
    (marked : IsMarker lead (stem ++ '[' :: cs))
    (occurs : Occurs text.toList offset (lead ++ stem ++ '[' :: cs))
    (stops : offset + byteLength (lead ++ stem ++ '[' :: cs) = stop)
    (opens : opener = offset + byteLength lead + byteLength stem)
    (leads : important = !lead.isEmpty) :
    openBracket? text offset important (.ofChars (offset + byteLength lead) stem) opener stop =
      some (openBracket offset lead (.ofChars (offset + byteLength lead) stem)
        (lead ++ stem ++ '[' :: cs) cs) := by
  have openerSize : Char.utf8Size '[' = 1 := rfl
  subst opens leads
  have parted := occurs
  rw [List.append_assoc] at parted
  have inside : Occurs text.toList (offset + byteLength lead + byteLength stem + 1) cs :=
    parted.right.right.tail
  have content := token?_eq inside (show _ = stop by
    rw [← stops]
    simp only [byteLength_append, byteLength_cons]
    omega)
  have target := token?_eq parted.right (show _ = stop by
    rw [← stops, List.append_assoc, byteLength_append _ (stem ++ _), Nat.add_assoc])
  unfold openBracket? openBracket
  simp only [content, token?_eq occurs stops, marker_size marked, target, Option.bind_eq_bind,
    Option.bind_some, Token.stop_ofChars, Bool.not_not, List.append_assoc, List.drop_left]
  split <;> rfl

private theorem closedLeaf?_eq {offset after stop : Nat} {lead body rest : List Char}
    {important : Bool}
    (stem : List Char) (content : Token) (marked : IsMarker lead (body ++ rest))
    (occurs : Occurs text.toList offset (lead ++ body ++ rest))
    (stops : offset + byteLength (lead ++ body ++ rest) = stop)
    (closes : after = offset + byteLength lead + byteLength body)
    (leads : important = !lead.isEmpty) :
    closedLeaf? text offset important (.ofChars (offset + byteLength lead) stem) content after stop =
      some (closedLeaf offset lead (.ofChars (offset + byteLength lead) stem) body content rest) := by
  subst leads
  have behind : Occurs text.toList after rest := by
    have later := occurs.right
    rwa [byteLength_append, ← Nat.add_assoc, ← closes] at later
  have place : after + byteLength rest = stop := by
    rw [← stops, closes]
    simp only [byteLength_append]
    omega
  have opacityAt := opacity?_eq behind place
  unfold closedLeaf? closedLeaf
  rw [closes] at opacityAt ⊢
  simp only [opacityOf?, Token.toList_ofChars, opacityAt, ← apply_ite some, Option.bind_eq_bind,
    Option.bind_some]
  generalize found : (if (stem.getLast? == some '-') = true then
    Tree.opacity? (offset + byteLength lead + byteLength body) rest else none) = opacity
  obtain ⟨suffix, left, whole, text?, stop?⟩ := exists_opacity_text found
  obtain ⟨following, leftParts, trailMarked, _⟩ := exists_marker left
  have trailing := @marked_eq text
    (offset + byteLength lead + byteLength body + byteLength suffix) stop left
    (by
      rw [whole, closes] at behind
      exact behind.right)
    (by rw [← place, closes, whole, byteLength_append]; omega)
  have range : Occurs text.toList offset (lead ++ body ++ suffix ++ marker left) := by
    have grouped : lead ++ body ++ rest = (lead ++ body ++ suffix ++ marker left) ++ following := by
      have parts : suffix ++ left = suffix ++ (marker left ++ following) := by rw [← leftParts]
      rw [whole, parts]
      simp only [List.append_assoc]
    rw [grouped] at occurs
    exact occurs.left
  have target : Occurs text.toList (offset + byteLength lead) (body ++ suffix) := by
    have inner := range.left
    rw [List.append_assoc lead] at inner
    exact inner.right
  have rangeToken := token?_eq range (show _ = offset + byteLength lead + byteLength body +
    byteLength suffix + byteLength (marker left) by simp only [byteLength_append]; omega)
  have targetToken := token?_eq target (show _ = offset + byteLength lead + byteLength body +
    byteLength suffix by rw [byteLength_append]; omega)
  simp only [text?, stop?, trailing, marker_size marked, marker_size trailMarked, rangeToken,
    targetToken, whole, List.drop_left, Option.bind_some]

private theorem separatorAt?_eq {after stop : Nat} {lead rest : List Char} {important : Bool}
    (occurs : Occurs text.toList after rest) (stops : after + byteLength rest = stop)
    (leads : important = !lead.isEmpty) :
    separatorAt? reading text important after stop =
      some (lead.isEmpty && reading.separator.isPrefixOf rest) := by
  subst leads
  unfold separatorAt?
  cases lead with
  | nil => simp only [List.isEmpty_nil, Bool.not_true, Bool.false_eq_true, if_false,
      slice?_eq occurs stops, Option.bind_eq_bind, Option.bind_some, Bool.true_and]
  | cons c lead => rfl

private theorem bracket?_eq (agrees : Agrees text interior? interior) (framed : Framed interior)
    {offset opener stop : Nat} {lead stem cs : List Char} {important : Bool}
    (marked : IsMarker lead (stem ++ '[' :: cs))
    (occurs : Occurs text.toList offset (lead ++ stem ++ '[' :: cs))
    (stops : offset + byteLength (lead ++ stem ++ '[' :: cs) = stop)
    (opens : opener = offset + byteLength lead + byteLength stem)
    (leads : important = !lead.isEmpty) :
    bracket? reading interior? text offset important (.ofChars (offset + byteLength lead) stem)
        opener stop =
      some (Tree.bracket reading interior offset (.ofChars (offset + byteLength lead) stem)
        (lead ++ stem ++ '[' :: cs)) := by
  have openerSize : Char.utf8Size '[' = 1 := rfl
  have closerSize : Char.utf8Size ']' = 1 := rfl
  have unclosed := openBracket?_eq marked occurs stops opens leads
  have atOpener : Occurs text.toList opener ('[' :: cs) := by
    have later := occurs.right
    rwa [byteLength_append, ← Nat.add_assoc, ← opens] at later
  have place : opener + byteLength ('[' :: cs) = stop := by
    rw [← stops, opens]
    simp only [byteLength_append]
    omega
  unfold bracket?
  simp only [findMatch?_square atOpener place, Option.bind_eq_bind, Option.bind_some]
  cases matching : Bracket.split? .square [] ('[' :: cs) with
  | none =>
      rw [bracket_open reading interior offset marked matching]
      exact unclosed
  | some parts =>
      obtain ⟨opened, closed⟩ := parts
      obtain ⟨value, rest, rfl, rfl, rfl⟩ := Bracket.split?_square matching
      have grouped : lead ++ stem ++ '[' :: (value ++ ']' :: rest) =
          lead ++ (stem ++ '[' :: value ++ [']']) ++ rest := by simp
      rw [grouped] at occurs stops
      have closes : opener + byteLength ('[' :: value) + 1 =
          offset + byteLength lead + byteLength (stem ++ '[' :: value ++ [']']) := by
        rw [opens]
        simp
        omega
      have content : Token.ofSource? text (opener + 1) (opener + byteLength ('[' :: value)) =
          some (.ofChars (offset + byteLength lead + byteLength stem + 1) value) := by
        rw [← opens]
        exact token?_eq atOpener.tail.left (by simp; omega)
      have after : Occurs text.toList (opener + byteLength ('[' :: value) + 1) rest := by
        have later := occurs.right
        rwa [byteLength_append, ← Nat.add_assoc, ← closes] at later
      have afterPlace : opener + byteLength ('[' :: value) + 1 + byteLength rest = stop := by
        rw [← stops, closes]
        simp only [byteLength_append]
        omega
      have followed := @separatorAt?_eq reading text _ stop lead rest important after afterPlace leads
      simp only [Option.map_some, content, followed, Option.bind_some]
      rcases separated_cases reading.separator lead rest with ⟨rfl, attached, rfl⟩ | plain
      · have separated : reading.separator.isPrefixOf (reading.separator ++ attached) = true :=
          List.isPrefixOf_iff_prefix.2 (List.prefix_append _ _)
        simp only [List.nil_append, byteLength_nil, Nat.add_zero] at occurs stops closes ⊢
        rw [bracket_variant reading interior offset marked matching]
        have identifier := token?_eq occurs.left closes.symm
        have range := occurs
        rw [← List.append_assoc] at range
        have rangeToken := token?_eq range.left
          (show _ = opener + byteLength ('[' :: value) + 1 + byteLength reading.separator by
            rw [byteLength_append]; omega)
        have separatorToken := token?_eq after.left rfl
        simp only [List.isEmpty_nil, separated, Bool.and_self, if_true, identifier, rangeToken,
          separatorToken, Option.bind_some, ← closes]
        rw [List.append_assoc _ _ attached] at range
        exact variantSpan?_eq agrees framed rfl (by rwa [List.append_assoc])
          (by rw [← stops, List.append_assoc])
      · rw [bracket_leaf reading interior offset marked matching plain]
        have leaf := closedLeaf?_eq stem (.ofChars (offset + byteLength lead + byteLength stem + 1) value)
          (show IsMarker lead (stem ++ '[' :: value ++ [']'] ++ rest) by simpa using marked)
          occurs stops closes leads
        simp only [plain, leaf, Option.bind_some, Bool.false_eq_true, if_false]

theorem node?_eq (agrees : Agrees text interior? interior) (framed : Framed interior)
    {offset stop : Nat} {front after : List Char} {lexeme : Lexeme}
    (scans : Lexeme.Scans reading.separator offset front after lexeme)
    (occurs : Occurs text.toList offset (front ++ after))
    (stops : offset + byteLength (front ++ after) = stop) :
    node? reading interior? text stop lexeme =
      some (Tree.node? reading interior offset (front ++ after) after lexeme) := by
  cases scans with
  | lineComment _ _ => rfl
  | blockComment => rfl
  | @variant name _ _ _ =>
      have range := token?_eq occurs.left (show _ = offset + byteLength name +
        byteLength reading.separator by rw [byteLength_append, Nat.add_assoc])
      have span := @variantSpan?_eq reading interior? interior text agrees framed
        (.named ⟨.ofChars offset (name ++ reading.separator), .ofChars offset name,
          .ofChars (offset + byteLength name) reading.separator⟩) _ _ _ _ rfl occurs stops
      simp only [node?, Tree.node?, Token.start_ofChars, Token.stop_ofChars, Token.toList_ofChars,
        range, span, Option.bind_eq_bind, Option.bind_some]
  | @bracket lead stem _ marked _ =>
      have grouped : lead ++ stem ++ ['['] ++ after = lead ++ stem ++ '[' :: after := by simp
      rw [grouped] at occurs stops ⊢
      have node := @bracket?_eq reading interior? interior text agrees framed _ _ _ _ _ _ _ marked
        occurs stops rfl rfl
      simp only [node?, Tree.node?, Token.stop_ofChars, node, Option.bind_eq_bind, Option.bind_some]
  | className _ _ _ => rfl
  | @group lead _ marked =>
      have grouped : lead ++ ['('] ++ after = lead ++ '(' :: after := by simp
      rw [grouped] at occurs stops ⊢
      have node := group?_eq agrees marked occurs stops
        (congrArg (offset + ·) (marker_size marked)) rfl
      simp only [node?, Tree.node?, node, Option.bind_eq_bind, Option.bind_some]
  | unhandled _ => rfl

theorem commentStop?_eq {offset stop : Nat} {front after : List Char} {lexeme : Lexeme}
    (scans : Lexeme.Scans reading.separator offset front after lexeme)
    (occurs : Occurs text.toList offset (front ++ after))
    (stops : offset + byteLength (front ++ after) = stop) :
    commentStop? text stop lexeme = some (commentStop offset (front ++ after) after lexeme) := by
  cases scans with
  | blockComment =>
      have found := findBlockEnd?_eq occurs.right
        (show _ = stop by rw [← stops, byteLength_append, Nat.add_assoc])
      simp only [commentStop?, commentStop, Token.stop_ofChars, found, Option.bind_eq_bind,
        Option.bind_some, stops]
      cases Comment.closeBlock? after <;> rfl
  | lineComment _ _ => rfl
  | variant _ _ => rfl
  | bracket _ => rfl
  | className _ _ _ => rfl
  | group _ => rfl
  | unhandled _ => rfl

end ClassExpr.Checked
