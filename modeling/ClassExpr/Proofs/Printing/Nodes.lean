import ClassExpr.Proofs.Printing.Scanning

set_option autoImplicit false

/-! The node that a printed phrase begins. A bracket takes its opacity and its markers along, a
group its interior, and a variant the phrase behind it, each no further than it was printed. -/

namespace ClassExpr.Printing

open Text ClassExpr.Tree Lexeme

def Begins (interior : Interior) (offset : Nat) (cs : List Char) (node : Node) : Prop :=
  ∃ lexeme after, scan? [':'] offset cs = some (lexeme, after) ∧
    node? reading interior offset cs after lexeme = some node

private theorem splitRun_digits (digits : Digits) {rest : List Char}
    (stopped : ∀ c ∈ rest.head?, c.isDigit = false) :
    splitRun (fun c _ => c.isDigit) (digits.chars ++ rest) = (digits.chars, rest) := by
  have ended : splitRun (fun c _ => c.isDigit) rest = ([], rest) := by
    cases rest with
    | nil => rfl
    | cons c rest => rw [splitRun_cons, if_neg (by rw [stopped c rfl]; decide)]
  have taken : ∀ c ∈ digits.chars, ∀ cs : List Char, (fun c (_ : List Char) => c.isDigit) c cs = true :=
    fun c member _ => digits.accepted c member
  rw [splitRun_append_of_forall taken, ended, List.append_nil]

private theorem opacity?_print (strength : Strength) (offset : Nat) {rest : List Char}
    (stopped : ∀ c ∈ rest.head?, c.isDigit = false) :
    opacity? offset (strength.print ++ rest) = some (strength.opacity offset) := by
  cases strength with
  | number digits =>
      have run := splitRun_digits digits stopped
      obtain ⟨c, cs, chars, digit⟩ := digits.exists_cons
      have unbracketed : (digits.chars ++ rest).head? ≠ some '[' := by
        rw [chars, List.cons_append, List.head?_cons, ne_eq, Option.some.injEq]
        exact ne_of_accepts digit rfl
      rw [Strength.opacity, Strength.token, Strength.print, List.cons_append,
        opacity?_digits offset unbracketed, run, chars]
  | bracket value =>
      have matched := Bracket.split?_value value rest
      have printed : (Strength.bracket value).print ++ rest =
          '/' :: '[' :: (value.chars ++ ']' :: rest) := by
        simp [Strength.print, bracketed]
      rw [List.cons_append] at matched
      rw [printed, opacity?, matched]
      rfl

private theorem closedLeaf_print (stem : List Char) (value : Value) {strength : Option Strength}
    (styled : strength.isSome = true → stem.getLast? = some '-') (leading trailing : Bool)
    (offset : Nat) {rest : List Char} (follows : Follows rest) (content : Token) :
    closedLeaf offset (mark leading) (.ofChars (offset + byteLength (mark leading)) stem)
        (bracketed stem value) content (suffix strength ++ (mark trailing ++ rest)) =
      bracketLeaf
        (.ofChars offset (mark leading ++ bracketed stem value ++ suffix strength ++ mark trailing))
        (.ofChars (offset + byteLength (mark leading)) (bracketed stem value ++ suffix strength))
        (.ofChars (offset + byteLength (mark leading)) stem) content true (leading || trailing)
        (strength.map (Strength.opacity
          (offset + byteLength (mark leading) + byteLength (bracketed stem value)))) := by
  have stops := follows.isStop trailing
  have opacityAt : (if stem.getLast? == some '-' then
      opacity? (offset + byteLength (mark leading) + byteLength (bracketed stem value))
        (suffix strength ++ (mark trailing ++ rest)) else none) =
      strength.map (Strength.opacity
        (offset + byteLength (mark leading) + byteLength (bracketed stem value))) := by
    cases strength with
    | none =>
        have noSlash : (mark trailing ++ rest).head? ≠ some '/' :=
          fun slash => (stops '/' slash).slash rfl
        rw [suffix_none, List.nil_append, opacity?_none _ noSlash, ite_self]
        rfl
    | some strength =>
        rw [if_pos (by rw [styled rfl]; rfl)]
        exact opacity?_print strength _ fun c ahead => (stops c ahead).digit
  have spelled : ((strength.map (Strength.opacity
      (offset + byteLength (mark leading) + byteLength (bracketed stem value)))).map
        (·.range.text.toList)).getD [] = suffix strength := by
    cases strength with
    | none => rfl
    | some strength => exact Token.toList_ofChars _ _
  unfold closedLeaf
  simp only [Token.toList_ofChars, opacityAt, spelled, List.drop_left, isEmpty_mark,
    marker_append (isMarker_mark trailing follows.unmarked)]

private theorem bracketLeaf_property (prop : Property) (start : Nat) (range target content : Token)
    (important : Bool) :
    bracketLeaf range target (.ofChars start prop.word.chars) content true important none =
      .cssProperty range target (.ofChars start prop.word.chars) content true important := by
  unfold bracketLeaf
  rw [Token.toList_ofChars]
  cases last : prop.word.chars.getLast? with
  | none => exact absurd (List.getLast?_eq_none_iff.1 last) prop.word.nonempty
  | some c =>
      have accepted := prop.word.accepted c (List.mem_of_getLast? last)
      have notHyphen : c ≠ '-' := by
        rintro rfl
        exact prop.solid last
      have notSlash : c ≠ '/' := ne_of_accepts accepted rfl
      simp [notHyphen, notSlash]

private theorem bracketLeaf_style {stem : List Char} {last : Char}
    (ends : stem.getLast? = some last)
    (mark : last = '-' ∨ last = '/') (start : Nat) (range target content : Token)
    (important : Bool) (opacity : Option Opacity) :
    bracketLeaf range target (.ofChars start stem) content true important opacity =
      .arbitraryStyle range target (.ofChars start stem) content true important opacity := by
  unfold bracketLeaf
  rw [Token.toList_ofChars, ends]
  rcases mark with rfl | rfl <;> rfl

private theorem Utility.cases_print (utility : Utility) :
    (∃ name, utility = .className name) ∨
      ∃ stem value strength, Stem stem ∧
        (strength.isSome = true → stem.getLast? = some '-') ∧
        utility.print = bracketed stem value ++ suffix strength ∧
        ∀ (offset : Nat) (range : Token) (important : Bool), utility.leaf offset range important =
          bracketLeaf range (.ofChars offset utility.print) (.ofChars offset stem)
            (.ofChars (offset + byteLength stem + 1) value.chars) true important
            (strength.map (Strength.opacity (offset + byteLength (bracketed stem value)))) := by
  cases utility with
  | className name => exact Or.inl ⟨name, rfl⟩
  | property prop value =>
      refine Or.inr ⟨prop.word.chars, value, none, Stem.word prop.word, by simp, ?_, ?_⟩
      · rw [Utility.print, suffix_none, List.append_nil]
      · intro offset range important
        exact (bracketLeaf_property prop offset range _ _ important).symm
  | style stem value strength =>
      refine Or.inr ⟨stem.chars ++ ['-'], value, strength, Stem.hyphen stem,
        fun _ => List.getLast?_concat, rfl, ?_⟩
      intro offset range important
      exact (bracketLeaf_style List.getLast?_concat (Or.inl rfl) offset range _ _ important _).symm
  | slashed stem value =>
      refine Or.inr ⟨stem.chars ++ ['/'], value, none, Stem.slash stem, by simp, ?_, ?_⟩
      · rw [Utility.print, suffix_none, List.append_nil]
      · intro offset range important
        exact (bracketLeaf_style List.getLast?_concat (Or.inr rfl) offset range _ _ important
          none).symm
  | bare value =>
      refine Or.inr ⟨[], value, none, Stem.none, by simp, ?_, ?_⟩
      · rw [Utility.print, suffix_none, List.append_nil]
      · intro offset range important
        rfl

private theorem not_separated (strength : Option Strength) (trailing : Bool) {rest : List Char}
    (follows : Follows rest) :
    ([':'] : List Char).isPrefixOf (suffix strength ++ (mark trailing ++ rest)) = false := by
  have ahead : (suffix strength ++ (mark trailing ++ rest)).head? ≠ some ':' := by
    cases strength with
    | none => exact fun colon => (follows.isStop trailing ':' colon).colon rfl
    | some strength =>
        have slash : ((suffix (some strength)) ++ (mark trailing ++ rest)).head? = some '/' := by
          cases strength <;> rfl
        rw [slash]
        decide
  rw [Bool.eq_false_iff]
  intro prefixed
  obtain ⟨after, same⟩ := List.isPrefixOf_iff_prefix.1 prefixed
  rw [← same] at ahead
  exact ahead rfl

theorem begins_atom (interior : Interior) (offset : Nat) (atom : Atom) {rest : List Char}
    (follows : Follows rest) :
    Begins interior offset (atom.print ++ rest) (.leaf (atom.leaf offset)) := by
  rcases atom.utility.cases_print with ⟨name, isName⟩ | ⟨stem, value, strength, shape, styled,
    printed, leaf⟩
  · have text : atom.print ++ rest =
        mark atom.leading ++ name.print ++ (mark atom.trailing ++ rest) := by
      rw [Atom.print, isName, Utility.print, List.append_assoc]
    have scanned := scan?_className name atom.leading atom.trailing offset follows
    rw [← text] at scanned
    refine ⟨_, _, scanned, ?_⟩
    rw [Atom.leaf, Atom.print, isName]
    rfl
  · have text : atom.print ++ rest = mark atom.leading ++ stem ++
        '[' :: (value.chars ++ ']' :: (suffix strength ++ (mark atom.trailing ++ rest))) := by
      simp [Atom.print, printed, bracketed]
    have scanned := scan?_bracket shape atom.leading offset (value.chars ++
      ']' :: (suffix strength ++ (mark atom.trailing ++ rest)))
    have plain : ((mark atom.leading).isEmpty && reading.separator.isPrefixOf
        (suffix strength ++ (mark atom.trailing ++ rest))) = false :=
      Bool.and_eq_false_imp.2 fun _ => not_separated strength atom.trailing follows
    have solved := bracket_leaf reading interior offset
      (shape.isMarker atom.leading value (suffix strength ++ (mark atom.trailing ++ rest)))
      (Bracket.split?_value value (suffix strength ++ (mark atom.trailing ++ rest))) plain
    rw [text]
    refine ⟨_, _, scanned, ?_⟩
    have closed := closedLeaf_print stem value styled atom.leading atom.trailing offset follows
      (.ofChars (offset + byteLength (mark atom.leading) + byteLength stem + 1) value.chars)
    rw [bracketed] at closed
    rw [node?, solved, closed, Atom.leaf, leaf, Atom.print, printed]
    simp only [bracketed, List.append_assoc]

theorem group_print (interior : Interior) (offset : Nat) (leading trailing : Bool)
    {inside : Phrases} {rest : List Char} (follows : Follows rest)
    (child : interior (offset + byteLength (mark leading) + 1) inside.print =
      collect (offset + byteLength (mark leading) + 1) inside.print
        (inside.nodes (offset + byteLength (mark leading) + 1))) :
    Tree.group interior offset ((Phrase.group leading inside trailing).print ++ rest) =
      (Phrase.group leading inside trailing).node offset := by
  have text : (Phrase.group leading inside trailing).print ++ rest =
      mark leading ++ ('(' :: inside.print ++ ')' :: (mark trailing ++ rest)) := by
    simp [Phrase.print]
  have closing : marker (mark trailing ++ rest) = mark trailing :=
    marker_append (isMarker_mark trailing follows.unmarked)
  rw [text, group_of_split interior offset (isMarker_mark leading (by simp))
    (Bracket.split?_balanced inside.balanced_print _), closing, child, isEmpty_mark, isEmpty_mark,
    Phrase.node]
  simp

theorem begins_group (interior : Interior) (offset : Nat) {phrase : Phrase}
    (isGroup : phrase.isGroup = true) (rest : List Char) (node : Node) :
    Begins interior offset (phrase.print ++ rest) node ↔
      Tree.group interior offset (phrase.print ++ rest) = node := by
  cases phrase with
  | atom _ => cases isGroup
  | modified _ _ => cases isGroup
  | group leading inside trailing =>
      have scanned := scan?_group leading offset (inside.print ++ ')' :: (mark trailing ++ rest))
      have text : (Phrase.group leading inside trailing).print ++ rest =
          mark leading ++ '(' :: (inside.print ++ ')' :: (mark trailing ++ rest)) := by
        simp [Phrase.print]
      rw [← text] at scanned
      constructor
      · rintro ⟨lexeme, after, found, begun⟩
        rw [scanned, Option.some.injEq, Prod.mk.injEq] at found
        rw [← found.1] at begun
        exact Option.some.inj begun
      · intro grouped
        exact ⟨_, _, scanned, congrArg some grouped⟩

private theorem begins_bracketVariant (interior : Interior) (offset : Nat) {stem : List Char}
    (shape : Stem stem) (value : Value) (rest : List Char) :
    Begins interior offset (bracketed stem value ++ [':'] ++ rest)
      (variantSpan reading interior (bracketVariant offset stem value) rest) := by
  have text : bracketed stem value ++ [':'] ++ rest =
      stem ++ '[' :: (value.chars ++ ']' :: ':' :: rest) := by
    simp [bracketed]
  have scanned := scan?_bracket shape false offset (value.chars ++ ']' :: ':' :: rest)
  rw [text]
  exact ⟨_, _, scanned, congrArg some (bracket_variant reading interior offset
    (shape.isMarker false value (':' :: rest)) (Bracket.split?_value value (':' :: rest)))⟩

/-- A printed variant is read as what it is, and what follows it is attached to it. -/
theorem begins_variantSpan (interior : Interior) (offset : Nat) (modifier : Modifier)
    (rest : List Char) :
    Begins interior offset (modifier.print ++ rest)
      (variantSpan reading interior (modifier.variant offset) rest) := by
  cases modifier with
  | named name =>
      have text : (Modifier.named name).print ++ rest = name.chars ++ ':' :: rest := by
        simp [Modifier.print, Modifier.identifier]
      have scanned := scan?_named name offset rest
      rw [text]
      refine ⟨_, _, scanned, ?_⟩
      rw [node?]
      simp only [Token.toList_ofChars]
      rfl
  | bare value => exact begins_bracketVariant interior offset Stem.none value rest
  | styled stem value => exact begins_bracketVariant interior offset (Stem.hyphen stem) value rest

theorem Utility.exists_start (utility : Utility) (rest : List Char) :
    ∃ c cs, utility.print ++ rest = c :: cs ∧ isStart c = true := by
  rcases utility.cases_print with ⟨name, rfl⟩ | ⟨stem, value, strength, shape, _, printed, _⟩
  · exact name.exists_start rest
  · have text : utility.print ++ rest =
        stem ++ '[' :: (value.chars ++ ']' :: (suffix strength ++ rest)) := by
      simp [printed, bracketed]
    rw [text]
    exact shape.exists_start _

theorem Modifier.exists_start (modifier : Modifier) (rest : List Char) :
    ∃ c cs, modifier.print ++ rest = c :: cs ∧ isStart c = true := by
  rw [Modifier.print, List.append_assoc]
  cases modifier with
  | named name => exact Run.exists_start name (fun _ => isWordChar_of_isNameChar) _
  | bare value => exact Utility.exists_start (.bare value) _
  | styled stem value =>
      have start := Utility.exists_start (.style stem value none) ([':'] ++ rest)
      rwa [Utility.print, suffix_none, List.append_nil] at start

theorem Phrase.exists_start (phrase : Phrase) (rest : List Char) :
    ∃ leading c cs, phrase.print ++ rest = mark leading ++ c :: cs ∧
      if phrase.isGroup then c = '(' else isStart c = true := by
  cases phrase with
  | atom atom =>
      obtain ⟨c, cs, start, accepted⟩ := atom.utility.exists_start (mark atom.trailing ++ rest)
      refine ⟨atom.leading, c, cs, ?_, accepted⟩
      rw [← start, Phrase.print, Atom.print, List.append_assoc, List.append_assoc]
  | modified modifier body =>
      obtain ⟨c, cs, start, accepted⟩ := modifier.exists_start (body.print ++ rest)
      refine ⟨false, c, cs, ?_, accepted⟩
      rw [Phrase.print, List.append_assoc, start]
      rfl
  | group leading inside trailing =>
      refine ⟨leading, '(', inside.print ++ ')' :: (mark trailing ++ rest), ?_, rfl⟩
      simp [Phrase.print]

private theorem solid_of_start {c : Char} (start : isStart c = true) :
    isBlank c = false ∧ c ≠ '/' := by
  refine ⟨?_, ne_of_accepts start rfl⟩
  simp only [isStart, Bool.or_eq_true, beq_iff_eq] at start
  rcases start with word | rfl
  · exact isBlank_of_isWordChar word
  · decide

theorem Phrase.exists_solid (phrase : Phrase) (rest : List Char) :
    ∃ c cs, phrase.print ++ rest = c :: cs ∧ isBlank c = false ∧ c ≠ '/' := by
  obtain ⟨leading, c, cs, start, kind⟩ := phrase.exists_start rest
  cases leading with
  | true => exact ⟨'!', c :: cs, start, by decide, by decide⟩
  | false =>
      refine ⟨c, cs, start, ?_⟩
      split at kind
      · rw [kind]
        decide
      · exact solid_of_start kind

theorem isEmptyBody_solid {c : Char} (solid : isBlank c = false ∧ c ≠ '/') (cs : List Char) :
    isEmptyBody (c :: cs) = false := by
  obtain ⟨noLine, noBlock⟩ : Comment.startsLine (c :: cs) = false ∧
      Comment.startsBlock (c :: cs) = false := Comment.no_start (by simpa using solid.2)
  rw [isEmptyBody, noLine, noBlock, List.head?_cons, Option.all_some, solid.1]
  rfl

theorem Phrase.isEmptyBody_print (phrase : Phrase) (rest : List Char) :
    isEmptyBody (phrase.print ++ rest) = false := by
  obtain ⟨c, cs, start, solid⟩ := phrase.exists_solid rest
  rw [start]
  exact isEmptyBody_solid solid cs

theorem Modifier.isEmptyBody_print (modifier : Modifier) (rest : List Char) :
    isEmptyBody (modifier.print ++ rest) = false := by
  obtain ⟨c, cs, start, accepted⟩ := modifier.exists_start rest
  rw [start]
  exact isEmptyBody_solid (solid_of_start accepted) cs

private theorem attached_print (interior : Interior) (offset : Nat) (phrase : Phrase)
    {rest : List Char}
    (follows : Follows rest) :
    attached reading interior offset (phrase.print ++ rest) =
      if phrase.isGroup then group interior offset (phrase.print ++ rest)
      else interior offset phrase.print := by
  obtain ⟨leading, c, cs, start, kind⟩ := phrase.exists_start rest
  have split : Body.split reading.separator (phrase.print ++ rest) = (phrase.print, rest) :=
    split_print phrase follows
  have marked : IsMarker (mark leading) (c :: cs) := by
    apply isMarker_mark leading
    rw [List.head?_cons, ne_eq, Option.some.injEq]
    split at kind
    · rw [kind]
      decide
    · exact ne_of_accepts kind rfl
  have opens : (some c == some '(') = phrase.isGroup := by
    split at kind
    next group =>
      rw [kind, group]
      rfl
    next other =>
      have notOpener : c ≠ '(' := ne_of_accepts kind rfl
      simp [notOpener, other]
  rw [attached, split, start, marker_append marked, List.drop_left, List.head?_cons, opens]

theorem begins_modified (interior : Interior) (offset : Nat) (modifier : Modifier) (body : Phrase)
    {rest : List Char} (follows : Follows rest)
    (child : (if body.isGroup then
        group interior (offset + byteLength modifier.print) (body.print ++ rest)
      else interior (offset + byteLength modifier.print) body.print) =
        body.node (offset + byteLength modifier.print)) :
    Begins interior offset ((Phrase.modified modifier body).print ++ rest)
      ((Phrase.modified modifier body).node offset) := by
  have range := modifier.range_variant offset
  have stop : (modifier.variant offset).range.stop = offset + byteLength modifier.print := by
    rw [range, Token.stop_ofChars]
  have spanned := @variantSpan_attached reading interior (modifier.variant offset) _
    (body.isEmptyBody_print rest)
  rw [stop, attached_print interior _ body follows, child] at spanned
  simp only [body.range_node, Token.stop_ofChars, Nat.add_sub_cancel_left, splitBytes_byteLength,
    range, Token.toList_ofChars, Token.start_ofChars] at spanned
  have begins := begins_variantSpan interior offset modifier (body.print ++ rest)
  rw [spanned, ← List.append_assoc] at begins
  rw [Phrase.node, Phrase.print]
  exact begins

end ClassExpr.Printing
