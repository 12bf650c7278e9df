import ClassExpr.Proofs.Printing.Nodes
import ClassExpr.Proofs.Tree.Proper
import ClassExpr.Proofs.Variant.Matching

set_option autoImplicit false

/-! How far the body of a variant goes in a text that is one closed item. Over such a text, if it
hides no bracket from the body, the body is swept to the end: names and class names are plain,
brackets and groups are left where they are matched, and what follows a variant is a body again. -/

namespace ClassExpr

open Text

namespace Body

open Printing ClassExpr.Bracket

private theorem isPlain_of_isBody {c : Char} (accepted : Lexeme.isBody c = true) :
    isPlain c = true := by
  have notBracket : c ≠ '[' := ne_of_accepts accepted rfl
  have notParen : c ≠ '(' := ne_of_accepts accepted rfl
  have notBlank : isAsciiBlank c = false := by
    rw [Bool.eq_false_iff]
    intro blank
    simp only [isAsciiBlank, Bool.or_eq_true, beq_iff_eq] at blank
    rcases blank with (((rfl | rfl) | rfl) | rfl) | rfl <;> cases accepted
  simp [isPlain, notBracket, notParen, notBlank]

private theorem isPlain_of_word {c : Char} (accepted : Lexeme.isBody c = true ∨ c = '/') :
    isPlain c = true := by
  rcases accepted with body | rfl
  · exact isPlain_of_isBody body
  · decide

private theorem isPlain_of_marker {lead : List Char} (marked : lead = [] ∨ lead = ['!']) :
    ∀ c ∈ lead, isPlain c = true := by
  rcases marked with rfl | rfl
  · simp
  · simp [isPlain, isAsciiBlank]

private theorem movePlain_overt {c : Char} {cs : List Char} (plain : isPlain c = true)
    (overt : Overt (c :: cs)) (before : List Char) :
    movePlain rule before c cs.head? = .advance .plain := by
  cases cs with
  | nil =>
      simp only [isPlain, Bool.not_eq_true', Bool.or_eq_false_iff] at plain
      simp [movePlain, plain]
  | cons d rest =>
      refine movePlain_plain plain ?_ before
      intro slash
      refine ⟨d, rest, rfl, ?_, ?_⟩
      · rintro rfl
        exact overt.line ⟨[], rest, by rw [slash]; rfl⟩
      · rintro rfl
        exact overt.block ⟨[], rest, by rw [slash]; rfl⟩

private theorem sweep_plain {run rest : List Char} (plain : ∀ c ∈ run, isPlain c = true)
    (overt : Overt (run ++ rest)) (before : List Char) :
    sweep (move rule) .plain before (run ++ rest) =
      sweep (move rule) .plain (run.reverse ++ before) rest := by
  induction run generalizing before with
  | nil => rfl
  | cons c run ih =>
      have moved : move rule .plain before c (run ++ rest).head? = .advance .plain :=
        movePlain_overt (plain c List.mem_cons_self) overt before
      have later : Overt (run ++ rest) := overt.part ⟨[c], [], by simp⟩
      rw [List.cons_append, sweep_cons_advance (move rule) moved,
        ih (fun d member => plain d (List.mem_cons_of_mem c member)) later]
      simp

private theorem sweep_closed {c : Char} (other : c ≠ '!') (before cs : List Char) :
    (sweep (move rule) .closed before (c :: cs)).rest =
      (sweep (move rule) .plain before (c :: cs)).rest := by
  have same : move rule .closed before c cs.head? = move rule .plain before c cs.head? := by
    simp [move, other]
  rw [sweep_cons, sweep_cons, same]
  cases move rule .plain before c cs.head? <;> rfl

private theorem sweep_bracket {value rest : List Char} (overt : Overt ('[' :: value ++ ']' :: rest))
    (matched : split? .square [] ('[' :: (value ++ ']' :: rest)) =
      some ('[' :: value, ']' :: rest)) (before : List Char) :
    sweep (move rule) .plain before ('[' :: (value ++ ']' :: rest)) =
      sweep (move rule) .closed (']' :: (value.reverse ++ '[' :: before)) rest := by
  have opened : move rule .plain before '[' (value ++ ']' :: rest).head? =
      .advance (.bracket 1) := rfl
  rw [sweep_cons_advance (move rule) opened]
  exact sweep_matched (Or.inr rfl) (.bracket .none 1) overt matched _

private theorem sweep_group {inside rest before : List Char}
    (overt : Overt ('(' :: inside ++ ')' :: rest))
    (matched : split? .parens [] ('(' :: (inside ++ ')' :: rest)) =
      some ('(' :: inside, ')' :: rest)) (opens : opensGroup rule before = true) :
    sweep (move rule) .plain before ('(' :: (inside ++ ')' :: rest)) =
      sweep (move rule) .closed (')' :: (inside.reverse ++ '(' :: before)) rest := by
  have opened : move rule .plain before '(' (inside ++ ')' :: rest).head? =
      .advance (.group 1) := by
    simp [move, movePlain, isAsciiBlank, opens]
  rw [sweep_cons_advance (move rule) opened]
  exact sweep_matched (Or.inl rfl) (.group .none 1) overt matched _

private theorem sweep_separator (before : List Char) (state : State) (passed cs : List Char) :
    (sweep (move rule) state (passed ++ ':' :: before) cs).rest =
      (sweep (move rule) state passed cs).rest := by
  have opens : ∀ passed, opensGroup rule (passed ++ ':' :: before) = opensGroup rule passed := by
    intro passed
    cases passed with
    | nil => rfl
    | cons c passed =>
        by_cases marked : c = '!'
        · subst marked
          cases passed <;> rfl
        · simp [opensGroup, rule, marked, List.isPrefixOf]
  -- only the opening of a group looks back, and at most over a marker
  rw [sweep_frame]
  intro state passed c ahead
  cases state <;> simp only [move, movePlain, opens]

private theorem sweep_marker {trail : List Char} (marked : trail = [] ∨ trail = ['!'])
    {state : State}
    (settled : state = .plain ∨ state = .closed) (before : List Char) :
    (sweep (move rule) state before trail).rest = [] := by
  rcases marked with rfl | rfl
  · rfl
  · rcases settled with rfl | rfl <;> rfl

private theorem split_eq_of_sweep {cs : List Char}
    (swept : (sweep (move rule) .plain [] cs).rest = []) :
    split [':'] cs = (cs, []) := by
  have whole := split_append [':'] cs
  have ended : (split [':'] cs).2 = [] := swept
  rw [ended, List.append_nil] at whole
  exact Prod.ext whole ended

end Body

namespace Tree

open Printing Body

private theorem sweep_opacity {offset : Nat} {cs : List Char} {opacity : Opacity}
    (found : opacity? offset cs = some opacity) (closed : opacity.closed = true)
    (overt : Overt cs) (before : List Char) :
    ∃ after state, cs = opacity.range.text.toList ++ after ∧ (state = .plain ∨ state = .closed) ∧
      (sweep (move rule) .closed before cs).rest =
        (sweep (move rule) state (opacity.range.text.toList.reverse ++ before) after).rest := by
  unfold opacity? at found
  split at found
  next rest =>
    cases matching : Bracket.split? .square [] ('[' :: rest) with
    | none =>
        rw [matching] at found
        cases found
        cases closed
    | some parts =>
        obtain ⟨content, ended⟩ := parts
        rw [matching] at found
        cases found
        obtain ⟨value, after, rfl, rfl, rfl⟩ := Bracket.split?_square matching
        have inner : Overt ('[' :: value ++ ']' :: after) := overt.part ⟨['/'], [], by simp⟩
        have slash : sweep (move rule) .plain before ('/' :: '[' :: (value ++ ']' :: after)) =
            sweep (move rule) .plain ('/' :: before) ('[' :: (value ++ ']' :: after)) := rfl
        refine ⟨after, .closed, by simp, Or.inr rfl, ?_⟩
        rw [sweep_closed (by decide), slash, sweep_bracket inner matching]
        simp
  next rest _ =>
    have whole := splitRun_append (fun c _ => c.isDigit) rest
    have digits := (Lexeme.splitRun_forall Char.isDigit rest).1
    generalize splitRun (fun c _ => c.isDigit) rest = parts at found whole digits
    obtain ⟨number, after⟩ := parts
    cases number with
    | nil => cases found
    | cons first others =>
        cases found
        subst whole
        have plain : ∀ c ∈ '/' :: first :: others, isPlain c = true := by
          intro c member
          rcases List.mem_cons.1 member with rfl | inNumber
          · decide
          · exact isPlain_of_isWordChar (isWordChar_of_isDigit (digits c inNumber))
        refine ⟨after, .plain, by simp, Or.inl rfl, ?_⟩
        rw [sweep_closed (by decide), Token.toList_ofChars]
        exact congrArg Sweep.rest (sweep_plain plain overt before)
  · cases found

private theorem sweep_closedLeaf {offset : Nat} {lead body rest : List Char} {stem content : Token}
    (covers : (closedLeaf offset lead stem body content rest).range =
      .ofChars offset (lead ++ body ++ rest))
    (closed : (closedLeaf offset lead stem body content rest).opacity?.all (·.closed) = true)
    (overt : Overt rest) (before : List Char) :
    (sweep (move rule) .closed before rest).rest = [] := by
  have ends : ∀ cs, marker cs = [] ∨ marker cs = ['!'] := by
    intro cs
    obtain ⟨following, _, marked, _⟩ := exists_marker cs
    exact marked.cases
  unfold closedLeaf at covers closed
  dsimp only at covers closed
  generalize opacityAt : (if stem.text.toList.getLast? == some '-' then
    opacity? (offset + byteLength lead + byteLength body) rest else none) = opacity at covers closed
  -- the leaf covers all, so nothing stands behind its opacity but its marker
  rw [bracketLeaf_range] at covers
  have texts := Token.ofChars_inj covers
  simp only [List.append_assoc, List.append_cancel_left_eq] at texts
  cases opacity with
  | none =>
      simp only [Option.map_none, Option.getD_none, List.length_nil, List.drop_zero,
        List.nil_append] at texts
      rw [← texts]
      exact sweep_marker (ends rest) (Or.inr rfl) before
  | some opacity =>
      obtain ⟨styled, found⟩ : stem.text.toList.getLast? = some '-' ∧
          opacity? (offset + byteLength lead + byteLength body) rest = some opacity := by
        split at opacityAt
        next styled => exact ⟨eq_of_beq styled, opacityAt⟩
        · cases opacityAt
      have complete : opacity.closed = true := by
        simpa [bracketLeaf, styled, Leaf.opacity?] using closed
      obtain ⟨after, state, whole, settled, swept⟩ := sweep_opacity found complete overt before
      simp only [Option.map_some, Option.getD_some] at texts
      rw [whole, List.drop_left, List.append_cancel_left_eq] at texts
      rw [swept, ← texts]
      exact sweep_marker (ends after) settled _

/-- What is attached to a variant, if it is closed and goes to the end, is swept to the end. -/
theorem sweep_variantSpan {interior : Interior} (framed : Framed interior) {variant : Variant}
    {offset : Nat} {text cs : List Char} (spelled : variant.range = .ofChars offset text)
    (covers : (variantSpan reading interior variant cs).range = .ofChars offset (text ++ cs))
    (sound : (Spread.ofNode (variantSpan reading interior variant cs)).hasFaults = false)
    (overt : Overt cs) (before : List Char) :
    (sweep (move rule) .plain (':' :: before) cs).rest = [] := by
  obtain ⟨body, rest, whole, spanAt⟩ := @spanAt_variantSpan reading _ framed variant cs
  generalize variantSpan reading interior variant cs = node at covers sound spanAt
  have goesOn {body : List Char} {child : Option Node}
      (covers : (Node.variantSpan (.ofChars variant.range.start
        (variant.range.text.toList ++ body)) variant child).range = .ofChars offset (text ++ cs)) :
      body = cs := by
    rw [Node.range, spelled, Token.start_ofChars, Token.toList_ofChars] at covers
    exact List.append_cancel_left (Token.ofChars_inj covers)
  -- a variant without a body and a group that is not closed are faults
  cases spanAt with
  | empty _ =>
      rw [Spread.ofNode, Entry.gather] at sound
      split at sound <;> cases sound
  | group _ groupAt =>
      have all := goesOn covers
      subst all
      cases groupAt with
      | opened _ _ =>
          rw [Spread.ofNode, Entry.gather] at sound
          split at sound <;> cases sound
      | @closed lead inside trail _ marked trailing matched =>
          obtain rfl : rest = [] := by simpa using whole
          rw [List.append_nil] at matched
          have opens : opensGroup rule (lead.reverse ++ ':' :: before) = true := by
            rcases marked.cases with rfl | rfl <;> simp [opensGroup, rule]
          rw [List.append_assoc] at overt ⊢
          have inner : Overt ('(' :: inside ++ ')' :: trail) := overt.part ⟨lead, [], by simp⟩
          rw [sweep_plain (isPlain_of_marker marked.cases) overt, List.cons_append,
            sweep_group inner (by simpa using matched) opens]
          exact sweep_marker trailing.cases (Or.inr rfl) _
  | @item body tail rest _ _ delimited _ _ _ =>
      have all := goesOn covers
      subst all
      obtain ⟨rfl, rfl⟩ : tail = [] ∧ rest = [] := by simpa using whole
      have swept := congrArg Prod.snd delimited
      rw [List.append_nil, List.append_nil] at swept
      exact (sweep_separator before .plain [] body).trans swept

/-- A text that a variant in front of it has for its own: a group, with its marker if it has one, or
a body to the end. -/
def Enclosed (cs : List Char) : Prop :=
  (cs.drop (marker cs).length).head? = some '(' ∨ split [':'] cs = (cs, [])

private theorem hasFaults_openBracket (offset : Nat) (lead cs content : List Char) (stem : Token) :
    (Spread.ofNode (openBracket offset lead stem cs content)).hasFaults = true := by
  unfold openBracket
  dsimp only
  split
  · rw [Spread.ofNode, Entry.gather]
    rfl
  · unfold bracketLeaf
    split
    · rw [Spread.ofNode, Entry.gather]
      rfl
    · split
      · rw [Spread.ofNode, Entry.gather]
        rfl
      · rw [Spread.ofNode, Entry.gather]
        rfl

private theorem closed_of_sound {leaf : Leaf}
    (sound : (Spread.ofNode (.leaf leaf)).hasFaults = false) :
    leaf.opacity?.all (·.closed) = true := by
  rw [Spread.ofNode, Entry.gather, Entry.ofLeaf] at sound
  split at sound
  next closed => exact (Bool.and_eq_true_iff.1 closed).2
  · cases sound

private theorem sweep_bracketed {interior : Interior} (framed : Framed interior) {offset : Nat}
    {lead stem cs : List Char} (marked : IsMarker lead (stem ++ '[' :: cs))
    (plain : ∀ c ∈ lead ++ stem, isPlain c = true)
    (covers : (bracket reading interior offset (.ofChars (offset + byteLength lead) stem)
      (lead ++ stem ++ '[' :: cs)).range = .ofChars offset (lead ++ stem ++ '[' :: cs))
    (sound : (Spread.ofNode (bracket reading interior offset
      (.ofChars (offset + byteLength lead) stem) (lead ++ stem ++ '[' :: cs))).hasFaults = false)
    (overt : Overt (lead ++ stem ++ '[' :: cs)) :
    (sweep (move rule) .plain [] (lead ++ stem ++ '[' :: cs)).rest = [] := by
  cases matching : Bracket.split? .square [] ('[' :: cs) with
  | none =>
      rw [bracket_open reading interior offset marked matching, hasFaults_openBracket] at sound
      cases sound
  | some parts =>
      obtain ⟨content, closed⟩ := parts
      obtain ⟨value, rest, rfl, rfl, rfl⟩ := Bracket.split?_square matching
      have inner : Overt ('[' :: value ++ ']' :: rest) := overt.part ⟨lead ++ stem, [], by simp⟩
      have later : Overt rest := inner.part ⟨'[' :: value ++ [']'], [], by simp⟩
      rw [sweep_plain plain overt, sweep_bracket inner matching]
      rcases separated_cases reading.separator lead rest with ⟨rfl, after, rfl⟩ | plain
      · rw [List.nil_append, byteLength_nil, Nat.add_zero,
          bracket_variant reading interior offset marked matching] at covers sound
        have all : Token.ofChars offset ([] ++ stem ++ '[' :: (value ++ ']' :: (':' :: after))) =
            .ofChars offset (stem ++ '[' :: value ++ [']'] ++ [':'] ++ after) := by simp
        have behind : ∀ before, sweep (move rule) .plain before (':' :: after) =
            sweep (move rule) .plain (':' :: before) after :=
          @sweep_plain [':'] after (by simp [isPlain, isAsciiBlank]) later
        have next : Overt after := later.part ⟨reading.separator, [], by simp⟩
        change (sweep (move rule) .closed _ (':' :: after)).rest = []
        rw [sweep_closed (by decide), behind]
        exact sweep_variantSpan framed rfl (covers.trans all) sound next _
      · rw [bracket_leaf reading interior offset marked matching plain] at covers sound
        have closed := closed_of_sound sound
        have all : Token.ofChars offset (lead ++ stem ++ '[' :: (value ++ ']' :: rest)) =
            .ofChars offset (lead ++ (stem ++ '[' :: value ++ [']']) ++ rest) := by simp
        exact sweep_closedLeaf (covers.trans all) closed later _

/-- A closed item that hides no bracket from a body is all that a variant in front of it takes. -/
theorem enclosed_of_begins {interior : Interior} (framed : Framed interior) {offset : Nat}
    {cs : List Char} {node : Node} (begins : Begins interior offset cs node)
    (covers : node.range = .ofChars offset cs) (sound : (Spread.ofNode node).hasFaults = false)
    (known : (Spread.ofNode node).unknown = []) (overt : Overt cs) : Enclosed cs := by
  obtain ⟨lexeme, after, scanned, begun⟩ := begins
  have word := Lexeme.word_of_scan? scanned
  obtain ⟨front, rfl, scans⟩ := Lexeme.scans_of_scan? scanned
  have plain : ∀ start chars, Token.ofChars start chars ∈ lexeme.word? →
      ∀ c ∈ chars, isPlain c = true := by
    intro start chars isWord c member
    refine isPlain_of_word (word _ isWord c ?_)
    rwa [Token.toList_ofChars]
  cases scans with
  | lineComment _ _ => cases begun
  | blockComment => cases begun
  | @variant name _ _ _ =>
      cases begun
      have legal : ∀ c ∈ name ++ [':'], isPlain c = true := by
        rw [List.forall_mem_append]
        exact ⟨plain _ name rfl, by simp [isPlain, isAsciiBlank]⟩
      have later : Overt after := overt.part ⟨name ++ [':'], [], by simp⟩
      simp only [Token.toList_ofChars] at covers sound
      refine Or.inr (split_eq_of_sweep ?_)
      rw [sweep_plain legal overt, List.reverse_append]
      exact sweep_variantSpan framed rfl covers sound later _
  | @bracket lead stem _ marked _ =>
      cases begun
      have parts : lead ++ stem ++ ['['] ++ after = lead ++ stem ++ '[' :: after := by simp
      have legal : ∀ c ∈ lead ++ stem, isPlain c = true := by
        rw [List.forall_mem_append]
        exact ⟨isPlain_of_marker marked.cases, plain _ stem rfl⟩
      rw [parts] at covers sound overt ⊢
      exact Or.inr (split_eq_of_sweep (sweep_bracketed framed marked legal covers sound overt))
  | @className lead body trail _ marked _ _ trailing =>
      cases begun
      have legal : ∀ c ∈ lead ++ body ++ trail, isPlain c = true := by
        rw [List.forall_mem_append, List.forall_mem_append]
        exact ⟨⟨isPlain_of_marker marked.cases, plain _ body rfl⟩,
          isPlain_of_marker trailing.cases⟩
      obtain rfl : after = [] := by simpa using Token.ofChars_inj covers
      refine Or.inr (split_eq_of_sweep ?_)
      rw [sweep_plain legal overt]
      rfl
  | @group lead _ marked =>
      left
      have parts : lead ++ ['('] ++ after = lead ++ '(' :: after := by simp
      rw [parts, marker_append marked, List.drop_left]
      rfl
  | @unhandled run _ nonempty =>
      cases begun
      cases known

end Tree

end ClassExpr
