import ClassExpr.Proofs.Printing.Balance

set_option autoImplicit false

/-! Where a printed phrase ends for a variant that it follows. The body of the variant is swept with
brackets and groups passed as a whole, so it ends with the phrase and not before. -/

namespace ClassExpr.Printing

open Text Body

def rule : Rule :=
  ⟨[':'], true⟩

def isPlain (c : Char) : Bool :=
  !(isAsciiBlank c || c == '[' || c == '(')

/-- A phrase starts at the start of the body or behind a separator. -/
def Fresh (before : List Char) : Prop :=
  before = [] ∨ before.head? = some ':'

def Settled (state : State) : Prop :=
  state = .plain ∨ state = .closed ∨ state = .done

theorem movePlain_plain {c : Char} {cs : List Char} (plain : isPlain c = true)
    (noComment : NoComment c cs) (before : List Char) :
    movePlain rule before c cs.head? = .advance .plain := by
  have notBlank : isAsciiBlank c = false := by
    simp only [isPlain, Bool.not_eq_true', Bool.or_eq_false_iff] at plain
    exact plain.1.1
  have notBracket : c ≠ '[' := ne_of_accepts plain rfl
  have notParen : c ≠ '(' := ne_of_accepts plain rfl
  unfold movePlain
  rw [notBlank, beq_eq_false_iff_ne.2 notBracket, beq_eq_false_iff_ne.2 notParen]
  by_cases slash : c = '/'
  · obtain ⟨d, rest, rfl, notSlash, notStar⟩ := noComment slash
    simp [notSlash, notStar]
  · simp [slash]

/-- Over such a text a sweep comes from one state to the other, wherever the text stands. -/
def Passes (first : State) (cs : List Char) (last : State) : Prop :=
  ∀ before rest, sweep (move rule) first before (cs ++ rest) =
    sweep (move rule) last (cs.reverse ++ before) rest

theorem Passes.append {first middle last : State} {cs ds : List Char}
    (left : Passes first cs middle) (right : Passes middle ds last) :
    Passes first (cs ++ ds) last := by
  intro before rest
  rw [List.append_assoc, left, right, List.reverse_append, List.append_assoc]

theorem Passes.cons {first middle last : State} {c : Char} {cs : List Char}
    (moved : ∀ before rest, move rule first before c (cs ++ rest).head? = .advance middle)
    (later : Passes middle cs last) : Passes first (c :: cs) last := by
  intro before rest
  rw [List.cons_append, sweep_cons_advance (move rule) (moved before rest), later,
    List.reverse_cons, List.append_assoc]
  rfl

private theorem passes_nil (state : State) : Passes state [] state :=
  fun _ _ => rfl

private theorem passes_plain {run : List Char} (plain : ∀ c ∈ run, isPlain c = true)
    (calm : Calm run) :
    Passes .plain run .plain := by
  induction calm with
  | nil => exact passes_nil .plain
  | @cons c cs _ noComment _ ih =>
      refine Passes.cons ?_ (ih fun d member => plain d (List.mem_cons_of_mem c member))
      intro before rest
      exact movePlain_plain (plain c List.mem_cons_self) (noComment.append rest) before

private theorem passes_value (value : Value) : Passes .plain (bracketed [] value) .closed := by
  refine Passes.cons (fun _ _ => rfl : ∀ before rest,
    move rule .plain before '[' (value.chars ++ [']'] ++ rest).head? = .advance (.bracket 1)) ?_
  have accepted := value.accepted
  generalize value.chars = cs at accepted
  induction cs with
  | nil => exact Passes.cons (fun _ _ => rfl) (passes_nil .closed)
  | cons c cs ih =>
      have here := accepted c List.mem_cons_self
      refine Passes.cons ?_ (ih fun d member => accepted d (List.mem_cons_of_mem c member))
      intro before rest
      have notOpener := ne_of_accepts here (rfl : isValueChar '[' = false)
      have notCloser := ne_of_accepts here (rfl : isValueChar ']' = false)
      have notSingle := ne_of_accepts here (rfl : isValueChar '\'' = false)
      have notDouble := ne_of_accepts here (rfl : isValueChar '"' = false)
      simp [move, notOpener, notCloser, notSingle, notDouble]

/-- What goes on right behind a bracket, but for a marker, is read as plain text is. -/
theorem passes_closed {c : Char} {cs : List Char} {last : State} (plain : isPlain c = true)
    (notBang : c ≠ '!') (noComment : NoComment c cs) (passes : Passes .plain (c :: cs) last) :
    Passes .closed (c :: cs) last := by
  intro before rest
  rw [← passes before rest]
  have moved := movePlain_plain plain (noComment.append rest) before
  have closed : move rule .closed before c (cs ++ rest).head? = .advance .plain := by
    rw [← moved]
    simp [move, notBang]
  rw [List.cons_append, sweep_cons_advance (move rule) closed,
    @sweep_cons_advance _ (move rule) .plain .plain before c (cs ++ rest) moved]

private theorem passes_slash_value (value : Value) :
    Passes .plain ('/' :: bracketed [] value) .closed := by
  refine Passes.cons ?_ (passes_value value)
  intro before rest
  exact movePlain_plain (by decide) (fun _ => ⟨'[', _, rfl, by decide, by decide⟩) before

theorem isPlain_of_isWordChar {c : Char} (word : isWordChar c = true) : isPlain c = true := by
  have notBracket := ne_of_accepts word (rfl : isWordChar '[' = false)
  have notParen := ne_of_accepts word (rfl : isWordChar '(' = false)
  have notBlank : isAsciiBlank c = false := by
    rw [Bool.eq_false_iff]
    intro blank
    have white := isBlank_of_isAsciiBlank blank
    rw [isBlank_of_isWordChar word] at white
    cases white
  simp [isPlain, notBracket, notParen, notBlank]

theorem Run.passes {accepts : Char → Bool} (run : Run accepts)
    (words : ∀ c, accepts c = true → isWordChar c = true) : Passes .plain run.chars .plain :=
  passes_plain (fun c member => isPlain_of_isWordChar (words c (run.accepted c member)))
    (Run.calm run words)

private theorem Run.passes_slash {accepts : Char → Bool} (run : Run accepts)
    (words : ∀ c, accepts c = true → isWordChar c = true) :
    Passes .plain ('/' :: run.chars) .plain := by
  refine passes_plain ?_ (Run.calm_slash run words)
  intro c member
  rcases List.mem_cons.1 member with rfl | inRun
  · decide
  · exact isPlain_of_isWordChar (words c (run.accepted c inRun))

private theorem passes_mark (important : Bool) : Passes .plain (mark important) .plain := by
  cases important with
  | false => exact passes_nil .plain
  | true => exact Passes.cons (fun _ _ => rfl) (passes_nil .plain)

private theorem passes_hyphen (word : Word) : Passes .plain (word.chars ++ ['-']) .plain :=
  (Run.passes word fun _ accepted => accepted).append
    (Passes.cons (fun _ _ => rfl) (passes_nil .plain))

private theorem passes_bracketed {stem : List Char} (passes : Passes .plain stem .plain)
    (value : Value) :
    Passes .plain (bracketed stem value) .closed := by
  have parts : bracketed stem value = stem ++ bracketed [] value := by simp [bracketed]
  rw [parts]
  exact passes.append (passes_value value)

theorem ClassName.passes (name : ClassName) : Passes .plain name.print .plain := by
  apply (Run.passes name.first fun _ accepted => accepted).append
  generalize name.others = others
  induction others with
  | nil => exact passes_nil .plain
  | cons word others ih =>
      rw [List.flatMap_cons]
      exact (Run.passes_slash word fun _ accepted => accepted).append ih

theorem Strength.passes (strength : Strength) :
    ∃ state, (state = .plain ∨ state = .closed) ∧ Passes .closed strength.print state := by
  cases strength with
  | number digits =>
      have calm := Run.calm_slash digits fun _ => isWordChar_of_isDigit
      refine ⟨.plain, Or.inl rfl, ?_⟩
      cases calm with
      | cons _ noComment _ =>
          exact passes_closed (by decide) (by decide) noComment
            (Run.passes_slash digits fun _ => isWordChar_of_isDigit)
  | bracket value =>
      exact ⟨.closed, Or.inr rfl, passes_closed (by decide) (by decide)
        (fun _ => ⟨'[', _, rfl, by decide, by decide⟩) (passes_slash_value value)⟩

theorem Utility.passes (utility : Utility) :
    ∃ state, (state = .plain ∨ state = .closed) ∧ Passes .plain utility.print state := by
  cases utility with
  | className name => exact ⟨.plain, Or.inl rfl, name.passes⟩
  | property prop value =>
      exact ⟨.closed, Or.inr rfl,
        passes_bracketed (Run.passes prop.word fun _ accepted => accepted) value⟩
  | style stem value strength =>
      have bracket := passes_bracketed (passes_hyphen stem) value
      cases strength with
      | none => exact ⟨.closed, Or.inr rfl, bracket.append (passes_nil .closed)⟩
      | some strength =>
          obtain ⟨state, settled, passes⟩ := strength.passes
          exact ⟨state, settled, bracket.append passes⟩
  | slashed stem value =>
      rw [Utility.print, bracketed_slash]
      exact ⟨.closed, Or.inr rfl,
        (Run.passes stem fun _ accepted => accepted).append (passes_slash_value value)⟩
  | bare value => exact ⟨.closed, Or.inr rfl, passes_value value⟩

theorem Atom.passes (atom : Atom) : ∃ state, Settled state ∧ Passes .plain atom.print state := by
  obtain ⟨state, settled, passes⟩ := atom.utility.passes
  have front := (passes_mark atom.leading).append passes
  unfold Atom.print
  cases atom.trailing with
  | false =>
      refine ⟨state, ?_, front.append (passes_nil state)⟩
      rcases settled with plain | closed
      · exact Or.inl plain
      · exact Or.inr (Or.inl closed)
  | true =>
      rcases settled with rfl | rfl
      · exact ⟨.plain, Or.inl rfl, front.append (passes_mark true)⟩
      · exact ⟨.done, Or.inr (Or.inr rfl),
          front.append (Passes.cons (fun _ _ => rfl) (passes_nil .done))⟩

theorem Modifier.passes (modifier : Modifier) : Passes .plain modifier.print .plain := by
  have colon : Passes .plain [':'] .plain := Passes.cons (fun _ _ => rfl) (passes_nil .plain)
  have closedColon : Passes .closed [':'] .plain :=
    passes_closed (by decide) (by decide) (noComment_of_ne (by decide) _) colon
  cases modifier with
  | named name => exact (Run.passes name fun _ => isWordChar_of_isNameChar).append colon
  | bare value => exact (passes_value value).append closedColon
  | styled stem value => exact (passes_bracketed (passes_hyphen stem) value).append closedColon

private theorem passes_balanced {mayOpen : Bool} {cs : List Char} (balanced : Balanced mayOpen cs)
    {depth : Nat} (positive : 1 ≤ depth) : Passes (.group depth) cs (.group depth) := by
  induction balanced generalizing depth with
  | nil => exact passes_nil _
  | @step _ c cs calm _ _ ih =>
      refine Passes.cons ?_ (ih positive)
      intro before rest
      have notOpener := ne_of_accepts calm (rfl : isCalm '(' = false)
      have notCloser := ne_of_accepts calm (rfl : isCalm ')' = false)
      simp [move, notOpener, notCloser]
  | @nest inside cs _ _ innerIH laterIH =>
      -- the depth is general, so the inside is passed one deeper by the same induction
      have opened : Passes (.group depth) ('(' :: inside) (.group (depth + 1)) :=
        Passes.cons (fun _ _ => rfl) (innerIH (by omega))
      have closed : Passes (.group (depth + 1)) (')' :: cs) (.group depth) := by
        refine Passes.cons ?_ (laterIH positive)
        intro before rest
        have deeper : ¬depth + 1 ≤ 1 := by omega
        simp [move, deeper]
      exact opened.append closed

/-- A printed phrase is passed as a whole where one may start. -/
theorem Phrase.passes {before : List Char} (fresh : Fresh before) (rest : List Char)
    (phrase : Phrase) : ∃ state, Settled state ∧
      sweep (move rule) .plain before (phrase.print ++ rest) =
        sweep (move rule) state (phrase.print.reverse ++ before) rest := by
  cases phrase with
  | atom marked =>
      obtain ⟨state, settled, passes⟩ := marked.passes
      exact ⟨state, settled, passes before rest⟩
  | modified modifier body =>
      have behind : Fresh (modifier.print.reverse ++ before) := by
        right
        simp [Modifier.print]
      obtain ⟨state, settled, swept⟩ := Phrase.passes behind rest body
      refine ⟨state, settled, ?_⟩
      rw [Phrase.print, List.append_assoc, modifier.passes, swept, List.reverse_append,
        List.append_assoc]
  | group leading inside trailing =>
      have opens : opensGroup rule ((mark leading).reverse ++ before) = true := by
        rcases fresh with rfl | separator
        · cases leading <;> rfl
        · obtain ⟨others, rfl⟩ := List.head?_eq_some_iff.1 separator
          cases leading <;> simp [mark, opensGroup, rule]
      have opened : move rule .plain ((mark leading).reverse ++ before) '('
          (inside.print ++ [')'] ++ mark trailing ++ rest).head? = .advance (.group 1) := by
        simp [move, movePlain, isAsciiBlank, opens]
      have within := passes_balanced inside.balanced_print (Nat.le_refl 1)
      have closed : Passes (.group 1) [')'] .closed := Passes.cons (fun _ _ => rfl) (passes_nil _)
      obtain ⟨state, settled, trail⟩ : ∃ state, Settled state ∧
          Passes .closed (mark trailing) state := by
        cases trailing with
        | false => exact ⟨.closed, Or.inr (Or.inl rfl), passes_nil _⟩
        | true =>
            exact ⟨.done, Or.inr (Or.inr rfl), Passes.cons (fun _ _ => rfl) (passes_nil _)⟩
      have behind := ((within.append closed).append trail)
        ('(' :: ((mark leading).reverse ++ before)) rest
      refine ⟨state, settled, ?_⟩
      have parts : (Phrase.group leading inside trailing).print ++ rest =
          mark leading ++ '(' :: (inside.print ++ [')'] ++ mark trailing ++ rest) := by
        simp [Phrase.print]
      rw [parts, passes_mark leading, sweep_cons_advance (move rule) opened, behind]
      simp [Phrase.print]

/-- What follows a phrase: the end of its window or a gap. -/
def Follows (rest : List Char) : Prop :=
  rest.head?.all isAsciiBlank = true

/-- The body of a variant in front of a phrase is the phrase. -/
theorem split_print (phrase : Phrase) {rest : List Char} (follows : Follows rest) :
    split [':'] (phrase.print ++ rest) = (phrase.print, rest) := by
  obtain ⟨state, settled, swept⟩ := Phrase.passes (Or.inl rfl : Fresh []) rest phrase
  have ended : sweep (move rule) state phrase.print.reverse rest =
      ⟨state, phrase.print.reverse, rest⟩ := by
    cases rest with
    | nil => rfl
    | cons c rest =>
        have blank : isAsciiBlank c = true := by simpa [Follows] using follows
        have notBang : c ≠ '!' := ne_of_accepts blank rfl
        apply sweep_cons_halt (move rule)
        rcases settled with rfl | rfl | rfl
        · simp [move, movePlain, blank]
        · simp [move, movePlain, blank, notBang]
        · rfl
  rw [List.append_nil, ended] at swept
  have parts : split [':'] (phrase.print ++ rest) =
      ((sweep (move rule) .plain [] (phrase.print ++ rest)).before.reverse,
        (sweep (move rule) .plain [] (phrase.print ++ rest)).rest) := rfl
  rw [parts, swept, List.reverse_reverse]

end ClassExpr.Printing
