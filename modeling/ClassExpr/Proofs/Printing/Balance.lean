import ClassExpr.Body
import ClassExpr.Proofs.Bracket
import ClassExpr.Proofs.Printing.Syntax

set_option autoImplicit false

/-! What a printed phrase looks like to whoever counts brackets in it. Its parentheses come in
pairs, it has no quotes and no comments, and no parenthesis stands right behind a letter, so that
none of them opens the argument of a call. -/

namespace ClassExpr.Printing

open Text

theorem ne_of_accepts {accepts : Char → Bool} {c d : Char} (accepted : accepts c = true)
    (refused : accepts d = false) : c ≠ d := by
  rintro rfl
  rw [accepted] at refused
  cases refused

def isCalm (c : Char) : Bool :=
  !(c == '(' || c == ')' || Bracket.isQuote c)

private theorem isCalm_of_isValueChar {c : Char} (value : isValueChar c = true) :
    isCalm c = true := by
  simp only [isValueChar, isCalm, Bracket.isQuote, Bool.not_eq_true', Bool.or_eq_false_iff]
    at value ⊢
  simp [value]

/-- A slash is followed by something that makes no comment of it. -/
def NoComment (c : Char) (cs : List Char) : Prop :=
  c = '/' → ∃ d rest, cs = d :: rest ∧ d ≠ '/' ∧ d ≠ '*'

theorem NoComment.append {c : Char} {cs : List Char} (noComment : NoComment c cs)
    (rest : List Char) : NoComment c (cs ++ rest) := by
  intro slash
  obtain ⟨d, after, rfl, other⟩ := noComment slash
  exact ⟨d, after ++ rest, rfl, other⟩

theorem noComment_of_ne {c : Char} (other : c ≠ '/') (cs : List Char) : NoComment c cs :=
  fun slash => absurd slash other

inductive Calm : List Char → Prop
  | nil : Calm []
  | cons {c : Char} {cs : List Char} (calm : isCalm c = true) (noComment : NoComment c cs)
      (later : Calm cs) : Calm (c :: cs)

theorem Calm.append {first second : List Char} (left : Calm first) (right : Calm second) :
    Calm (first ++ second) := by
  induction left with
  | nil => exact right
  | cons calm noComment _ ih => exact Calm.cons calm (noComment.append second) ih

private theorem calm_of_forall {cs : List Char} (calm : ∀ c ∈ cs, isCalm c = true)
    (noSlash : ∀ c ∈ cs, c ≠ '/') : Calm cs := by
  induction cs with
  | nil => exact Calm.nil
  | cons c cs ih =>
      refine Calm.cons (calm c List.mem_cons_self)
        (noComment_of_ne (noSlash c List.mem_cons_self) cs) (ih ?_ ?_)
      · intro d member
        exact calm d (List.mem_cons_of_mem c member)
      · intro d member
        exact noSlash d (List.mem_cons_of_mem c member)

/-- Parentheses in pairs in an otherwise calm text. A parenthesis may open where none of the
letters stands right before it that ends the name of a call. -/
inductive Balanced : Bool → List Char → Prop
  | nil {mayOpen : Bool} : Balanced mayOpen []
  | step {mayOpen : Bool} {c : Char} {cs : List Char} (calm : isCalm c = true)
      (noComment : NoComment c cs) (later : Balanced (c != 'l') cs) : Balanced mayOpen (c :: cs)
  | nest {inside cs : List Char} (inner : Balanced true inside) (later : Balanced true cs) :
      Balanced true ('(' :: inside ++ ')' :: cs)

theorem Balanced.mono {cs : List Char} {mayOpen : Bool} (balanced : Balanced false cs) :
    Balanced mayOpen cs := by
  cases balanced with
  | nil => exact Balanced.nil
  | step calm noComment later => exact Balanced.step calm noComment later

theorem Calm.balanced {cs rest : List Char} (calm : Calm cs) (later : Balanced false rest)
    {mayOpen : Bool} : Balanced mayOpen (cs ++ rest) := by
  induction calm generalizing mayOpen with
  | nil => exact later.mono
  | cons calm noComment _ ih => exact Balanced.step calm (noComment.append rest) ih

end ClassExpr.Printing

namespace ClassExpr.Bracket

open Text Printing

/-- Outside of a call's argument only a parenthesis comes into one. -/
theorem Call.next_ne_argument {before : List Char} {c : Char} {call : Call}
    (outside : call ≠ .argument) (other : c = '(' → call ≠ .url) :
    call.next before c ≠ .argument := by
  cases call with
  | argument => exact absurd rfl outside
  | url =>
      have notOpener : (c == '(') = false := by
        rw [beq_eq_false_iff_ne]
        intro opener
        exact other opener rfl
      simp only [Call.next, Call.next.start, notOpener, Bool.false_eq_true, if_false]
      split <;> simp
  | none =>
      simp only [Call.next, Call.next.start]
      split <;> simp
  | u =>
      simp only [Call.next, Call.next.start]
      split
      · simp
      · split <;> simp
  | ur =>
      simp only [Call.next, Call.next.start]
      split
      · simp
      · split <;> simp

private theorem Call.next_ne_url {before : List Char} {c : Char} (call : Call) (other : c ≠ 'l') :
    call.next before c ≠ .url := by
  have notLast : (c == 'l') = false := beq_eq_false_iff_ne.2 other
  cases call <;> simp only [Call.next, Call.next.start, notLast] <;> grind

private theorem move_calm {pair : Pair} {call : Call} (outside : call ≠ .argument) (depth : Nat)
    (before : List Char) {c : Char} {cs : List Char} (calm : isCalm c = true)
    (noComment : NoComment c cs) (notOpener : c ≠ pair.opener) (notCloser : c ≠ pair.closer) :
    move pair ⟨.code, call, depth⟩ before c cs.head? =
      .advance ⟨.code, call.next before c, depth⟩ := by
  have notParen : c ≠ '(' := ne_of_accepts calm rfl
  have notQuote : isQuote c = false := by
    simp only [isCalm, Bool.not_eq_true', Bool.or_eq_false_iff] at calm
    exact calm.2
  have still : call.next before c ≠ .argument :=
    Call.next_ne_argument outside fun opener => absurd opener notParen
  have noLine : (c == '/' && cs.head? == some '/') = false := by
    rw [Bool.and_eq_false_iff, beq_eq_false_iff_ne]
    by_cases slash : c = '/'
    · obtain ⟨d, rest, rfl, notSlash, _⟩ := noComment slash
      exact Or.inr (beq_eq_false_iff_ne.2 (by simpa using notSlash))
    · exact Or.inl slash
  have noBlock : (c == '/' && cs.head? == some '*') = false := by
    rw [Bool.and_eq_false_iff, beq_eq_false_iff_ne]
    by_cases slash : c = '/'
    · obtain ⟨d, rest, rfl, _, notStar⟩ := noComment slash
      exact Or.inr (beq_eq_false_iff_ne.2 (by simpa using notStar))
    · exact Or.inl slash
  simp only [move, moveCode, if_neg outside, if_neg still, noLine, noBlock, notQuote,
    beq_eq_false_iff_ne.2 notOpener, beq_eq_false_iff_ne.2 notCloser, Bool.false_eq_true, if_false]

private theorem move_open {call : Call} (outside : call ≠ .argument) (notUrl : call ≠ .url)
    (depth : Nat)
    (before : List Char) (ahead : Option Char) :
    move .parens ⟨.code, call, depth⟩ before '(' ahead = .advance ⟨.code, .none, depth + 1⟩ := by
  cases call with
  | argument => exact absurd rfl outside
  | url => exact absurd rfl notUrl
  | none => rfl
  | u => rfl
  | ur => rfl

private theorem move_close {call : Call} (outside : call ≠ .argument) {depth : Nat}
    (positive : 1 ≤ depth)
    (before : List Char) (ahead : Option Char) :
    move .parens ⟨.code, call, depth + 1⟩ before ')' ahead = .advance ⟨.code, .none, depth⟩ := by
  have deeper : ¬depth + 1 ≤ 1 := by omega
  cases call with
  | argument => exact absurd rfl outside
  | url => simp [move, moveCode, Pair.parens, isQuote, Call.next, Call.next.start, deeper]
  | none => simp [move, moveCode, Pair.parens, isQuote, Call.next, Call.next.start, deeper]
  | u => simp [move, moveCode, Pair.parens, isQuote, Call.next, Call.next.start, deeper]
  | ur => simp [move, moveCode, Pair.parens, isQuote, Call.next, Call.next.start, deeper]

/-- A balanced text leaves the depth as it is. -/
theorem sweep_balanced {mayOpen : Bool} {cs : List Char} (balanced : Balanced mayOpen cs)
    {call : Call} (outside : call ≠ .argument) (fresh : mayOpen = true → call ≠ .url) {depth : Nat}
    (positive : 1 ≤ depth) (before rest : List Char) :
    ∃ last, last ≠ .argument ∧
      sweep (move .parens) ⟨.code, call, depth⟩ before (cs ++ rest) =
        sweep (move .parens) ⟨.code, last, depth⟩ (cs.reverse ++ before) rest := by
  induction balanced generalizing call depth before rest with
  | nil => exact ⟨call, outside, rfl⟩
  | @step mayOpen c cs calm noComment _ ih =>
      have notOpener : c ≠ '(' := ne_of_accepts calm rfl
      have moved := @move_calm .parens call outside depth before c (cs ++ rest) calm
        (noComment.append rest) notOpener (ne_of_accepts calm rfl)
      obtain ⟨last, still, swept⟩ := ih
        (Call.next_ne_argument outside fun opener => absurd opener notOpener)
        (fun other => Call.next_ne_url call (by simpa using other)) positive (c :: before) rest
      refine ⟨last, still, ?_⟩
      rw [List.cons_append, sweep_cons_advance (move .parens) moved, swept]
      simp
  | @nest inside cs _ _ innerIH laterIH =>
      -- the parenthesis ends the name of a call that may have begun, so both parts start anew
      have opened := move_open outside (fresh rfl) depth before
        (inside ++ ')' :: (cs ++ rest)).head?
      obtain ⟨call', inArgument, swept⟩ := @innerIH .none (by decide) (by decide) (depth + 1)
        (by omega) ('(' :: before) (')' :: (cs ++ rest))
      have closed := move_close inArgument positive (inside.reverse ++ '(' :: before)
        (cs ++ rest).head?
      obtain ⟨last, still, after⟩ := @laterIH .none (by decide) (by decide) depth positive
        (')' :: (inside.reverse ++ '(' :: before)) rest
      refine ⟨last, still, ?_⟩
      have parts : '(' :: inside ++ ')' :: cs ++ rest =
          '(' :: (inside ++ ')' :: (cs ++ rest)) := by simp
      rw [parts, sweep_cons_advance (move .parens) opened, swept,
        sweep_cons_advance (move .parens) closed, after]
      simp

private theorem move_closer {pair : Pair} (known : pair.IsKnown) {call : Call}
    (outside : call ≠ .argument)
    (before : List Char) (ahead : Option Char) :
    move pair ⟨.code, call, 1⟩ before pair.closer ahead = .halt := by
  have still : call.next before pair.closer ≠ .argument := by
    apply Call.next_ne_argument outside
    rcases known with rfl | rfl <;> simp [Pair.parens, Pair.square]
  rcases known with rfl | rfl
  · simp only [Pair.parens] at still
    simp [move, moveCode, Pair.parens, outside, still]
  · simp only [Pair.square] at still
    simp [move, moveCode, Pair.square, outside, still]

/-- A text that leaves the depth as it is is split at the closer behind it. -/
theorem split?_of_sweep {pair : Pair} (known : pair.IsKnown) {inside rest : List Char} {call : Call}
    (outside : call ≠ .argument)
    (swept : sweep (move pair) ⟨.code, .none, 1⟩ [pair.opener] (inside ++ pair.closer :: rest) =
      sweep (move pair) ⟨.code, call, 1⟩ (inside.reverse ++ [pair.opener]) (pair.closer :: rest)) :
    split? pair [] (pair.opener :: inside ++ pair.closer :: rest) =
      some (pair.opener :: inside, pair.closer :: rest) := by
  have halted := move_closer known outside (inside.reverse ++ [pair.opener]) rest.head?
  have ended : sweep (move pair) ⟨.code, .none, 1⟩ [pair.opener] (inside ++ pair.closer :: rest) =
      ⟨⟨.code, call, 1⟩, inside.reverse ++ [pair.opener], pair.closer :: rest⟩ := by
    rw [swept, sweep_cons_halt (move pair) halted]
  rw [List.cons_append, split?_eq known]
  simp [ended, List.take_of_length_le]

theorem split?_balanced {inside : List Char} (balanced : Balanced true inside)
    (rest : List Char) :
    split? .parens [] ('(' :: inside ++ ')' :: rest) = some ('(' :: inside, ')' :: rest) := by
  obtain ⟨call, outside, swept⟩ := @sweep_balanced true inside balanced .none (by decide) (by decide)
    1 (Nat.le_refl 1) ['('] (')' :: rest)
  exact split?_of_sweep (Or.inl rfl : Pair.parens.IsKnown) outside swept

private theorem sweep_value {cs : List Char} (accepted : ∀ c ∈ cs, isValueChar c = true)
    {call : Call}
    (outside : call ≠ .argument) (before rest : List Char) :
    ∃ last, last ≠ .argument ∧
      sweep (move .square) ⟨.code, call, 1⟩ before (cs ++ rest) =
        sweep (move .square) ⟨.code, last, 1⟩ (cs.reverse ++ before) rest := by
  induction cs generalizing call before with
  | nil => exact ⟨call, outside, rfl⟩
  | cons c cs ih =>
      have here := accepted c List.mem_cons_self
      have moved := @move_calm .square call outside 1 before c (cs ++ rest)
        (isCalm_of_isValueChar here) (noComment_of_ne (ne_of_accepts here rfl) _)
        (ne_of_accepts here rfl) (ne_of_accepts here rfl)
      obtain ⟨last, still, swept⟩ := @ih (fun d member => accepted d (List.mem_cons_of_mem c member))
        (call.next before c)
        (Call.next_ne_argument outside fun opener => absurd opener (ne_of_accepts here rfl))
        (c :: before)
      refine ⟨last, still, ?_⟩
      rw [List.cons_append, sweep_cons_advance (move .square) moved, swept]
      simp

theorem split?_value (value : Value) (rest : List Char) :
    split? .square [] ('[' :: value.chars ++ ']' :: rest) =
      some ('[' :: value.chars, ']' :: rest) := by
  obtain ⟨call, outside, swept⟩ := @sweep_value value.chars value.accepted .none (by decide) ['[']
    (']' :: rest)
  exact split?_of_sweep (Or.inr rfl : Pair.square.IsKnown) outside swept

end ClassExpr.Bracket

namespace ClassExpr.Printing

open Text

private theorem isCalm_of_isWordChar {c : Char} (word : isWordChar c = true) : isCalm c = true := by
  have notOpener := ne_of_accepts word (rfl : isWordChar '(' = false)
  have notCloser := ne_of_accepts word (rfl : isWordChar ')' = false)
  have notSingle := ne_of_accepts word (rfl : isWordChar '\'' = false)
  have notDouble := ne_of_accepts word (rfl : isWordChar '"' = false)
  simp [isCalm, Bracket.isQuote, notOpener, notCloser, notSingle, notDouble]

theorem isBlank_of_isWordChar {c : Char} (word : isWordChar c = true) : isBlank c = false := by
  simp only [isWordChar, isNameChar, Bool.or_eq_true, beq_iff_eq] at word
  rcases word with (ascii | rfl) | rfl
  · have bounds := toNat_of_isAsciiWord ascii
    simp only [isBlank, Bool.or_eq_false_iff, Bool.and_eq_false_iff, decide_eq_false_iff_not,
      beq_eq_false_iff_ne]
    omega
  · rfl
  · rfl

theorem isWordChar_of_isNameChar {c : Char} (name : isNameChar c = true) : isWordChar c = true := by
  simp [isWordChar, name]

theorem isWordChar_of_isDigit {c : Char} (digit : c.isDigit = true) : isWordChar c = true := by
  simp [isWordChar, isNameChar, isAsciiWord, Char.isAlphanum, digit]

theorem Run.calm {accepts : Char → Bool} (run : Run accepts)
    (words : ∀ c, accepts c = true → isWordChar c = true) : Calm run.chars :=
  calm_of_forall (fun c member => isCalm_of_isWordChar (words c (run.accepted c member)))
    (fun c member => ne_of_accepts (words c (run.accepted c member)) rfl)

theorem Run.exists_cons {accepts : Char → Bool} (run : Run accepts) :
    ∃ c cs, run.chars = c :: cs ∧ accepts c = true := by
  have accepted := run.accepted
  cases chars : run.chars with
  | nil => exact absurd chars run.nonempty
  | cons c cs =>
      rw [chars] at accepted
      exact ⟨c, cs, rfl, accepted c List.mem_cons_self⟩

theorem Word.calm (word : Word) : Calm word.chars :=
  Run.calm word fun _ accepted => accepted

theorem Value.calm (value : Value) : Calm value.chars := by
  refine calm_of_forall ?_ (fun c member => ne_of_accepts (value.accepted c member) rfl)
  intro c member
  exact isCalm_of_isValueChar (value.accepted c member)

private theorem calm_singleton {c : Char} (calm : isCalm c = true) (other : c ≠ '/') : Calm [c] :=
  Calm.cons calm (noComment_of_ne other []) Calm.nil

private theorem calm_mark (important : Bool) : Calm (mark important) := by
  cases important with
  | false => exact Calm.nil
  | true => exact calm_singleton (by decide) (by decide)

private theorem calm_bracketed {stem : List Char} (calm : Calm stem) (value : Value) :
    Calm (bracketed stem value) := by
  have opened : Calm ('[' :: value.chars) :=
    Calm.cons (by decide) (noComment_of_ne (by decide) _) value.calm
  exact (calm.append opened).append (calm_singleton (by decide) (by decide))

theorem calm_slash {d : Char} {cs : List Char} (calm : Calm (d :: cs)) (notSlash : d ≠ '/')
    (notStar : d ≠ '*') : Calm ('/' :: d :: cs) :=
  Calm.cons (by decide) (fun _ => ⟨d, cs, rfl, notSlash, notStar⟩) calm

theorem Run.calm_slash {accepts : Char → Bool} (run : Run accepts)
    (words : ∀ c, accepts c = true → isWordChar c = true) : Calm ('/' :: run.chars) := by
  have calm := Run.calm run words
  obtain ⟨c, cs, chars, accepted⟩ := run.exists_cons
  rw [chars] at calm ⊢
  exact Printing.calm_slash calm (ne_of_accepts (words c accepted) rfl)
    (ne_of_accepts (words c accepted) rfl)

theorem ClassName.calm (name : ClassName) : Calm name.print := by
  apply name.first.calm.append
  generalize name.others = others
  induction others with
  | nil => exact Calm.nil
  | cons word others ih =>
      rw [List.flatMap_cons]
      exact (Run.calm_slash word fun _ accepted => accepted).append ih

theorem Strength.calm (strength : Strength) : Calm strength.print := by
  cases strength with
  | number digits => exact Run.calm_slash digits fun _ => isWordChar_of_isDigit
  | bracket value => exact calm_slash (calm_bracketed Calm.nil value) (by decide) (by decide)

theorem bracketed_slash (stem : List Char) (value : Value) :
    bracketed (stem ++ ['/']) value = stem ++ '/' :: bracketed [] value := by
  simp [bracketed]

private theorem calm_hyphen (word : Word) : Calm (word.chars ++ ['-']) :=
  word.calm.append (calm_singleton (by decide) (by decide))

theorem Utility.calm (utility : Utility) : Calm utility.print := by
  cases utility with
  | className name => exact name.calm
  | property prop value => exact calm_bracketed prop.word.calm value
  | style stem value strength =>
      apply (calm_bracketed (calm_hyphen stem) value).append
      cases strength with
      | none => exact Calm.nil
      | some strength => exact strength.calm
  | slashed stem value =>
      rw [Utility.print, bracketed_slash]
      exact stem.calm.append
        (calm_slash (calm_bracketed Calm.nil value) (by decide) (by decide))
  | bare value => exact calm_bracketed Calm.nil value

theorem Atom.calm (atom : Atom) : Calm atom.print :=
  ((calm_mark atom.leading).append atom.utility.calm).append (calm_mark atom.trailing)

theorem Modifier.calm (modifier : Modifier) : Calm modifier.identifier := by
  cases modifier with
  | named name => exact Run.calm name fun _ => isWordChar_of_isNameChar
  | bare value => exact calm_bracketed Calm.nil value
  | styled stem value => exact calm_bracketed (calm_hyphen stem) value

private theorem balanced_mark (important : Bool) {rest : List Char} (later : Balanced true rest) :
    Balanced true (mark important ++ rest) := by
  cases important with
  | false => exact later
  | true => exact Balanced.step (by decide) (noComment_of_ne (by decide) _) later

theorem Gap.balanced (gap : Gap) {rest : List Char} (later : Balanced true rest) :
    Balanced false (gap.chars ++ rest) := by
  obtain ⟨chars, nonempty, accepted⟩ := gap
  simp only
  induction chars with
  | nil => exact absurd rfl nonempty
  | cons c cs ih =>
      have blank := accepted c List.mem_cons_self
      have notLetter : (c != 'l') = true := by
        rw [bne_iff_ne]
        exact ne_of_accepts blank rfl
      have notQuote : Bracket.isQuote c = false := by
        have notSingle := ne_of_accepts blank (rfl : isAsciiBlank '\'' = false)
        have notDouble := ne_of_accepts blank (rfl : isAsciiBlank '"' = false)
        simp [Bracket.isQuote, notSingle, notDouble]
      have calm : isCalm c = true := by
        have notOpener := ne_of_accepts blank (rfl : isAsciiBlank '(' = false)
        have notCloser := ne_of_accepts blank (rfl : isAsciiBlank ')' = false)
        simp [isCalm, notQuote, notOpener, notCloser]
      apply Balanced.step calm (noComment_of_ne (ne_of_accepts blank rfl) _)
      rw [notLetter]
      cases cs with
      | nil => exact later
      | cons d cs =>
          exact (ih (List.cons_ne_nil d cs) fun e member =>
            accepted e (List.mem_cons_of_mem c member)).mono

mutual

/-- A printed phrase is balanced, if what follows it is and does not open a parenthesis at once. -/
theorem Phrase.balanced {rest : List Char} (later : Balanced false rest) :
    (phrase : Phrase) → Balanced true (phrase.print ++ rest)
  | .atom atom => by
      rw [Phrase.print]
      exact atom.calm.balanced later
  | .modified modifier body => by
      rw [Phrase.print, Modifier.print, List.append_assoc, List.append_assoc]
      apply modifier.calm.balanced
      exact Balanced.step (by decide) (noComment_of_ne (by decide) _)
        (Phrase.balanced later body)
  | .group leading inside trailing => by
      have inner := Phrases.balanced Balanced.nil inside
      have parts : (Phrase.group leading inside trailing).print ++ rest =
          mark leading ++ ('(' :: (inside.print ++ []) ++ ')' :: (mark trailing ++ rest)) := by
        simp [Phrase.print]
      rw [parts]
      exact balanced_mark leading (Balanced.nest inner (balanced_mark trailing later.mono))

theorem Phrases.balanced {rest : List Char} (later : Balanced false rest) :
    (phrases : Phrases) → Balanced true (phrases.print ++ rest)
  | .one phrase => by
      rw [Phrases.print]
      exact Phrase.balanced later phrase
  | .more phrase gap others => by
      rw [Phrases.print, List.append_assoc, List.append_assoc]
      exact Phrase.balanced (Gap.balanced gap (Phrases.balanced later others)) phrase

end

theorem Phrases.balanced_print (phrases : Phrases) : Balanced true phrases.print := by
  have balanced := Phrases.balanced Balanced.nil phrases
  rwa [List.append_nil] at balanced

end ClassExpr.Printing
