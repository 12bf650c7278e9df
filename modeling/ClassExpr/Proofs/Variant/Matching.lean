import ClassExpr.Body
import ClassExpr.Proofs.Bracket

set_option autoImplicit false

/-! Where a bracket or a group ends for the body of a variant. A body counts its brackets on its
own: it knows quotes in square brackets, but neither comments nor calls of `url`, and in groups not
even quotes. Where a text has none of these it stays in step with the matching of brackets, and so
ends its brackets and groups where they are matched. -/

namespace ClassExpr

open Text

/-- A text in which no bracket is hidden from a body that is not hidden anyway: there are no
comments and no calls of `url` in it, and no quotes if there are parentheses. -/
structure Overt (cs : List Char) : Prop extends Bracket.Unhidden cs where
  quote : '(' ∈ cs → ∀ c ∈ cs, Bracket.isQuote c = false

theorem Overt.part {cs inner : List Char} (overt : Overt cs) (part : inner <:+: cs) :
    Overt inner where
  toUnhidden := overt.toUnhidden.part part
  quote opener c member := overt.quote (part.subset opener) c (part.subset member)

namespace Bracket

inductive Counts : Pair → State → Body.State → Prop
  | group (call : Call) (depth : Nat) : Counts .parens ⟨.code, call, depth⟩ (.group depth)
  | bracket (call : Call) (depth : Nat) : Counts .square ⟨.code, call, depth⟩ (.bracket depth)
  | quoted (mark : Char) (depth : Nat) :
      Counts .square ⟨.quoted mark, .none, depth⟩ (.quoted mark depth)

/-- A body counts as a match does, in a text where nothing is hidden from it. -/
structure InStep (pair : Pair) (state : State) (other : Body.State) (before cs : List Char) :
    Prop where
  counts : Counts pair state other
  read : state.call.letters <+: before
  overt : Overt (before.reverse ++ cs)
  unquoted : pair = .parens → ∀ c ∈ before.reverse ++ cs, isQuote c = false

theorem InStep.advance {pair : Pair} {state next : State} {other later : Body.State}
    {before cs : List Char} {c : Char} (inStep : InStep pair state other before (c :: cs))
    (counts : Counts pair next later) (read : next.call.letters <+: c :: before) :
    InStep pair next later (c :: before) cs := by
  have same : (c :: before).reverse ++ cs = before.reverse ++ c :: cs := by simp
  exact ⟨counts, read, same ▸ inStep.overt, fun parens => same ▸ inStep.unquoted parens⟩

section

variable {rule : Body.Rule} {call : Call} {depth : Nat} {mark c : Char} {before cs : List Char}

/-- In a group quotes would hide parentheses from the match alone, but there are none. -/
theorem follows_group
    (inStep : InStep .parens ⟨.code, call, depth⟩ (.group depth) before (c :: cs)) :
    Follows (move .parens) (Body.move rule) (InStep .parens) ⟨.code, call, depth⟩ (.group depth)
      before c cs := by
  have known : Pair.parens.IsKnown := Or.inl rfl
  have unhidden := inStep.overt.toUnhidden
  have plain : isQuote c = false := inStep.unquoted rfl c (by simp)
  have read := Call.letters_next c (Call.ne_argument unhidden.call inStep.read) inStep.read
  by_cases opener : c = '('
  · exact .advance (unhidden.move_opener inStep.read known opener depth)
      (by simp [Body.move, opener]) (inStep.advance (.group _ _) read)
  by_cases closer : c = ')'
  · have moved := unhidden.move_closer inStep.read known closer depth
    by_cases shallow : depth ≤ 1
    · rw [if_pos shallow] at moved
      exact .halt moved
    · rw [if_neg shallow] at moved
      exact .advance moved (by simp [Body.move, closer, shallow]) (inStep.advance (.group _ _) read)
  · exact .advance (unhidden.move_plain .parens inStep.read plain opener closer depth)
      (by simp [Body.move, opener, closer]) (inStep.advance (.group _ _) read)

private theorem follows_bracket
    (inStep : InStep .square ⟨.code, call, depth⟩ (.bracket depth) before (c :: cs)) :
    Follows (move .square) (Body.move rule) (InStep .square) ⟨.code, call, depth⟩ (.bracket depth)
      before c cs := by
  have known : Pair.square.IsKnown := Or.inr rfl
  have unhidden := inStep.overt.toUnhidden
  have read := Call.letters_next c (Call.ne_argument unhidden.call inStep.read) inStep.read
  cases quote : isQuote c with
  | true =>
      have marked : c = '\'' ∨ c = '"' := by simpa [isQuote] using quote
      refine .advance (unhidden.move_quote inStep.read known quote depth) (fun passed => ?_)
        (inStep.advance (.quoted c depth) List.nil_prefix)
      rcases marked with rfl | rfl <;> rfl
  | false =>
      have unmarked : ¬(c = '\'' ∨ c = '"') := by simpa [isQuote] using quote
      by_cases opener : c = '['
      · exact .advance (unhidden.move_opener inStep.read known opener depth)
          (by simp [Body.move, opener]) (inStep.advance (.bracket _ _) read)
      by_cases closer : c = ']'
      · have moved := unhidden.move_closer inStep.read known closer depth
        by_cases shallow : depth ≤ 1
        · rw [if_pos shallow] at moved
          exact .halt moved
        · rw [if_neg shallow] at moved
          exact .advance moved (by simp [Body.move, closer, shallow])
            (inStep.advance (.bracket _ _) read)
      · exact .advance (unhidden.move_plain .square inStep.read quote opener closer depth)
          (by simp [Body.move, opener, closer, unmarked]) (inStep.advance (.bracket _ _) read)

private theorem follows_quoted
    (inStep : InStep .square ⟨.quoted mark, .none, depth⟩ (.quoted mark depth) before (c :: cs)) :
    Follows (move .square) (Body.move rule) (InStep .square) ⟨.quoted mark, .none, depth⟩
      (.quoted mark depth) before c cs := by
  by_cases escape : c = '\\'
  · subst escape
    have moved : move .square ⟨.quoted mark, .none, depth⟩ before '\\' cs.head? =
        .skip ⟨.quoted mark, .none, depth⟩ := rfl
    refine .skip moved (fun _ => rfl) fun d rest ahead => ?_
    subst ahead
    have same : (d :: '\\' :: before).reverse ++ rest = before.reverse ++ '\\' :: d :: rest := by
      simp
    exact ⟨.quoted mark depth, List.nil_prefix, same ▸ inStep.overt,
      fun parens => same ▸ inStep.unquoted parens⟩
  · by_cases closing : c = mark
    · subst closing
      have moved : move .square ⟨.quoted c, .none, depth⟩ before c cs.head? =
          .advance ⟨.code, .none, depth⟩ := by simp [move, escape]
      exact .advance moved (by simp [Body.move, escape])
        (inStep.advance (.bracket .none depth) List.nil_prefix)
    · have moved : move .square ⟨.quoted mark, .none, depth⟩ before c cs.head? =
          .advance ⟨.quoted mark, .none, depth⟩ := by simp [move, escape, closing]
      exact .advance moved (by simp [Body.move, escape, closing])
        (inStep.advance (.quoted mark depth) List.nil_prefix)

end

/-- A body in step with a match does at each character what the match does. -/
theorem InStep.follows {pair : Pair} {rule : Body.Rule} {state : State} {other : Body.State}
    {before cs : List Char} {c : Char} (inStep : InStep pair state other before (c :: cs)) :
    Follows (move pair) (Body.move rule) (InStep pair) state other before c cs := by
  have counts := inStep.counts
  cases counts with
  | group call depth => exact follows_group inStep
  | bracket call depth => exact follows_bracket inStep
  | quoted mark depth => exact follows_quoted inStep

/-- Where a bracket of such a text is matched, a body leaves it behind the same closer. -/
theorem sweep_matched {pair : Pair} (known : pair.IsKnown) {rule : Body.Rule} {opened : Body.State}
    {inside rest : List Char} (counts : Counts pair ⟨.code, .none, 1⟩ opened)
    (overt : Overt (pair.opener :: inside ++ pair.closer :: rest))
    (matched : split? pair [] (pair.opener :: (inside ++ pair.closer :: rest)) =
      some (pair.opener :: inside, pair.closer :: rest)) (front : List Char) :
    sweep (Body.move rule) opened front (inside ++ pair.closer :: rest) =
      sweep (Body.move rule) .closed (pair.closer :: (inside.reverse ++ front)) rest := by
  have inStep : InStep pair ⟨.code, .none, 1⟩ opened [pair.opener] (inside ++ pair.closer :: rest) := by
    refine ⟨counts, List.nil_prefix, by simpa using overt, ?_⟩
    rintro rfl
    exact overt.quote List.mem_cons_self
  have stopped := sweep_rest_of_split? known matched
  have halts := @sweep_halts _ (move pair) ⟨.code, .none, 1⟩ [pair.opener]
    (inside ++ pair.closer :: rest)
  have reaches := @sweep_follows _ (move pair) _ (Body.move rule) (InStep pair)
    (fun state other before c cs => InStep.follows) _ _ _ _ inStep
  generalize sweep (move pair) ⟨.code, .none, 1⟩ [pair.opener] (inside ++ pair.closer :: rest) =
    swept at stopped halts reaches
  obtain ⟨_, mode, shallow⟩ := move_eq_halt (halts stopped)
  obtain ⟨later, passed, reached, whole, sweeps⟩ := reaches (by simp [stopped])
  rw [stopped] at whole sweeps
  have same : inside = passed.reverse := List.append_cancel_right whole
  -- the match halts where the body has counted down as far as it has
  have closes : ∀ before, Body.move rule later before pair.closer rest.head? = .advance .closed := by
    intro before
    have counts := reached.counts
    generalize swept.state = state at mode shallow counts
    cases counts with
    | group call depth => simp only [Pair.parens, Body.move]; simp [shallow]
    | bracket call depth => simp only [Pair.square, Body.move]; simp [shallow]
    | quoted mark depth => cases mode
  rw [sweeps front, sweep_cons_advance (Body.move rule) (closes _), same, List.reverse_reverse]

end Bracket

end ClassExpr
