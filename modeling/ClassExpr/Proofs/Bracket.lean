import ClassExpr.Bracket
import ClassExpr.Proofs.Text.Sweep
import Mathlib.Data.List.Infix

set_option autoImplicit false

/-! The two parts into which a matching closer splits a text. -/

namespace ClassExpr.Bracket

open Text

def Pair.IsKnown (pair : Pair) : Prop :=
  pair = .parens ∨ pair = .square

theorem move_opener {pair : Pair} (known : pair.IsKnown) (before : List Char)
    (ahead : Option Char) :
    move pair .initial before pair.opener ahead = .advance ⟨.code, .none, 1⟩ := by
  rcases known with rfl | rfl <;> rfl

/-- A match is only ever found at a closer, outside strings, comments and call arguments. -/
theorem move_eq_halt {pair : Pair} {state : State} {before : List Char} {c : Char}
    {ahead : Option Char} (halted : move pair state before c ahead = .halt) :
    c = pair.closer ∧ state.mode = .code ∧ state.depth ≤ 1 := by
  obtain ⟨mode, call, depth⟩ := state
  cases mode with
  | quoted mark =>
      simp only [move] at halted
      split at halted
      · cases halted
      · split at halted <;> cases halted
  | lineComment =>
      simp only [move] at halted
      split at halted <;> cases halted
  | blockComment =>
      simp only [move] at halted
      split at halted <;> cases halted
  | code =>
      simp only [move] at halted
      split at halted
      · split at halted <;> cases halted
      · split at halted
        · cases halted
        · split at halted
          · cases halted
          · simp only [moveCode] at halted
            split at halted
            · cases halted
            · split at halted
              · cases halted
              · split at halted
                next closing =>
                  split at halted
                  next shallow => exact ⟨eq_of_beq closing, rfl, shallow⟩
                  · cases halted
                · cases halted

theorem split?_eq {pair : Pair} (known : pair.IsKnown) (before cs : List Char) :
    split? pair before (pair.opener :: cs) =
      let swept := sweep (move pair) ⟨.code, .none, 1⟩ (pair.opener :: before) cs
      if swept.rest.isEmpty then none
      else some ((swept.before.take (swept.before.length - before.length)).reverse, swept.rest) := by
  rw [split?, sweep_cons_advance (move pair) (move_opener known before cs.head?)]

theorem sweep_rest_of_split? {pair : Pair} (known : pair.IsKnown)
    {before cs content closed : List Char}
    (matched : split? pair before (pair.opener :: cs) = some (content, closed)) :
    (sweep (move pair) ⟨.code, .none, 1⟩ (pair.opener :: before) cs).rest = closed := by
  rw [split?_eq known] at matched
  dsimp only at matched
  split at matched
  · cases matched
  · exact congrArg Prod.snd (Option.some.inj matched)

theorem split?_eq_some (pair : Pair) (known : pair.IsKnown) {before cs content closed : List Char}
    (matched : split? pair before (pair.opener :: cs) = some (content, closed)) :
    ∃ inside rest, content = pair.opener :: inside ∧ closed = pair.closer :: rest ∧
      cs = inside ++ pair.closer :: rest := by
  rw [split?_eq known] at matched
  obtain ⟨passed, fronts, whole⟩ :=
    sweep_passed (move pair) ⟨.code, .none, 1⟩ (pair.opener :: before) cs
  have halts := @sweep_halts _ (move pair) ⟨.code, .none, 1⟩ (pair.opener :: before) cs
  generalize sweep (move pair) ⟨.code, .none, 1⟩ (pair.opener :: before) cs = swept at *
  simp only [fronts] at matched
  cases stopped : swept.rest with
  | nil =>
      rw [stopped] at matched
      cases matched
  | cons c rest =>
      have closing := (move_eq_halt (halts stopped)).1
      subst closing
      rw [stopped] at matched whole
      have sized : (passed ++ pair.opener :: before).length - before.length =
          (passed ++ [pair.opener]).length := by
        simp only [List.length_append, List.length_cons, List.length_nil]
        omega
      rw [sized, List.append_cons passed pair.opener before, List.take_left] at matched
      simp only [List.isEmpty_cons, Bool.false_eq_true, if_false, Option.some.injEq,
        Prod.mk.injEq] at matched
      obtain ⟨rfl, rfl⟩ := matched
      exact ⟨passed.reverse, rest, by simp, rfl, whole⟩

theorem split?_parens {before cs content closed : List Char}
    (matched : split? .parens before ('(' :: cs) = some (content, closed)) :
    ∃ inside rest, content = '(' :: inside ∧ closed = ')' :: rest ∧
      cs = inside ++ ')' :: rest :=
  split?_eq_some .parens (Or.inl rfl) matched

theorem split?_square {before cs content closed : List Char}
    (matched : split? .square before ('[' :: cs) = some (content, closed)) :
    ∃ value rest, content = '[' :: value ∧ closed = ']' :: rest ∧
      cs = value ++ ']' :: rest :=
  split?_eq_some .square (Or.inr rfl) matched

/-- The closer of a bracket is the one behind its inside, whatever comes behind that. -/
def Encloses (inside : List Char) : Prop :=
  ∃ rest, split? .square [] ('[' :: (inside ++ ']' :: rest)) = some ('[' :: inside, ']' :: rest)

/-! ### Where nothing is hidden -/

/-- Neither comments nor calls of `url` hide a bracket of the text. -/
structure Unhidden (cs : List Char) : Prop where
  line : ¬['/', '/'] <:+: cs
  block : ¬['/', '*'] <:+: cs
  call : ¬['u', 'r', 'l', '('] <:+: cs

instance (cs : List Char) : Decidable (Unhidden cs) :=
  decidable_of_iff
    (¬['/', '/'] <:+: cs ∧ ¬['/', '*'] <:+: cs ∧ ¬['u', 'r', 'l', '('] <:+: cs)
    ⟨fun ⟨line, block, call⟩ => ⟨line, block, call⟩,
      fun unhidden => ⟨unhidden.line, unhidden.block, unhidden.call⟩⟩

theorem Unhidden.part {cs inner : List Char} (unhidden : Unhidden cs) (part : inner <:+: cs) :
    Unhidden inner where
  line found := unhidden.line (found.trans part)
  block found := unhidden.block (found.trans part)
  call found := unhidden.call (found.trans part)

theorem infix_of_infix_cons {part cs : List Char} {d : Char} (absent : d ∉ part)
    (nonempty : part ≠ []) (found : part <:+: d :: cs) : part <:+: cs := by
  rcases List.infix_cons_iff.1 found with ⟨_, whole⟩ | found
  · obtain ⟨c, part, rfl⟩ := List.exists_cons_of_ne_nil nonempty
    rw [List.cons_append, List.cons.injEq] at whole
    rw [whole.1] at absent
    simp at absent
  · exact found

theorem Unhidden.of_infixes {cs other : List Char} (unhidden : Unhidden other)
    (within : ∀ part ≠ [], (∀ c ∈ part, c ∈ ['/', '*', 'u', 'r', 'l', '(']) →
      part <:+: cs → part <:+: other) : Unhidden cs where
  line found := unhidden.line (within _ (by simp) (by simp) found)
  block found := unhidden.block (within _ (by simp) (by simp) found)
  call found := unhidden.call (within _ (by simp) (by simp) found)

/-- The characters of a call that have been read, the last one first. -/
def Call.letters : Call → List Char
  | .none => []
  | .u => ['u']
  | .ur => ['r', 'u']
  | .url => ['l', 'r', 'u']
  | .argument => ['(', 'l', 'r', 'u']

theorem Call.letters_next {call : Call} {before : List Char} (c : Char)
    (outside : call ≠ .argument) (read : call.letters <+: before) :
    (call.next before c).letters <+: c :: before := by
  have fresh : (Call.next.start before c).letters <+: c :: before := by
    unfold Call.next.start
    split
    next starts =>
      obtain ⟨letter, _⟩ := Bool.and_eq_true_iff.1 starts
      rw [eq_of_beq letter]
      exact ⟨before, rfl⟩
    · exact List.nil_prefix
  cases call with
  | argument => exact absurd rfl outside
  | none => exact fresh
  | u =>
      rw [Call.next]
      split
      next letter =>
        rw [eq_of_beq letter]
        exact (List.prefix_cons_inj 'r').2 read
      · exact fresh
  | ur =>
      rw [Call.next]
      split
      next letter =>
        rw [eq_of_beq letter]
        exact (List.prefix_cons_inj 'l').2 read
      · exact fresh
  | url =>
      rw [Call.next]
      split
      next letter =>
        rw [eq_of_beq letter]
        exact (List.prefix_cons_inj '(').2 read
      · exact fresh

theorem Call.ne_argument {call : Call} {before cs : List Char}
    (absent : ¬['u', 'r', 'l', '('] <:+: before.reverse ++ cs) (read : call.letters <+: before) :
    call ≠ .argument := by
  rintro rfl
  obtain ⟨earlier, rfl⟩ := read
  exact absent ⟨earlier.reverse, cs, by simp [letters]⟩

theorem Call.eq_none_of_quote {call : Call} {before : List Char} {c : Char}
    (quote : isQuote c = true) (read : call.letters <+: c :: before) : call = .none := by
  cases call with
  | none => rfl
  | u => rw [letters, List.cons_prefix_cons] at read; rw [← read.1] at quote; cases quote
  | ur => rw [letters, List.cons_prefix_cons] at read; rw [← read.1] at quote; cases quote
  | url => rw [letters, List.cons_prefix_cons] at read; rw [← read.1] at quote; cases quote
  | argument => rw [letters, List.cons_prefix_cons] at read; rw [← read.1] at quote; cases quote

/-- Outside of quotes each character of such a text is a bracket, a quote, or passed over. -/
private theorem move_unhidden {pair : Pair} {call : Call} {depth : Nat} {before cs : List Char} {c : Char}
    (unhidden : Unhidden (before.reverse ++ c :: cs)) (read : call.letters <+: before) :
    move pair ⟨.code, call, depth⟩ before c cs.head? =
      let mode := if isQuote c then .quoted c else .code
      if c == pair.opener then .advance ⟨mode, call.next before c, depth + 1⟩
      else if c == pair.closer then
        if depth ≤ 1 then .halt else .advance ⟨mode, call.next before c, depth - 1⟩
      else .advance ⟨mode, call.next before c, depth⟩ := by
  have outside := Call.ne_argument unhidden.call read
  have still : call.next before c ≠ .argument := by
    have absent : ¬['u', 'r', 'l', '('] <:+: (c :: before).reverse ++ cs := by
      simpa using unhidden.call
    exact Call.ne_argument absent (Call.letters_next c outside read)
  have noStart : ∀ d, ¬['/', d] <:+: before.reverse ++ c :: cs →
      (c == '/' && cs.head? == some d) = false := by
    intro d absent
    rw [Bool.eq_false_iff]
    intro starts
    obtain ⟨slash, ahead⟩ := Bool.and_eq_true_iff.1 starts
    obtain ⟨rest, rfl⟩ := List.head?_eq_some_iff.1 (eq_of_beq ahead)
    rw [eq_of_beq slash] at absent
    exact absent ⟨before.reverse, rest, by simp⟩
  have noLine := noStart '/' unhidden.line
  have noBlock := noStart '*' unhidden.block
  simp only [move, moveCode, outside, still, noLine, noBlock, if_false, Bool.false_eq_true]

section

variable {pair : Pair} {call : Call} {before cs : List Char} {c : Char}

private theorem isQuote_of_bracket (known : pair.IsKnown)
    (bracket : c = pair.opener ∨ c = pair.closer) : isQuote c = false := by
  rcases known with rfl | rfl <;> rcases bracket with rfl | rfl <;> rfl

theorem Unhidden.move_quote (unhidden : Unhidden (before.reverse ++ c :: cs))
    (read : call.letters <+: before) (known : pair.IsKnown) (quote : isQuote c = true)
    (depth : Nat) :
    move pair ⟨.code, call, depth⟩ before c cs.head? = .advance ⟨.quoted c, .none, depth⟩ := by
  have outside := Call.ne_argument unhidden.call read
  have none := Call.eq_none_of_quote quote (Call.letters_next c outside read)
  have noBracket : ¬(c = pair.opener ∨ c = pair.closer) := by
    intro bracket
    rw [isQuote_of_bracket known bracket] at quote
    cases quote
  rw [not_or] at noBracket
  simp [move_unhidden unhidden read, quote, none, noBracket]

theorem Unhidden.move_opener (unhidden : Unhidden (before.reverse ++ c :: cs))
    (read : call.letters <+: before) (known : pair.IsKnown) (opens : c = pair.opener)
    (depth : Nat) :
    move pair ⟨.code, call, depth⟩ before c cs.head? =
      .advance ⟨.code, call.next before c, depth + 1⟩ := by
  have plain := isQuote_of_bracket known (Or.inl opens)
  simp only [move_unhidden unhidden read, plain, Bool.false_eq_true, if_false]
  rw [if_pos (beq_iff_eq.2 opens)]

theorem Unhidden.move_closer (unhidden : Unhidden (before.reverse ++ c :: cs))
    (read : call.letters <+: before) (known : pair.IsKnown) (closes : c = pair.closer)
    (depth : Nat) :
    move pair ⟨.code, call, depth⟩ before c cs.head? =
      if depth ≤ 1 then .halt else .advance ⟨.code, call.next before c, depth - 1⟩ := by
  have plain := isQuote_of_bracket known (Or.inr closes)
  have noOpener : c ≠ pair.opener := by
    rw [closes]
    rcases known with rfl | rfl <;> decide
  simp only [move_unhidden unhidden read, plain, Bool.false_eq_true, if_false]
  rw [if_neg (by simpa using noOpener), if_pos (beq_iff_eq.2 closes)]

theorem Unhidden.move_plain (pair : Pair) (unhidden : Unhidden (before.reverse ++ c :: cs))
    (read : call.letters <+: before) (plain : isQuote c = false) (noOpener : c ≠ pair.opener)
    (noCloser : c ≠ pair.closer) (depth : Nat) :
    move pair ⟨.code, call, depth⟩ before c cs.head? =
      .advance ⟨.code, call.next before c, depth⟩ := by
  simp [move_unhidden unhidden read, plain, noOpener, noCloser]

end

end ClassExpr.Bracket
