import ClassExpr.Proofs.Bracket
import ClassExpr.Proofs.Matching.Reading

set_option autoImplicit false

/-! The search for a closer, character by character, against the reading of its text as a whole. It
passes over strings, comments and the arguments of calls as the reading does, and comments leave a
call that has begun as it is: so the letters of a call may have comments between them. -/

namespace ClassExpr.Bracket

open Text

variable {pair : Pair} {call : Call} {depth : Nat} {before : List Char}

def Commented (between : List Char) : Prop :=
  ∃ comments : List (List Char), (∀ comment ∈ comments, ClosedComment comment) ∧
    comments.flatten = between

theorem commented_nil : Commented [] :=
  ⟨[], by simp, rfl⟩

theorem Commented.cons {comment between : List Char} (closed : ClosedComment comment)
    (commented : Commented between) : Commented (comment ++ between) := by
  obtain ⟨comments, allClosed, rfl⟩ := commented
  exact ⟨comment :: comments, by simpa using ⟨closed, allClosed⟩, rfl⟩

/-! ### What is passed over -/

private theorem ne_backslash_of_isQuote {mark : Char} (quote : isQuote mark = true) :
    mark ≠ '\\' := by
  rintro rfl
  cases quote

theorem rest_quoted {mark : Char} {body rest : List Char} (quote : isQuote mark = true)
    (spans : Quoted mark body rest) (call : Call) (depth : Nat) (before : List Char) :
    (sweep (move pair) ⟨.quoted mark, call, depth⟩ before (body ++ rest)).rest =
      (sweep (move pair) ⟨.code, call, depth⟩ (body.reverse ++ before) rest).rest := by
  induction spans generalizing before with
  | close =>
      have moved : ∀ ahead, move pair ⟨.quoted mark, call, depth⟩ before mark ahead =
          .advance ⟨.code, call, depth⟩ := by
        intro ahead
        simp [move, ne_backslash_of_isQuote quote]
      rw [List.singleton_append, sweep_cons_advance (move pair) (moved _)]
      rfl
  | @escape c body rest _ ih =>
      have moved : ∀ ahead, move pair ⟨.quoted mark, call, depth⟩ before '\\' ahead =
          .skip ⟨.quoted mark, call, depth⟩ := fun _ => rfl
      rw [List.cons_append, List.cons_append, sweep_cons, moved]
      simp only
      rw [ih]
      simp
  | @char c body rest plain inside _ ih =>
      have moved : ∀ ahead, move pair ⟨.quoted mark, call, depth⟩ before c ahead =
          .advance ⟨.quoted mark, call, depth⟩ := by
        intro ahead
        simp [move, plain, inside]
      rw [List.cons_append, sweep_cons_advance (move pair) (moved _), ih]
      simp
  | unclosed => rfl
  | unclosedEscape => rfl

private theorem rest_argument {argument rest : List Char} (spans : Argument argument rest)
    (depth : Nat)
    (before : List Char) :
    (sweep (move pair) ⟨.code, .argument, depth⟩ before (argument ++ rest)).rest =
      (sweep (move pair) ⟨.code, .none, depth⟩ (argument.reverse ++ before) rest).rest := by
  induction spans generalizing before with
  | close => rfl
  | @quoted mark body argument rest quote spans _ ih =>
      have moved : ∀ ahead, move pair ⟨.code, .argument, depth⟩ before mark ahead =
          .advance ⟨.quoted mark, .argument, depth⟩ := by
        intro ahead
        simp [move, quote]
      rw [List.cons_append, List.cons_append, sweep_cons_advance (move pair) (moved _),
        List.append_assoc, rest_quoted quote spans, ih]
      simp
  | @char c argument rest inside plain _ ih =>
      have moved : ∀ ahead, move pair ⟨.code, .argument, depth⟩ before c ahead =
          .advance ⟨.code, .argument, depth⟩ := by
        intro ahead
        simp [move, plain, Call.next, inside]
      rw [List.cons_append, sweep_cons_advance (move pair) (moved _), ih]
      simp
  | unclosed => rfl

private theorem sweep_lineBody {body : List Char} (oneLine : '\n' ∉ body) (rest : List Char) :
    sweep (move pair) ⟨.lineComment, call, depth⟩ before (body ++ rest) =
      sweep (move pair) ⟨.lineComment, call, depth⟩ (body.reverse ++ before) rest := by
  induction body generalizing before with
  | nil => rfl
  | cons c body ih =>
      rw [List.mem_cons, not_or] at oneLine
      have moved : ∀ ahead, move pair ⟨.lineComment, call, depth⟩ before c ahead =
          .advance ⟨.lineComment, call, depth⟩ := by
        intro ahead
        simp [move, Ne.symm oneLine.1]
      rw [List.cons_append, sweep_cons_advance (move pair) (moved _), ih oneLine.2]
      simp

private theorem sweep_blockBody {body : List Char} {c : Char} (rest : List Char)
    (first : ¬Comment.closer <:+: body ++ [c]) :
    sweep (move pair) ⟨.blockComment, call, depth⟩ before (body ++ c :: rest) =
      sweep (move pair) ⟨.blockComment, call, depth⟩ (body.reverse ++ before) (c :: rest) := by
  induction body generalizing before with
  | nil => rfl
  | cons d body ih =>
      have goesOn : (d == '*' && (body ++ c :: rest).head? == some '/') = false := by
        rw [Bool.eq_false_iff]
        intro closes
        obtain ⟨star, slash⟩ := Bool.and_eq_true_iff.1 closes
        apply first
        rw [eq_of_beq star]
        cases body with
        | nil =>
            have next : c = '/' := by simpa using slash
            exact ⟨[], [], by rw [next]; rfl⟩
        | cons e body =>
            have next : e = '/' := by simpa using slash
            exact ⟨[], body ++ [c], by rw [next]; rfl⟩
      have moved : move pair ⟨.blockComment, call, depth⟩ before d (body ++ c :: rest).head? =
          .advance ⟨.blockComment, call, depth⟩ := by
        simp only [move, goesOn, Bool.false_eq_true, if_false]
      have later : ¬Comment.closer <:+: body ++ [c] := fun found =>
        first (found.trans (List.suffix_cons d (body ++ [c])).isInfix)
      rw [List.cons_append, sweep_cons_advance (move pair) moved, ih later]
      simp

private theorem sweep_opener (outside : call ≠ .argument) (mark : Char) (rest : List Char) :
    (mark = '/' → sweep (move pair) ⟨.code, call, depth⟩ before ('/' :: mark :: rest) =
      sweep (move pair) ⟨.lineComment, call, depth⟩ (mark :: '/' :: before) rest) ∧
    (mark = '*' → sweep (move pair) ⟨.code, call, depth⟩ before ('/' :: mark :: rest) =
      sweep (move pair) ⟨.blockComment, call, depth⟩ (mark :: '/' :: before) rest) := by
  constructor
  · rintro rfl
    exact sweep_cons_skip (move pair) (by simp [move, outside])
  · rintro rfl
    exact sweep_cons_skip (move pair) (by simp [move, outside])

/-- A comment leaves the state as it is, also a call that has begun. -/
theorem sweep_closedComment {comment : List Char} (closed : ClosedComment comment)
    (outside : call ≠ .argument) (before rest : List Char) :
    sweep (move pair) ⟨.code, call, depth⟩ before (comment ++ rest) =
      sweep (move pair) ⟨.code, call, depth⟩ (comment.reverse ++ before) rest := by
  cases closed with
  | @line body oneLine =>
      rw [List.cons_append, List.cons_append, (sweep_opener outside '/' _).1 rfl, List.append_assoc,
        sweep_lineBody oneLine]
      have moved : ∀ before ahead, move pair ⟨.lineComment, call, depth⟩ before '\n' ahead =
          .advance ⟨.code, call, depth⟩ := fun _ _ => rfl
      rw [List.singleton_append, sweep_cons_advance (move pair) (moved _ _)]
      simp
  | @block body first =>
      rw [List.cons_append, List.cons_append, (sweep_opener outside '*' _).2 rfl, List.append_assoc,
        Comment.closer, List.cons_append, sweep_blockBody _ first]
      have moved : ∀ before, move pair ⟨.blockComment, call, depth⟩ before '*' (some '/') =
          .skip ⟨.code, call, depth⟩ := fun _ => rfl
      rw [List.singleton_append, sweep_cons_skip (move pair) (moved _)]
      simp

theorem rest_openComment {comment : List Char} (opened : OpenComment comment)
    (outside : call ≠ .argument) (before : List Char) :
    (sweep (move pair) ⟨.code, call, depth⟩ before comment).rest = [] := by
  cases opened with
  | @line body oneLine =>
      have passed := @sweep_lineBody pair call depth ('/' :: '/' :: before) body oneLine []
      rw [List.append_nil] at passed
      rw [(sweep_opener outside '/' _).1 rfl, passed]
      rfl
  | @block body absent =>
      rw [(sweep_opener outside '*' _).2 rfl]
      rcases List.eq_nil_or_concat body with rfl | ⟨front, last, rfl⟩
      · rfl
      · rw [List.concat_eq_append] at absent ⊢
        rw [sweep_blockBody [] absent]
        have moved : ∀ before, move pair ⟨.blockComment, call, depth⟩ before last none =
            .advance ⟨.blockComment, call, depth⟩ := by
          intro before
          simp [move]
        rw [sweep_cons_advance (move pair) (moved _)]
        rfl

/-! ### Calls -/

def Call.missing : Call → List Char
  | .none => ['u', 'r', 'l', '(']
  | .u => ['r', 'l', '(']
  | .ur => ['l', '(']
  | .url => ['(']
  | .argument => []

/-- A call that has begun does not go on in a text. -/
def Stalled (call : Call) (cs : List Char) : Prop :=
  call ≠ .none → ∀ taken rest, cs = taken ++ rest → ¬Spelled Commented call.missing taken

theorem stalled_none (cs : List Char) : Stalled .none cs :=
  fun begun => absurd rfl begun

theorem Stalled.ne_argument {cs : List Char} (stalled : Stalled call cs) : call ≠ .argument := by
  rintro rfl
  exact stalled (by decide) [] cs rfl .nil

theorem Stalled.behind {comment cs : List Char} (closed : ClosedComment comment)
    (stalled : Stalled call (comment ++ cs)) : Stalled call cs := by
  intro begun taken rest parts spelled
  have outside := stalled.ne_argument
  cases missing : call.missing with
  | nil => cases call <;> simp_all [Call.missing]
  | cons c letters =>
      rw [missing] at spelled
      cases spelled with
      | @cons _ _ between taken apart later =>
          apply stalled begun (comment ++ between ++ c :: taken) rest (by simp [parts])
          rw [missing]
          exact .cons (apart.cons closed) later

private theorem missing_next {c : Char} {letters : List Char} (begun : call ≠ .none)
    (missing : call.missing = c :: letters) (before : List Char) :
    (call.next before c).missing = letters ∧ call.next before c ≠ .none := by
  cases call with
  | none => exact absurd rfl begun
  | u => cases missing; exact ⟨rfl, nofun⟩
  | ur => cases missing; exact ⟨rfl, nofun⟩
  | url => cases missing; exact ⟨rfl, nofun⟩
  | argument => cases missing

private theorem stalled_start {before cs : List Char} {c : Char}
    (noCall : ∀ call rest, c :: cs = call ++ rest → ¬CallAt Commented before call) :
    Stalled (Call.next.start before c) cs := by
  unfold Call.next.start
  split
  next starts =>
    obtain ⟨letter, fresh⟩ := Bool.and_eq_true_iff.1 starts
    intro _ taken rest parts spelled
    refine noCall ('u' :: taken) rest ?_ (.intro (by simpa using fresh) spelled)
    rw [eq_of_beq letter, parts, List.cons_append]
  · exact stalled_none cs

theorem Stalled.next {before cs : List Char} {c : Char} (stalled : Stalled call (c :: cs))
    (noCall : ∀ call rest, c :: cs = call ++ rest → ¬CallAt Commented before call) :
    Stalled (call.next before c) cs := by
  have fresh := stalled_start noCall
  have goesOn : ∀ letters, call ≠ .none → call.missing = c :: letters →
      Stalled (call.next before c) cs := by
    intro letters begun missing _ taken rest parts spelled
    rw [(missing_next begun missing before).1] at spelled
    apply stalled begun (c :: taken) rest (by rw [parts]; rfl)
    rw [missing]
    exact .cons commented_nil spelled
  cases call with
  | argument => exact absurd rfl stalled.ne_argument
  | none => exact fresh
  | u =>
      by_cases letter : c = 'r'
      · exact goesOn ['l', '('] (by decide) (by rw [letter]; rfl)
      · simpa [Call.next, letter] using fresh
  | ur =>
      by_cases letter : c = 'l'
      · exact goesOn ['('] (by decide) (by rw [letter]; rfl)
      · simpa [Call.next, letter] using fresh
  | url =>
      by_cases letter : c = '('
      · exact goesOn [] (by decide) (by rw [letter]; rfl)
      · simpa [Call.next, letter] using fresh

private theorem sweep_commented {between : List Char} (commented : Commented between)
    (outside : call ≠ .argument) (before rest : List Char) :
    sweep (move pair) ⟨.code, call, depth⟩ before (between ++ rest) =
      sweep (move pair) ⟨.code, call, depth⟩ (between.reverse ++ before) rest := by
  obtain ⟨comments, closed, rfl⟩ := commented
  induction comments generalizing before with
  | nil => rfl
  | cons comment comments ih =>
      rw [List.flatten_cons, List.append_assoc,
        sweep_closedComment (closed comment List.mem_cons_self) outside,
        ih (comment.reverse ++ before) fun other member =>
          closed other (List.mem_cons_of_mem comment member)]
      simp

/-- The letters of a call count for nothing, its parenthesis neither. -/
theorem sweep_spelled (known : pair.IsKnown) {letters taken : List Char}
    (spelled : Spelled Commented letters taken) (begun : call ≠ .none)
    (missing : call.missing = letters) (before rest : List Char) :
    sweep (move pair) ⟨.code, call, depth⟩ before (taken ++ rest) =
      sweep (move pair) ⟨.code, .argument, depth⟩ (taken.reverse ++ before) rest := by
  induction spelled generalizing call before with
  | nil =>
      have inside : call = .argument := by cases call <;> simp_all [Call.missing]
      rw [inside]
      rfl
  | @cons c letters between taken apart _ ih =>
      have outside : call ≠ .argument := by
        rintro rfl
        cases missing
      have moved : ∀ before ahead, move pair ⟨.code, call, depth⟩ before c ahead =
          .advance ⟨.code, call.next before c, depth⟩ := by
        intro before ahead
        cases call with
        | none => exact absurd rfl begun
        | argument => exact absurd rfl outside
        | u => cases missing; rcases known with rfl | rfl <;> rfl
        | ur => cases missing; rcases known with rfl | rfl <;> rfl
        | url => cases missing; rcases known with rfl | rfl <;> rfl
      obtain ⟨left, goesOn⟩ := missing_next begun missing (between.reverse ++ before)
      rw [List.append_assoc, sweep_commented apart outside, List.cons_append,
        sweep_cons_advance (move pair) (moved _ _), ih goesOn left]
      simp

theorem rest_call (known : pair.IsKnown) {before taken argument rest : List Char}
    (starts : CallAt Commented before taken) (spans : Argument argument rest)
    (outside : call ≠ .argument) :
    (sweep (move pair) ⟨.code, call, depth⟩ before (taken ++ (argument ++ rest))).rest =
      (sweep (move pair) ⟨.code, .none, depth⟩ (argument.reverse ++ (taken.reverse ++ before))
        rest).rest := by
  cases starts with
  | @intro taken fresh spelled =>
      have moved : ∀ ahead, move pair ⟨.code, call, depth⟩ before 'u' ahead =
          .advance ⟨.code, .u, depth⟩ := by
        intro ahead
        have next : call.next before 'u' = .u := by
          cases call with
          | argument => exact absurd rfl outside
          | none => simp [Call.next, Call.next.start, fresh]
          | u => simp [Call.next, Call.next.start, fresh]
          | ur => simp [Call.next, Call.next.start, fresh]
          | url => simp [Call.next, Call.next.start, fresh]
        rcases known with rfl | rfl
        · simp [move, moveCode, outside, next, isQuote, Pair.parens]
        · simp [move, moveCode, outside, next, isQuote, Pair.square]
      rw [List.cons_append, sweep_cons_advance (move pair) (moved _),
        sweep_spelled known spelled (by decide) rfl, rest_argument spans]
      simp

end ClassExpr.Bracket
