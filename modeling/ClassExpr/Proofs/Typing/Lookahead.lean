import ClassExpr.Proofs.Body
import ClassExpr.Proofs.Bracket
import ClassExpr.Proofs.Lexeme

set_option autoImplicit false

/-! How far reading looks ahead. Where a reader stops is settled by the text in front of that place
and by at most two characters behind it, so another text that goes on in the same way is read alike
up to there. -/

namespace ClassExpr

namespace Text

section

variable {State : Type} {move : State → List Char → Char → Option Char → Move State}

theorem append_of_shorter {left right taken rest : List Char} (whole : left ++ right = taken ++ rest)
    (shorter : byteLength taken < byteLength left) :
    ∃ d more, left = taken ++ d :: more ∧ rest = d :: (more ++ right) := by
  rcases List.append_eq_append_iff.1 whole with ⟨more, rfl, _⟩ | ⟨more, rfl, same⟩
  · rw [byteLength_append] at shorter
    omega
  · cases more with
    | nil =>
        rw [List.append_nil] at shorter
        exact absurd shorter (Nat.lt_irrefl _)
    | cons d more => exact ⟨d, more, rfl, same⟩

theorem append_of_longer {left right taken rest : List Char} (whole : left ++ right = taken ++ rest)
    (longer : byteLength left ≤ byteLength taken) :
    ∃ more, taken = left ++ more ∧ right = more ++ rest := by
  rcases List.append_eq_append_iff.1 whole with ⟨more, same, rest⟩ | ⟨more, rfl, rfl⟩
  · exact ⟨more, same, rest⟩
  · cases more with
    | nil => exact ⟨[], by simp, rfl⟩
    | cons d more =>
        have positive := d.utf8Size_pos
        rw [byteLength_append, byteLength_cons] at longer
        omega

/-- A sweep halts in the same place if the automaton would halt there whatever comes next. -/
theorem sweep_halt_ahead {state : State} {before front rest other : List Char} {d : Char}
    (halts : (sweep move state before (front ++ d :: rest)).rest = d :: rest)
    (again : ∀ state before, move state before d rest.head? = .halt →
      move state before d other.head? = .halt) :
    sweep move state before (front ++ d :: other) =
      ⟨(sweep move state before (front ++ d :: rest)).state,
        (sweep move state before (front ++ d :: rest)).before, d :: other⟩ := by
  generalize whole : front ++ d :: rest = cs at halts
  fun_induction sweep move state before cs generalizing front with
  | case1 => cases halts
  | case2 state before c cs halted =>
      have halts : c :: cs = d :: rest := halts
      rw [halts] at whole
      have empty : front = [] := by simpa using whole
      subst empty
      cases halts
      exact sweep_cons_halt move (again state before halted)
  | case3 state before c cs next moved ih =>
      cases front with
      | nil =>
          cases whole
          have bound := sweep_rest_length_le move next (d :: before) rest
          rw [halts, List.length_cons] at bound
          omega
      | cons e front =>
          rw [List.cons_append, List.cons.injEq] at whole
          obtain ⟨rfl, rfl⟩ := whole
          have same : (front ++ d :: rest).head? = (front ++ d :: other).head? := by
            cases front <;> rfl
          rw [same] at moved
          rw [List.cons_append, sweep_cons_advance move moved]
          exact ih rfl halts
  | case4 => cases halts
  | case5 state before c next e later moved ih =>
      -- a skip passes at least the character that the sweep halts at
      rcases front with _ | ⟨f, _ | ⟨g, front⟩⟩
      · cases whole
        have bound := sweep_rest_length_le move next (e :: d :: before) later
        rw [halts, List.length_cons, List.length_cons] at bound
        omega
      · cases whole
        have bound := sweep_rest_length_le move next (d :: c :: before) rest
        rw [halts, List.length_cons] at bound
        omega
      · simp only [List.cons_append, List.cons.injEq] at whole
        obtain ⟨rfl, rfl, rfl⟩ := whole
        rw [List.cons_append, List.cons_append, sweep_cons_skip move moved]
        exact ih rfl halts

end

/-- A run ends in the same place in front of the same character, if its test sees the next character
only. -/
theorem splitRun_ahead {accepts : Char → List Char → Bool}
    (near : ∀ c rest other, rest.head? = other.head? → accepts c rest = accepts c other)
    {run rest other : List Char} {d : Char}
    (split : splitRun accepts (run ++ d :: rest) = (run, d :: rest))
    (same : accepts d other = accepts d rest) :
    splitRun accepts (run ++ d :: other) = (run, d :: other) := by
  induction run with
  | nil =>
      rw [List.nil_append, splitRun_cons] at split ⊢
      rw [same]
      split at split
      · cases split
      next refused => rw [if_neg refused]
  | cons c run ih =>
      rw [List.cons_append, splitRun_cons] at split ⊢
      have ahead : (run ++ d :: other).head? = (run ++ d :: rest).head? := by cases run <;> rfl
      rw [near c _ _ ahead]
      split at split
      next accepted =>
        rw [if_pos accepted]
        simp only [Prod.mk.injEq, List.cons.injEq, true_and] at split
        rw [ih (Prod.ext split.1 split.2)]
      · cases split

end Text

namespace Bracket

open Text

variable {pair : Pair}

theorem move_closer_ahead (known : pair.IsKnown) (state : State) (before : List Char)
    (ahead other : Option Char) :
    move pair state before pair.closer ahead = move pair state before pair.closer other := by
  obtain ⟨mode, call, depth⟩ := state
  rcases known with rfl | rfl
  · cases mode <;> rfl
  · cases mode <;> rfl

/-- A match does not depend on what follows it. -/
theorem split?_ahead (known : pair.IsKnown) {inside after : List Char}
    (matched : split? pair [] (pair.opener :: inside ++ pair.closer :: after) =
      some (pair.opener :: inside, pair.closer :: after)) (other : List Char) :
    split? pair [] (pair.opener :: inside ++ pair.closer :: other) =
      some (pair.opener :: inside, pair.closer :: other) := by
  have ahead := @sweep_halt_ahead _ (move pair) .initial [] (pair.opener :: inside) after other
    pair.closer
  simp only [split?] at matched ⊢
  generalize sweep (move pair) .initial [] (pair.opener :: inside ++ pair.closer :: after) = swept
    at matched ahead
  split at matched
  · cases matched
  · simp only [Option.some.injEq, Prod.mk.injEq] at matched
    rw [ahead matched.2 fun state before halted => by rwa [← move_closer_ahead known]]
    simp only [List.isEmpty_cons, Bool.false_eq_true, if_false, matched.1]

theorem split?_parens_ahead {inside after : List Char}
    (matched : split? .parens [] ('(' :: inside ++ ')' :: after) =
      some ('(' :: inside, ')' :: after)) (other : List Char) :
    split? .parens [] ('(' :: inside ++ ')' :: other) = some ('(' :: inside, ')' :: other) :=
  split?_ahead (Or.inl rfl) matched other

theorem split?_square_ahead {value after : List Char}
    (matched : split? .square [] ('[' :: value ++ ']' :: after) =
      some ('[' :: value, ']' :: after)) (other : List Char) :
    split? .square [] ('[' :: value ++ ']' :: other) = some ('[' :: value, ']' :: other) :=
  split?_ahead (Or.inr rfl) matched other

/-- Where no match ends in the first part of a text, none ends there if the text goes on otherwise.
-/
theorem split?_behind (known : pair.IsKnown) {left right tail : List Char} {c : Char}
    (plain : c ≠ pair.closer)
    (behind : ∀ inside after, left = inside ++ pair.closer :: after →
      split? pair [] (pair.opener :: (left ++ right)) ≠
        some (pair.opener :: inside, pair.closer :: (after ++ right))) :
    split? pair [] (pair.opener :: (left ++ c :: tail)) = none ∨
      ∃ inner after, tail = inner ++ pair.closer :: after ∧
        split? pair [] (pair.opener :: (left ++ c :: tail)) =
          some (pair.opener :: (left ++ c :: inner), pair.closer :: after) := by
  cases matching : split? pair [] (pair.opener :: (left ++ c :: tail)) with
  | none => exact Or.inl rfl
  | some parts =>
      right
      obtain ⟨content, closed⟩ := parts
      obtain ⟨inside, after, rfl, rfl, whole⟩ := split?_eq_some pair known matching
      rcases List.append_eq_append_iff.1 whole with ⟨more, longer, parts⟩ | ⟨more, shorter, parts⟩
      · cases more with
        | nil =>
            simp only [List.nil_append, List.cons.injEq] at parts
            exact absurd parts.1 plain
        | cons d more =>
            rw [List.cons_append, List.cons.injEq] at parts
            obtain ⟨rfl, rfl⟩ := parts
            exact ⟨more, after, rfl, by rw [longer]⟩
      · cases more with
        | nil =>
            simp only [List.nil_append, List.cons.injEq] at parts
            exact absurd parts.1.symm plain
        | cons d more =>
            rw [List.cons_append, List.cons.injEq] at parts
            obtain ⟨rfl, rfl⟩ := parts
            rw [whole] at matching
            have early := split?_ahead known matching (more ++ right)
            apply absurd _ (behind inside more shorter)
            rw [shorter, List.append_assoc]
            exact early

end Bracket

namespace Body

open Text

variable {separator : List Char}

private theorem movePlain_halt_iff (rule : Rule) {before : List Char} {d : Char}
    {ahead : Option Char} :
    movePlain rule before d ahead = .halt ↔
      isAsciiBlank d = true ∨ d = '/' ∧ ahead = some '/' := by
  have brackets : isAsciiBlank '[' = false ∧ isAsciiBlank '(' = false := by decide
  unfold movePlain
  split
  next blank => simp [blank]
  next solid =>
    split
    next square => simp [beq_iff_eq.1 square, brackets.1]
    · split
      next group => simp [beq_iff_eq.1 (Bool.and_eq_true_iff.1 group).1, brackets.2]
      · split
        next line => simpa using Or.inr line
        next line =>
          split
          next block => simpa [solid] using line
          · simpa [solid] using line

/-- A body ends behind its marker, and otherwise at a blank or a line comment, outside of brackets
and of a group. -/
theorem move_halt_iff (rule : Rule) {state : State} {before : List Char} {d : Char}
    {ahead : Option Char} :
    move rule state before d ahead = .halt ↔
      state = .done ∨
        (state = .plain ∨ state = .closed) ∧ (isAsciiBlank d = true ∨ d = '/' ∧ ahead = some '/') := by
  cases state with
  | plain => simp [move, movePlain_halt_iff]
  | closed =>
      by_cases bang : d = '!'
      · have solid : isAsciiBlank '!' = false := by decide
        simp [move, bang, solid]
      · simp [move, bang, movePlain_halt_iff]
  | done => simp [move]
  | comment =>
      simp only [move]
      split <;> simp
  | bracket depth =>
      simp only [move]
      split
      · simp
      · split
        · simp
        · split <;> simp
  | quoted mark depth =>
      simp only [move]
      split
      · simp
      · split <;> simp
  | group depth =>
      simp only [move]
      split
      · simp
      · split <;> simp

private theorem move_ahead (rule : Rule) {state : State} {before : List Char} {d : Char}
    {ahead other : Option Char} (same : d = '/' → ahead = some '/' → other = some '/')
    (halted : move rule state before d ahead = .halt) : move rule state before d other = .halt := by
  rw [move_halt_iff] at halted ⊢
  apply halted.imp_right
  rintro ⟨outside, blank | ⟨slash, line⟩⟩
  · exact ⟨outside, Or.inl blank⟩
  · exact ⟨outside, Or.inr ⟨slash, same slash line⟩⟩

private theorem movePlain_ne_done (rule : Rule) (before : List Char) (d : Char)
    (ahead : Option Char) :
    movePlain rule before d ahead ≠ .advance .done := by
  unfold movePlain
  repeat' split
  all_goals simp

private theorem move_done_ahead (rule : Rule) {state : State} {before : List Char} {d : Char}
    {ahead : Option Char} (marked : move rule state before d ahead = .advance .done)
    (other : Option Char) : move rule state before d other = .advance .done := by
  cases state with
  | plain => exact absurd marked (movePlain_ne_done rule before d ahead)
  | closed =>
      simp only [move] at marked ⊢
      split at marked
      next bang => rw [if_pos bang]
      · exact absurd marked (movePlain_ne_done rule before d ahead)
  | done => cases marked
  | comment =>
      simp only [move] at marked
      split at marked
      · cases marked
      · cases marked
  | bracket depth => exact marked
  | quoted mark depth => exact marked
  | group depth => exact marked

/-- A body ends in the same place in front of the same character, and of a line comment again if it
ends there. -/
theorem split_ahead {body rest other : List Char} {d : Char}
    (split : Body.split separator (body ++ d :: rest) = (body, d :: rest))
    (same : d = '/' → rest.head? = some '/' → other.head? = some '/') :
    Body.split separator (body ++ d :: other) = (body, d :: other) := by
  unfold Body.split at split ⊢
  simp only [Prod.mk.injEq] at split
  have ahead := @sweep_halt_ahead _ (move ⟨separator, true⟩) .plain [] body rest other d split.2
    fun _ _ => move_ahead _ same
  simp only [ahead, split.1]

private theorem sweep_done_ahead (rule : Rule) {state : State} {before left : List Char} {c : Char}
    (solid : isAsciiBlank c = false) (refused : (sweep (move rule) state before (left ++ [c])).rest = [c])
    (other : List Char) :
    sweep (move rule) state before (left ++ other) = ⟨.done, left.reverse ++ before, other⟩ := by
  generalize whole : left ++ [c] = cs at refused
  fun_induction sweep (move rule) state before cs generalizing left other with
  | case1 => cases refused
  | case2 state before e cs halted =>
      cases refused
      obtain rfl : left = [] := by simpa using whole
      obtain rfl : state = .done := by simpa [move_halt_iff, solid] using halted
      cases other with
      | nil => rfl
      | cons d other => exact sweep_cons_halt _ rfl
  | case3 state before e cs next moved ih =>
      cases left with
      | nil =>
          cases whole
          cases refused
      | cons f left =>
          rw [List.cons_append, List.cons.injEq] at whole
          obtain ⟨rfl, rfl⟩ := whole
          have again : move rule state before f (left ++ other).head? = .advance next := by
            cases left with
            | nil =>
                obtain rfl : next = .done := congrArg Sweep.state (@ih [] [] rfl refused)
                exact move_done_ahead rule moved _
            | cons g left => exact moved
          rw [List.cons_append, sweep_cons_advance (move rule) again, ih other rfl refused]
          simp
  | case4 => cases refused
  | case5 state before e next f later moved ih =>
      rcases left with _ | ⟨g, _ | ⟨h, left⟩⟩
      · simp at whole
      · cases whole
        cases refused
      · simp only [List.cons_append, List.cons.injEq] at whole
        obtain ⟨rfl, rfl, rfl⟩ := whole
        rw [List.cons_append, List.cons_append, sweep_cons_skip (move rule) moved]
        refine (ih other rfl refused).trans ?_
        simp

theorem split_refused {left : List Char} {c : Char} (solid : isAsciiBlank c = false)
    (plain : c ≠ '/') (refused : (Body.split separator (left ++ [c])).2 ≠ []) :
    ∃ body more, left = body ++ more ∧
      ∀ other, Body.split separator (left ++ other) = (body, more ++ other) := by
  have whole := split_append separator (left ++ [c])
  cases splitAt : Body.split separator (left ++ [c]) with
  | mk body rest =>
      rw [splitAt] at whole refused
      dsimp only at whole refused
      rcases List.eq_nil_or_concat rest with rfl | ⟨more, e, rfl⟩
      · exact absurd rfl refused
      · rw [List.concat_eq_append, ← List.append_assoc] at whole
        obtain ⟨rfl, same⟩ := List.append_inj' whole rfl
        cases same
        refine ⟨body, more, rfl, ?_⟩
        intro other
        cases more with
        | nil =>
            have ended := @sweep_done_ahead ⟨separator, true⟩ .plain [] body c solid
              (by simpa [Body.split] using congrArg Prod.snd splitAt) other
            simp [Body.split, ended]
        | cons d more =>
            rw [List.concat_eq_append, List.append_assoc, List.cons_append] at splitAt
            rw [List.append_assoc, List.cons_append]
            apply split_ahead splitAt
            intro _
            cases more with
            | nil => simp [plain]
            | cons f more => exact id

/-- A body that takes a character goes on with it if the text does. -/
theorem split_behind {left tail : List Char} {c : Char}
    (kept : (Body.split separator (left ++ [c])).2 = []) (plain : c ≠ '/') :
    ∃ inner rest, tail = inner ++ rest ∧
      Body.split separator (left ++ c :: tail) = (left ++ c :: inner, rest) := by
  have whole := split_append separator (left ++ c :: tail)
  cases splitAt : Body.split separator (left ++ c :: tail) with
  | mk body rest =>
      rw [splitAt] at whole
      dsimp only at whole
      rw [List.append_cons left c tail] at whole
      rcases List.append_eq_append_iff.1 whole with ⟨more, longer, parts⟩ | ⟨more, shorter, parts⟩
      · cases more with
        | nil =>
            rw [List.append_nil] at longer
            exact ⟨[], rest, parts.symm, by rw [longer]⟩
        | cons d more =>
            -- otherwise the body ends in front of the character there as well
            subst parts
            have early : Body.split separator (body ++ d :: more) = (body, d :: more) := by
              apply @split_ahead _ body (more ++ tail)
              · rw [List.cons_append] at splitAt whole
                rw [whole, ← List.append_cons, splitAt]
              · intro slash
                cases more with
                | nil =>
                    have last := congrArg List.getLast? longer
                    simp [slash] at last
                    exact absurd last plain
                | cons e more => exact id
            rw [longer, early] at kept
            cases kept
      · exact ⟨more, rest, parts, by rw [shorter, ← List.append_cons]⟩

end Body

namespace Tree

open Text

theorem IsMarker.ahead {lead following other : List Char} (marked : IsMarker lead following)
    (same : following.head? = other.head?) : IsMarker lead other := by
  rcases marked with rfl | ⟨rfl, unmarked⟩
  · exact Or.inl rfl
  · exact Or.inr ⟨rfl, by rwa [← same]⟩

end Tree

namespace Comment

theorem starts_ahead {cs other : List Char} (same : cs.take 2 = other.take 2) :
    startsLine cs = startsLine other ∧ startsBlock cs = startsBlock other := by
  have two : ∀ cs : List Char, startsLine cs = startsLine (cs.take 2) ∧
      startsBlock cs = startsBlock (cs.take 2) := by
    intro cs
    match cs with
    | [] => exact ⟨rfl, rfl⟩
    | [_] => exact ⟨rfl, rfl⟩
    | _ :: _ :: _ => exact ⟨by simp [startsLine, List.isPrefixOf], by
        simp [startsBlock, List.isPrefixOf]⟩
  rw [(two cs).1, (two cs).2, (two other).1, (two other).2, same]
  exact ⟨rfl, rfl⟩

end Comment

private theorem Comment.starts_ahead_cons {front rest other : List Char} {d : Char}
    (nonempty : front ≠ []) :
    Comment.startsLine (front ++ d :: other) = Comment.startsLine (front ++ d :: rest) ∧
      Comment.startsBlock (front ++ d :: other) = Comment.startsBlock (front ++ d :: rest) := by
  apply Comment.starts_ahead
  match front, nonempty with
  | [_], _ => rfl
  | _ :: _ :: _, _ => rfl

private theorem Comment.not_starts_ahead {front rest other : List Char} {d : Char} (plain : d ≠ '/')
    (noLine : Comment.startsLine (front ++ d :: rest) = false)
    (noBlock : Comment.startsBlock (front ++ d :: rest) = false) :
    Comment.startsLine (front ++ d :: other) = false ∧
      Comment.startsBlock (front ++ d :: other) = false := by
  cases front with
  | nil => exact Comment.no_start (by simpa using plain)
  | cons c front =>
      obtain ⟨line, block⟩ := @Comment.starts_ahead_cons (c :: front) rest other d (by simp)
      exact ⟨line.trans noLine, block.trans noBlock⟩

namespace Lexeme

open Text ClassExpr.Tree

private theorem splitVariant?_colon {name rest : List Char} (nonempty : name ≠ [])
    (named : ∀ c ∈ name, isName c = true) :
    splitVariant? [':'] (name ++ ':' :: rest) = some (name, rest) := by
  obtain ⟨front, last, rfl⟩ := List.eq_nil_or_concat name |>.resolve_left nonempty
  rw [List.concat_eq_append] at named ⊢
  have run : splitRun (fun c rest => isName c && !([':'] : List Char).isPrefixOf rest)
      (front ++ last :: ':' :: rest) = (front, last :: ':' :: rest) := by
    induction front with
    | nil => rw [List.nil_append, splitRun_cons, if_neg (by simp)]
    | cons c front ih =>
        have next : ([':'] : List Char).isPrefixOf (front ++ last :: ':' :: rest) = false := by
          have noColon : ∀ d ∈ front ++ [last], d ≠ ':' := by
            rintro d member rfl
            exact absurd (named ':' (by simp [member])) (by decide)
          cases front with
          | nil => simpa [List.isPrefixOf] using (noColon last (by simp)).symm
          | cons d front => simpa [List.isPrefixOf] using (noColon d (by simp)).symm
        rw [List.cons_append, splitRun_cons, if_pos (by simp [next, named c (by simp)]),
          ih (by simp) fun d member => named d (by simp [member])]
  unfold splitVariant?
  rw [List.append_assoc, List.singleton_append, run]
  simp [named last (by simp)]

private theorem splitVariant?_none_ahead {front rest other : List Char} {d : Char}
    (none : splitVariant? [':'] (front ++ d :: rest) = .none) (unnamed : isName d = false) :
    splitVariant? [':'] (front ++ d :: other) = .none := by
  cases found : splitVariant? [':'] (front ++ d :: other) with
  | none => rfl
  | some parts =>
      obtain ⟨name, later⟩ := parts
      obtain ⟨whole, nonempty, named⟩ := splitVariant?_eq_some found
      rw [List.append_assoc] at whole
      have variant : ∀ after, front ++ d :: rest = name ++ ':' :: after → False := by
        intro after same
        rw [same, splitVariant?_colon nonempty named] at none
        cases none
      rcases List.append_eq_append_iff.1 whole with ⟨more, longer, parts⟩ | ⟨more, shorter, parts⟩
      · cases more with
        | nil =>
            simp only [List.nil_append, List.cons_append, List.cons.injEq] at parts
            rw [List.append_nil] at longer
            exact (variant rest (by rw [parts.1, longer])).elim
        | cons e more =>
            rw [List.cons_append, List.cons.injEq] at parts
            rw [named d (by simp [longer, parts.1])] at unnamed
            cases unnamed
      · cases more with
        | nil =>
            simp only [List.nil_append, List.cons_append, List.cons.injEq] at parts
            rw [List.append_nil] at shorter
            exact (variant rest (by rw [← parts.1, shorter])).elim
        | cons e more =>
            simp only [List.nil_append, List.cons_append, List.cons.injEq] at parts
            obtain ⟨rfl, _⟩ := parts
            exact (variant (more ++ d :: rest) (by rw [shorter]; simp)).elim

def begins : Lexeme → Bool
  | .variant _ _ | .bracket _ _ _ | .group _ _ => true
  | _ => false

def isLeaf : Lexeme → Bool
  | .className _ _ _ | .unhandled _ => true
  | _ => false

private theorem isBody_near (c : Char) (rest other : List Char) (same : rest.head? = other.head?) :
    (isBody c || (c == '/' && rest.head?.any isBody)) =
      (isBody c || (c == '/' && other.head?.any isBody)) := by
  rw [same]

private theorem splitBody_ahead {body rest other : List Char} {d : Char}
    (split : splitBody (body ++ d :: rest) = (body, d :: rest))
    (same : d = '/' → rest.head? = other.head?) :
    splitBody (body ++ d :: other) = (body, d :: other) := by
  apply splitRun_ahead isBody_near split
  show (isBody d || (d == '/' && other.head?.any isBody)) =
    (isBody d || (d == '/' && rest.head?.any isBody))
  by_cases slash : d = '/'
  · rw [same slash]
  · rw [beq_eq_false_iff_ne.2 slash, Bool.false_and, Bool.false_and]

private theorem isName_of_not_isBody {c : Char} (refused : isBody c = false) :
    isName c = false := by
  rw [isBody, Bool.or_eq_false_iff] at refused
  exact refused.1

section

variable {offset : Nat} {taken rest other : List Char} {lexeme : Lexeme}

private theorem scan?_cases {cs : List Char}
    (scanned : scan? [':'] offset cs = some (lexeme, rest)) :
    (∃ token, lexeme = .lineComment token) ∨ (∃ token, lexeme = .blockComment token) ∨
      (∃ name, cs = name ++ ':' :: rest ∧ name ≠ [] ∧ (∀ c ∈ name, isName c = true) ∧
        lexeme = .variant (.ofChars offset name) (.ofChars (offset + byteLength name) [':'])) ∨
      Comment.startsLine cs = false ∧ Comment.startsBlock cs = false ∧
        splitVariant? [':'] cs = none ∧ scanItem? offset cs = some (lexeme, rest) := by
  unfold scan? at scanned
  cases line : Comment.startsLine cs with
  | true =>
      rw [line] at scanned
      cases scanned
      exact Or.inl ⟨_, rfl⟩
  | false =>
      cases block : Comment.startsBlock cs with
      | true =>
          rw [line, block] at scanned
          cases scanned
          exact Or.inr (Or.inl ⟨_, rfl⟩)
      | false =>
          rw [line, block] at scanned
          simp only [Bool.false_eq_true, if_false] at scanned
          right
          right
          split at scanned
          next name later found =>
            obtain ⟨whole, nonempty, named⟩ := splitVariant?_eq_some found
            cases scanned
            refine Or.inl ⟨name, by simpa using whole, nonempty, named, ?_⟩
            rw [Token.stop_ofChars]
          next none => exact Or.inr ⟨rfl, rfl, none, scanned⟩

private theorem scan?_item_of_none {cs : List Char} (noLine : Comment.startsLine cs = false)
    (noBlock : Comment.startsBlock cs = false) (none : splitVariant? [':'] cs = none) :
    scan? [':'] offset cs = scanItem? offset cs := by
  rw [scan?, noLine, noBlock, none]
  rfl

def opensBracket (after : List Char) : Bool :=
  (if after.head? == some '/' then after.tail else after).head? == some '['

theorem exists_of_opensBracket {after : List Char} (bracket : opensBracket after = true) :
    ∃ slash later, (slash = [] ∨ slash = ['/']) ∧ after = slash ++ '[' :: later := by
  unfold opensBracket at bracket
  by_cases first : after.head? = some '/'
  · obtain ⟨later, rfl⟩ := List.head?_eq_some_iff.1 first
    obtain ⟨later, rfl⟩ := List.head?_eq_some_iff.1 (by simpa using bracket)
    exact ⟨['/'], later, Or.inr rfl, rfl⟩
  · obtain ⟨later, rfl⟩ := List.head?_eq_some_iff.1 (by simpa [first] using bracket)
    exact ⟨[], later, Or.inl rfl, rfl⟩

theorem scanItem?_bracket {lead body slash : List Char} (slashed : slash = [] ∨ slash = ['/'])
    (marked : IsMarker lead (body ++ (slash ++ '[' :: rest)))
    (split : splitBody (body ++ (slash ++ '[' :: rest)) = (body, slash ++ '[' :: rest)) :
    scanItem? offset (lead ++ (body ++ (slash ++ '[' :: rest))) =
      some (.bracket offset (!lead.isEmpty)
        (.ofChars (offset + byteLength lead) (body ++ slash)), rest) := by
  rw [scanItem?_marked offset marked, split]
  rcases slashed with rfl | rfl
  · simp
  · simp

theorem scanItem?_className {lead body after : List Char} (marked : IsMarker lead (body ++ after))
    (split : splitBody (body ++ after) = (body, after)) (nonempty : body ≠ [])
    (noBracket : opensBracket after = false) :
    scanItem? offset (lead ++ (body ++ after)) =
      some (.className (.ofChars offset (lead ++ body ++ marker after))
        (.ofChars (offset + byteLength lead) body) (!lead.isEmpty || !(marker after).isEmpty),
        after.drop (marker after).length) := by
  rw [scanItem?_marked offset marked, split]
  unfold opensBracket at noBracket
  by_cases slash : after.head? = some '/'
  · simp [slash] at noBracket ⊢
    simp [nonempty, noBracket]
  · simp [slash] at noBracket ⊢
    simp [nonempty, noBracket]

theorem scanItem?_group {lead : List Char} (marked : IsMarker lead ('(' :: rest)) :
    scanItem? offset (lead ++ '(' :: rest) = some (.group offset (!lead.isEmpty), rest) := by
  have split : splitBody ('(' :: rest) = ([], '(' :: rest) := rfl
  rw [scanItem?_marked offset marked, split]
  simp

theorem scanItem?_unhandled {lead following : List Char} (marked : IsMarker lead following)
    (split : splitBody following = ([], following)) (noBracket : opensBracket following = false)
    (noGroup : following.head? ≠ some '(') :
    scanItem? offset (lead ++ following) =
      match splitRun (fun c _ => !isBlank c) (lead ++ following) with
      | ([], _) => none
      | (run, rest) => some (.unhandled (.ofChars offset run), rest) := by
  rw [scanItem?_marked offset marked, split]
  unfold opensBracket at noBracket
  by_cases slash : following.head? = some '/'
  · simp only [slash, beq_self_eq_true, if_true] at noBracket ⊢
    exact (if_neg (Bool.eq_false_iff.1 noBracket)).trans <| (if_neg (by simp)).trans <|
      (if_neg (by simp)).trans rfl
  · simp only [beq_eq_false_iff_ne.2 slash, Bool.false_eq_true, if_false] at noBracket ⊢
    exact (if_neg (Bool.eq_false_iff.1 noBracket)).trans <| (if_neg (by simp)).trans <|
      (if_neg (by simpa using noGroup)).trans rfl

inductive ItemScans (offset : Nat) : List Char → List Char → Lexeme → Prop
  | bracket {lead body slash rest : List Char} (slashed : slash = [] ∨ slash = ['/'])
      (marked : IsMarker lead (body ++ (slash ++ '[' :: rest)))
      (split : splitBody (body ++ (slash ++ '[' :: rest)) = (body, slash ++ '[' :: rest)) :
      ItemScans offset (lead ++ (body ++ (slash ++ '[' :: rest))) rest
        (.bracket offset (!lead.isEmpty) (.ofChars (offset + byteLength lead) (body ++ slash)))
  | className {lead body after : List Char} (marked : IsMarker lead (body ++ after))
      (split : splitBody (body ++ after) = (body, after)) (nonempty : body ≠ [])
      (noBracket : opensBracket after = false) :
      ItemScans offset (lead ++ (body ++ after)) (after.drop (marker after).length)
        (.className (.ofChars offset (lead ++ body ++ marker after))
          (.ofChars (offset + byteLength lead) body) (!lead.isEmpty || !(marker after).isEmpty))
  | group {lead rest : List Char} (marked : IsMarker lead ('(' :: rest)) :
      ItemScans offset (lead ++ '(' :: rest) rest (.group offset (!lead.isEmpty))
  | unhandled {lead following run rest : List Char} (marked : IsMarker lead following)
      (split : splitBody following = ([], following)) (noBracket : opensBracket following = false)
      (noGroup : following.head? ≠ some '(') (nonempty : run ≠ [])
      (taken : splitRun (fun c _ => !isBlank c) (lead ++ following) = (run, rest)) :
      ItemScans offset (lead ++ following) rest (.unhandled (.ofChars offset run))

theorem itemScans_of_scanItem? {cs : List Char}
    (scanned : scanItem? offset cs = some (lexeme, rest)) : ItemScans offset cs rest lexeme := by
  obtain ⟨following, whole, marked, _⟩ := exists_marker cs
  generalize marker cs = lead at whole marked
  subst whole
  have parts := splitBody_append following
  cases bodyAt : splitBody following with
  | mk body after =>
      rw [bodyAt] at parts
      dsimp only at parts
      subst parts
      cases bracket : opensBracket after with
      | true =>
          obtain ⟨slash, later, slashed, rfl⟩ := exists_of_opensBracket bracket
          rw [scanItem?_bracket slashed marked bodyAt] at scanned
          cases scanned
          exact ItemScans.bracket slashed marked bodyAt
      | false =>
          by_cases nonempty : body = []
          · subst nonempty
            rw [List.nil_append] at marked bodyAt scanned ⊢
            by_cases group : after.head? = some '('
            · obtain ⟨later, rfl⟩ := List.head?_eq_some_iff.1 group
              rw [scanItem?_group marked] at scanned
              cases scanned
              exact ItemScans.group marked
            · rw [scanItem?_unhandled marked bodyAt bracket group] at scanned
              split at scanned
              · cases scanned
              next run later nonempty taken =>
                cases scanned
                exact ItemScans.unhandled marked bodyAt bracket group nonempty taken
          · rw [scanItem?_className marked bodyAt nonempty bracket] at scanned
            cases scanned
            exact ItemScans.className marked bodyAt nonempty bracket

/-- A lexeme that begins something is scanned alike whatever comes behind it. -/
theorem scan?_begins_ahead (scanned : scan? [':'] offset (taken ++ rest) = some (lexeme, rest))
    (begins : lexeme.begins = true) (other : List Char) :
    scan? [':'] offset (taken ++ other) = some (lexeme, other) := by
  rcases scan?_cases scanned with ⟨_, rfl⟩ | ⟨_, rfl⟩ | ⟨name, whole, nonempty, named, rfl⟩ |
    ⟨noLine, noBlock, none, item⟩
  · cases begins
  · cases begins
  · have front : taken = name ++ [':'] := by
      rw [← List.append_cancel_right_eq taken rest, whole, List.append_assoc, List.singleton_append]
    have start : (name ++ ':' :: other).head? ≠ some '/' := by
      obtain ⟨c, name, rfl⟩ := List.exists_cons_of_ne_nil nonempty
      rintro slash
      have slash : c = '/' := by simpa using slash
      exact absurd (named c (by simp)) (by rw [slash]; decide)
    obtain ⟨noLine, noBlock⟩ := Comment.no_start start
    rw [front, List.append_assoc, List.singleton_append, scan?, noLine, noBlock,
      splitVariant?_colon nonempty named]
    simp
  · have scans := itemScans_of_scanItem? item
    generalize whole : taken ++ rest = cs at scans
    cases scans with
    | @bracket lead body slash _ slashed marked split =>
        have front : taken = lead ++ (body ++ slash) ++ ['['] := by
          rw [← List.append_cancel_right_eq taken rest, whole]
          simp
        have parts : ∀ rest : List Char, lead ++ (body ++ slash) ++ ['['] ++ rest =
            lead ++ (body ++ slash) ++ '[' :: rest := by simp
        subst front
        rw [parts] at noLine noBlock none ⊢
        obtain ⟨noLine, noBlock⟩ :=
          @Comment.not_starts_ahead _ _ other _ (by decide) noLine noBlock
        rw [scan?_item_of_none noLine noBlock (splitVariant?_none_ahead none (by decide))]
        have again : splitBody (body ++ (slash ++ '[' :: other)) = (body, slash ++ '[' :: other) := by
          rcases slashed with rfl | rfl
          · exact splitBody_ahead split fun slash => absurd slash (by decide)
          · exact splitBody_ahead split fun _ => rfl
        have marks : IsMarker lead (body ++ (slash ++ '[' :: other)) := by
          apply marked.ahead
          rw [← List.append_assoc, ← List.append_assoc]
          cases body ++ slash <;> rfl
        rw [List.append_assoc, List.append_assoc, scanItem?_bracket slashed marks again]
    | @group lead _ marked =>
        have front : taken = lead ++ ['('] := by
          rw [← List.append_cancel_right_eq taken rest, whole]
          simp
        have parts : ∀ rest : List Char, lead ++ ['('] ++ rest = lead ++ '(' :: rest := by simp
        subst front
        rw [parts] at noLine noBlock none ⊢
        obtain ⟨noLine, noBlock⟩ :=
          @Comment.not_starts_ahead _ _ other _ (by decide) noLine noBlock
        have marks : IsMarker lead ('(' :: other) := marked.ahead rfl
        rw [scan?_item_of_none noLine noBlock (splitVariant?_none_ahead none (by decide)),
          scanItem?_group marks]
    | className _ _ _ _ => cases begins
    | unhandled _ _ _ _ _ _ => cases begins

private theorem opensBracket_ahead {front rest other : List Char} {d : Char}
    (same : d = '/' → rest.head? = other.head?) :
    opensBracket (front ++ d :: rest) = opensBracket (front ++ d :: other) := by
  match front with
  | [] =>
      by_cases slash : d = '/'
      · simp [opensBracket, slash, same slash]
      · simp [opensBracket, slash]
  | [c] => simp [opensBracket, apply_ite]
  | c :: e :: front => simp [opensBracket, apply_ite]

private theorem exists_common {d : Char} (run : List Char)
    (same : d = '/' → rest.head? = other.head?) :
    ∃ e here there, run ++ d :: rest = e :: here ∧ run ++ d :: other = e :: there ∧
      (e = '/' → here.head? = there.head?) := by
  cases run with
  | nil => exact ⟨d, rest, other, rfl, rfl, same⟩
  | cons e run => exact ⟨e, _, _, rfl, rfl, fun _ => by cases run <;> rfl⟩

/-- What decides how an item is read, between its marker and behind its body, does not look past the
character that the body stops at and, behind a slash, the next. -/
theorem body_ahead {lead body run : List Char} {d : Char}
    (marked : IsMarker lead (body ++ (run ++ d :: rest)))
    (split : splitBody (body ++ (run ++ d :: rest)) = (body, run ++ d :: rest))
    (none : splitVariant? [':'] (lead ++ (body ++ (run ++ d :: rest))) = .none)
    (same : d = '/' → rest.head? = other.head?) :
    IsMarker lead (body ++ (run ++ d :: other)) ∧
      splitBody (body ++ (run ++ d :: other)) = (body, run ++ d :: other) ∧
      opensBracket (run ++ d :: other) = opensBracket (run ++ d :: rest) ∧
      splitVariant? [':'] (lead ++ (body ++ (run ++ d :: other))) = .none := by
  obtain ⟨e, here, there, hereAt, thereAt, near⟩ := exists_common run same
  rw [hereAt] at marked split none
  rw [hereAt, thereAt]
  have refused := splitRun_maximal _ _ e here (congrArg Prod.snd split)
  have unnamed : isName e = false := isName_of_not_isBody (Bool.or_eq_false_iff.1 refused).1
  have marks : IsMarker lead (body ++ e :: there) := by
    apply marked.ahead
    cases body <;> rfl
  rw [← List.append_assoc] at none ⊢
  exact ⟨marks, splitBody_ahead split near, (@opensBracket_ahead [] here there e near).symm,
    splitVariant?_none_ahead none unnamed⟩

theorem scan?_item_ahead {d : Char}
    (scanned : scan? [':'] offset (taken ++ d :: rest) = some (lexeme, d :: rest))
    (isLeaf : lexeme.isLeaf = true) (same : d = '/' → rest.head? = other.head?) :
    scan? [':'] offset (taken ++ d :: other) = some (lexeme, d :: other) := by
  rcases scan?_cases scanned with ⟨_, rfl⟩ | ⟨_, rfl⟩ | ⟨name, whole, nonempty, named, rfl⟩ |
    ⟨noLine, noBlock, none, item⟩
  · cases isLeaf
  · cases isLeaf
  · cases isLeaf
  · have scans := itemScans_of_scanItem? item
    generalize whole : taken ++ d :: rest = cs at scans
    generalize after : d :: rest = later at scans
    cases scans with
    | bracket _ _ _ => cases isLeaf
    | group _ => cases isLeaf
    | @className lead body behind marked split nonempty noBracket =>
        obtain ⟨left, tail, trailing, dropped⟩ := exists_marker behind
        rw [dropped] at after
        subst after
        generalize marker behind = trail at tail trailing
        subst tail
        have front : taken = lead ++ body ++ trail := by
          rw [← List.append_cancel_right_eq taken (d :: rest), whole]
          simp
        subst front
        have trails : IsMarker trail (d :: other) := trailing.ahead rfl
        have parts : ∀ tail : List Char, lead ++ body ++ trail ++ d :: tail =
            lead ++ (body ++ (trail ++ d :: tail)) := by simp
        obtain ⟨line, block⟩ := @Comment.starts_ahead_cons (lead ++ body ++ trail) rest other d
          (by simp [nonempty])
        rw [parts] at none
        obtain ⟨marks, splits, brackets, unsplit⟩ := body_ahead marked split none same
        rw [scan?_item_of_none (line.trans noLine) (block.trans noBlock) (by rw [parts, unsplit]),
          parts, scanItem?_className marks splits nonempty (brackets.trans noBracket),
          marker_append trails, List.drop_left]
    | @unhandled lead following run _ marked split noBracket noGroup nonempty takes =>
        have run_eq := splitRun_append (fun c _ => !isBlank c) (lead ++ following)
        rw [takes, ← after, ← whole] at run_eq
        obtain rfl : run = taken := List.append_cancel_right run_eq
        obtain ⟨inner, rfl, rfl⟩ : ∃ inner, run = lead ++ inner ∧ following = inner ++ d :: rest := by
          rcases marked with rfl | ⟨rfl, _⟩
          · obtain ⟨c, inner, rfl⟩ := List.exists_cons_of_ne_nil nonempty
            rw [List.cons_append, List.singleton_append, List.cons.injEq] at whole
            exact ⟨inner, by rw [whole.1]; rfl, whole.2.symm⟩
          · exact ⟨run, rfl, whole.symm⟩
        have parts : ∀ tail : List Char, lead ++ inner ++ d :: tail =
            lead ++ (inner ++ d :: tail) := by simp
        obtain ⟨line, block⟩ := @Comment.starts_ahead_cons (lead ++ inner) rest other d nonempty
        have run : splitRun (fun c _ => !isBlank c) (lead ++ inner ++ d :: other) =
            (lead ++ inner, d :: other) := by
          apply @splitRun_ahead (fun c _ => !isBlank c) (fun _ _ _ _ => rfl) _ rest _ _ _ rfl
          rw [parts, takes, after]
        rw [parts] at none
        -- the body is empty, and stops at the first character behind the marker
        obtain ⟨marks, splits, brackets, unsplit⟩ :=
          @body_ahead _ _ lead [] inner d marked split none same
        rw [List.nil_append] at marks splits unsplit
        have ungrouped : (inner ++ d :: other).head? ≠ some '(' := by
          cases inner <;> exact noGroup
        rw [scan?_item_of_none (line.trans noLine) (block.trans noBlock) (by rw [parts, unsplit]),
          parts, scanItem?_unhandled marks splits (brackets.trans noBracket) ungrouped, ← parts, run]
        obtain ⟨c, cs, start⟩ := List.exists_cons_of_ne_nil nonempty
        rw [start]

end

end Lexeme

end ClassExpr
