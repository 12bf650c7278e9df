import ClassExpr.Bracket
import ClassExpr.Proofs.Comment

set_option autoImplicit false

/-! Which characters of a text count for the balance of brackets, said stretch by stretch: strings,
comments and calls of `url` are read as wholes, and every other character counts. Each text has such
a reading, whatever may stand between the letters of a call. -/

namespace ClassExpr.Bracket

open Text

/-- A string behind its opening mark, with the closing one, and what follows it. A backslash takes
the next character along; a string that is not closed goes to the end of the text. -/
inductive Quoted (mark : Char) : List Char → List Char → Prop
  | close {rest : List Char} : Quoted mark [mark] rest
  | escape {c : Char} {body rest : List Char} (later : Quoted mark body rest) :
      Quoted mark ('\\' :: c :: body) rest
  | char {c : Char} {body rest : List Char} (plain : c ≠ '\\') (inside : c ≠ mark)
      (later : Quoted mark body rest) : Quoted mark (c :: body) rest
  | unclosed : Quoted mark [] []
  | unclosedEscape : Quoted mark ['\\'] []

/-- The argument of a call behind its parenthesis, with the first closing one that is not in a
string, and what follows it. -/
inductive Argument : List Char → List Char → Prop
  | close {rest : List Char} : Argument [')'] rest
  | quoted {mark : Char} {body argument rest : List Char} (quote : isQuote mark = true)
      (spans : Quoted mark body (argument ++ rest)) (later : Argument argument rest) :
      Argument (mark :: body ++ argument) rest
  | char {c : Char} {argument rest : List Char} (open? : c ≠ ')') (plain : isQuote c = false)
      (later : Argument argument rest) : Argument (c :: argument) rest
  | unclosed : Argument [] []

/-- A comment that ends in front of the end of its text. A line comment ends with its line feed. -/
inductive ClosedComment : List Char → Prop
  | line {body : List Char} (oneLine : '\n' ∉ body) :
      ClosedComment ('/' :: '/' :: (body ++ ['\n']))
  | block {body : List Char} (first : ¬Comment.closer <:+: body ++ ['*']) :
      ClosedComment ('/' :: '*' :: (body ++ Comment.closer))

inductive OpenComment : List Char → Prop
  | line {body : List Char} (oneLine : '\n' ∉ body) : OpenComment ('/' :: '/' :: body)
  | block {body : List Char} (absent : ¬Comment.closer <:+: body) :
      OpenComment ('/' :: '*' :: body)

inductive Spelled (gap : List Char → Prop) : List Char → List Char → Prop
  | nil : Spelled gap [] []
  | cons {c : Char} {letters between taken : List Char} (apart : gap between)
      (later : Spelled gap letters taken) : Spelled gap (c :: letters) (between ++ c :: taken)

/-- A call from its first letter to the parenthesis, which is the last character. No word character
stands in front of it. -/
inductive CallAt (gap : List Char → Prop) (before : List Char) : List Char → Prop
  | intro {taken : List Char} (fresh : before.head?.any isAsciiWord = false)
      (spelled : Spelled gap ['r', 'l', '('] taken) : CallAt gap before ('u' :: taken)

/-- Which characters of a text count, if `before` has been passed. -/
inductive Reads (gap : List Char → Prop) : List Char → List Char → List Bool → Prop
  | done {before : List Char} : Reads gap before [] []
  | quoted {before body rest : List Char} {mark : Char} {marks : List Bool}
      (quote : isQuote mark = true) (spans : Quoted mark body rest)
      (later : Reads gap (body.reverse ++ mark :: before) rest marks) :
      Reads gap before (mark :: body ++ rest) (List.replicate (mark :: body).length false ++ marks)
  | comment {before comment rest : List Char} {marks : List Bool} (closed : ClosedComment comment)
      (later : Reads gap (comment.reverse ++ before) rest marks) :
      Reads gap before (comment ++ rest) (List.replicate comment.length false ++ marks)
  | openComment {before comment : List Char} (opened : OpenComment comment) :
      Reads gap before comment (List.replicate comment.length false)
  | call {before call argument rest : List Char} {marks : List Bool}
      (starts : CallAt gap before call) (spans : Argument argument rest)
      (later : Reads gap (argument.reverse ++ (call.reverse ++ before)) rest marks) :
      Reads gap before (call ++ (argument ++ rest))
        (List.replicate (call ++ argument).length false ++ marks)
  | char {before cs : List Char} {c : Char} {marks : List Bool} (plain : isQuote c = false)
      (noLine : Comment.startsLine (c :: cs) = false)
      (noBlock : Comment.startsBlock (c :: cs) = false)
      (noCall : ∀ call rest, c :: cs = call ++ rest → ¬CallAt gap before call)
      (later : Reads gap (c :: before) cs marks) : Reads gap before (c :: cs) (true :: marks)

/-! ### Every text is read -/

private theorem exists_quoted (mark : Char) (cs : List Char) :
    ∃ body rest, cs = body ++ rest ∧ Quoted mark body rest := by
  match cs with
  | [] => exact ⟨[], [], rfl, .unclosed⟩
  | c :: cs =>
      by_cases closes : c = mark
      · exact ⟨[c], cs, rfl, closes ▸ .close⟩
      · by_cases escape : c = '\\'
        · subst escape
          match cs with
          | [] => exact ⟨['\\'], [], rfl, .unclosedEscape⟩
          | d :: cs =>
              obtain ⟨body, rest, rfl, spans⟩ := exists_quoted mark cs
              exact ⟨'\\' :: d :: body, rest, rfl, .escape spans⟩
        · obtain ⟨body, rest, rfl, spans⟩ := exists_quoted mark cs
          exact ⟨c :: body, rest, rfl, .char escape closes spans⟩

private theorem exists_argument (cs : List Char) :
    ∃ argument rest, cs = argument ++ rest ∧ Argument argument rest := by
  induction size : cs.length using Nat.strongRecOn generalizing cs with
  | ind n ih =>
      cases cs with
      | nil => exact ⟨[], [], rfl, .unclosed⟩
      | cons c cs =>
          rw [List.length_cons] at size
          by_cases closes : c = ')'
          · exact ⟨[c], cs, rfl, closes ▸ .close⟩
          · by_cases quote : isQuote c = true
            · obtain ⟨body, behind, rfl, spans⟩ := exists_quoted c cs
              rw [List.length_append] at size
              obtain ⟨argument, rest, rfl, later⟩ := ih _ (by omega) behind rfl
              exact ⟨c :: body ++ argument, rest, by simp, .quoted quote spans later⟩
            · obtain ⟨argument, rest, rfl, later⟩ := ih _ (by omega) cs rfl
              exact ⟨c :: argument, rest, rfl, .char closes (by simpa using quote) later⟩

private theorem closed_or_open {cs : List Char}
    (starts : Comment.startsLine cs = true ∨ Comment.startsBlock cs = true) :
    (∃ comment rest, cs = comment ++ rest ∧ ClosedComment comment) ∨ OpenComment cs := by
  rcases starts with line | block
  · obtain ⟨inside, rfl⟩ := Comment.startsLine_iff.1 line
    by_cases newline : '\n' ∈ inside
    · obtain ⟨body, rest, rfl, oneLine⟩ := List.eq_append_cons_of_mem newline
      exact Or.inl ⟨'/' :: '/' :: (body ++ ['\n']), rest, by simp, .line oneLine⟩
    · exact Or.inr (.line newline)
  · obtain ⟨inside, rfl⟩ := Comment.startsBlock_iff.1 block
    cases closing : Comment.closeBlock? inside with
    | none => exact Or.inr (.block (Comment.closeBlock?_eq_none closing))
    | some parts =>
        obtain ⟨body, rest⟩ := parts
        obtain ⟨front, rfl, rfl, first⟩ := Comment.closeBlock?_eq_some closing
        exact Or.inl ⟨'/' :: '*' :: (front ++ Comment.closer), rest, by simp, .block first⟩

theorem ClosedComment.ne_nil {comment : List Char} (closed : ClosedComment comment) :
    comment ≠ [] := by
  cases closed <;> simp

theorem CallAt.ne_nil {gap : List Char → Prop} {before call : List Char}
    (starts : CallAt gap before call) : call ≠ [] := by
  cases starts
  simp

theorem exists_reads (gap : List Char → Prop) (before cs : List Char) :
    ∃ marks, Reads gap before cs marks := by
  induction size : cs.length using Nat.strongRecOn generalizing before cs with
  | ind n ih =>
      cases cs with
      | nil => exact ⟨[], .done⟩
      | cons c cs =>
          have whole := size
          rw [List.length_cons] at size
          by_cases quote : isQuote c = true
          · obtain ⟨body, rest, rfl, spans⟩ := exists_quoted c cs
            rw [List.length_append] at size
            obtain ⟨marks, later⟩ := ih _ (by omega) (body.reverse ++ c :: before) rest rfl
            exact ⟨_, .quoted quote spans later⟩
          · by_cases starts :
                Comment.startsLine (c :: cs) = true ∨ Comment.startsBlock (c :: cs) = true
            · rcases closed_or_open starts with ⟨comment, rest, parts, closed⟩ | opened
              · have positive := List.length_pos_iff.2 closed.ne_nil
                rw [parts, List.length_append] at whole
                obtain ⟨marks, later⟩ := ih _ (by omega) (comment.reverse ++ before) rest rfl
                rw [parts]
                exact ⟨_, .comment closed later⟩
              · exact ⟨_, .openComment opened⟩
            · obtain ⟨noLine, noBlock⟩ := not_or.1 starts
              by_cases begins : ∃ call rest, c :: cs = call ++ rest ∧ CallAt gap before call
              · obtain ⟨call, behind, parts, begins⟩ := begins
                obtain ⟨argument, rest, rfl, spans⟩ := exists_argument behind
                have positive := List.length_pos_iff.2 begins.ne_nil
                rw [parts, List.length_append, List.length_append] at whole
                obtain ⟨marks, later⟩ :=
                  ih _ (by omega) (argument.reverse ++ (call.reverse ++ before)) rest rfl
                rw [parts]
                exact ⟨_, .call begins spans later⟩
              · obtain ⟨marks, later⟩ := ih _ (by omega) (c :: before) cs rfl
                exact ⟨_, .char (by simpa using quote) (by simpa using noLine)
                  (by simpa using noBlock)
                  (fun call rest parts starts => begins ⟨call, rest, parts, starts⟩) later⟩

end ClassExpr.Bracket
