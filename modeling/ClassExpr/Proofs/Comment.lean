import ClassExpr.Comment

set_option autoImplicit false

/-! What a comment is, said on its own: the text it takes at the start of a window and what the
window holds behind it. -/

namespace ClassExpr.Comment

open Text

def closer : List Char :=
  ['*', '/']

/-- A comment and the rest of its window. A line comment ends before the next line feed, a block
comment with the first closer behind its opener, and both at the latest with the window. -/
inductive Spans : List Char → List Char → Prop
  | line {body rest : List Char} (oneLine : '\n' ∉ body)
      (maximal : rest.head?.all (· == '\n') = true) : Spans ('/' :: '/' :: body) rest
  | block {body rest : List Char} (first : ¬closer <:+: body ++ ['*']) :
      Spans ('/' :: '*' :: (body ++ closer)) rest
  | openBlock {body : List Char} (absent : ¬closer <:+: body) : Spans ('/' :: '*' :: body) []

/-- The closer at the end of a comment is the first one. -/
theorem Spans.first_closer {body rest : List Char}
    (spans : Spans ('/' :: '*' :: (body ++ closer)) rest) : ¬closer <:+: body ++ ['*'] := by
  generalize whole : '/' :: '*' :: (body ++ closer) = taken at spans
  cases spans with
  | line _ _ => simp at whole
  | block first =>
      simp only [List.cons.injEq, true_and, List.append_cancel_right_eq] at whole
      rwa [whole]
  | openBlock absent =>
      simp only [List.cons.injEq, true_and] at whole
      exact absurd ⟨body, [], by simp [whole]⟩ absent

theorem Spans.ne_nil {taken rest : List Char} (spans : Spans taken rest) : taken ≠ [] := by
  cases spans <;> simp

def beforeCloser (c : Char) (rest : List Char) : Bool :=
  !(c == '*' && rest.head? == some '/')

private theorem beforeCloser_eq :
    beforeCloser = fun c rest => !(c == '*' && rest.head? == some '/') := rfl

private theorem closer_prefix_iff {c : Char} {cs : List Char} :
    closer <+: c :: cs ↔ beforeCloser c cs = false := by
  cases cs with
  | nil => simp [closer, beforeCloser]
  | cons d cs =>
      rw [closer, beforeCloser, List.cons_prefix_cons, List.cons_prefix_cons]
      simp [eq_comm (b := c), eq_comm (b := d)]

private theorem splitRun_no_closer (cs : List Char) :
    ¬closer <:+: (splitRun beforeCloser cs).1 ++ (splitRun beforeCloser cs).2.take 1 := by
  induction cs with
  | nil => simp [closer]
  | cons c cs ih =>
      rw [splitRun_cons]
      by_cases passed : beforeCloser c cs = true
      · rw [if_pos passed, List.cons_append, List.infix_cons_iff]
        rintro (atStart | later)
        · have longer : closer <+: c :: cs := by
            refine atStart.trans ((List.cons_prefix_cons).2 ⟨rfl, ?_⟩)
            have whole := splitRun_append beforeCloser cs
            exact ⟨(splitRun beforeCloser cs).2.drop 1, by
              rw [List.append_assoc, List.take_append_drop, whole]⟩
          rw [closer_prefix_iff, passed] at longer
          cases longer
        · exact ih later
      · rw [if_neg passed]
        intro found
        have short := found.length_le
        simp [closer] at short

theorem closeBlock?_eq_some {cs body rest : List Char}
    (closed : closeBlock? cs = some (body, rest)) :
    ∃ inside, body = inside ++ closer ∧ cs = body ++ rest ∧ ¬closer <:+: inside ++ ['*'] := by
  have whole := splitRun_append beforeCloser cs
  have first := splitRun_no_closer cs
  have maximal := splitRun_maximal beforeCloser cs
  rw [closeBlock?, ← beforeCloser_eq] at closed
  cases split : splitRun beforeCloser cs with
  | mk inside stopped =>
      rw [split] at closed whole first maximal
      cases stopped with
      | nil => cases closed
      | cons star stopped =>
          cases stopped with
          | nil => cases closed
          | cons slash after =>
              have refused := maximal star (slash :: after) rfl
              simp [beforeCloser] at refused
              obtain ⟨rfl, rfl⟩ := refused
              cases closed
              exact ⟨inside, rfl, by simp [← whole], first⟩

theorem closeBlock?_eq_none {cs : List Char} (opened : closeBlock? cs = none) :
    ¬closer <:+: cs := by
  have whole := splitRun_append beforeCloser cs
  have first := splitRun_no_closer cs
  have maximal := splitRun_maximal beforeCloser cs
  rw [closeBlock?, ← beforeCloser_eq] at opened
  cases split : splitRun beforeCloser cs with
  | mk inside stopped =>
      rw [split] at opened whole first maximal
      cases stopped with
      | nil =>
          rw [← whole]
          simpa using first
      | cons star stopped =>
          cases stopped with
          | nil =>
              have refused := maximal star [] rfl
              simp [beforeCloser] at refused
          | cons slash after => cases opened

theorem startsLine_iff {cs : List Char} :
    startsLine cs = true ↔ ∃ rest, cs = '/' :: '/' :: rest := by
  rw [startsLine, List.isPrefixOf_iff_prefix]
  constructor
  · rintro ⟨rest, same⟩
    exact ⟨rest, same.symm⟩
  · rintro ⟨rest, same⟩
    exact ⟨rest, same.symm⟩

theorem startsBlock_iff {cs : List Char} :
    startsBlock cs = true ↔ ∃ rest, cs = '/' :: '*' :: rest := by
  rw [startsBlock, List.isPrefixOf_iff_prefix]
  constructor
  · rintro ⟨rest, same⟩
    exact ⟨rest, same.symm⟩
  · rintro ⟨rest, same⟩
    exact ⟨rest, same.symm⟩

theorem no_start {cs : List Char} (noSlash : cs.head? ≠ some '/') :
    startsLine cs = false ∧ startsBlock cs = false := by
  constructor
  · rw [Bool.eq_false_iff]
    intro line
    obtain ⟨rest, rfl⟩ := startsLine_iff.1 line
    exact noSlash rfl
  · rw [Bool.eq_false_iff]
    intro block
    obtain ⟨rest, rfl⟩ := startsBlock_iff.1 block
    exact noSlash rfl

theorem Spans.starts {taken rest : List Char} (spans : Spans taken rest) (more : List Char) :
    startsLine (taken ++ more) = true ∨ startsBlock (taken ++ more) = true := by
  cases spans with
  | line _ _ => exact Or.inl (startsLine_iff.2 ⟨_, rfl⟩)
  | block _ => exact Or.inr (startsBlock_iff.2 ⟨_, rfl⟩)
  | openBlock _ => exact Or.inr (startsBlock_iff.2 ⟨_, rfl⟩)

theorem Spans.head? {taken rest : List Char} (spans : Spans taken rest) :
    taken.head? = some '/' := by
  cases spans <;> rfl

/-- A comment goes as far as it can. -/
theorem Spans.maximal {taken rest more later : List Char} {c : Char}
    (spans : Spans taken (c :: rest)) : ¬Spans (taken ++ c :: more) later := by
  intro longer
  generalize whole : taken ++ c :: more = other at longer
  cases spans with
  | @line body _ _ maximal =>
      cases longer with
      | @line further _ oneLine _ =>
          have newline : c = '\n' := by simpa using maximal
          have same : body ++ c :: more = further := by simpa using whole
          rw [← same, newline] at oneLine
          simp at oneLine
      | block _ => simp at whole
      | openBlock _ => simp at whole
  | @block body _ first =>
      cases longer with
      | line _ _ => simp at whole
      | @block further _ others =>
          -- the first closer stands in front of the end of the longer comment
          have same : body ++ closer ++ c :: more = further ++ closer := by simpa using whole
          have front := congrArg List.dropLast same
          apply others
          refine ⟨body, (c :: more).dropLast, ?_⟩
          rw [List.dropLast_append_of_ne_nil (by simp), closer,
            List.dropLast_append_of_ne_nil (by simp)] at front
          exact front
      | @openBlock further absent =>
          have same : body ++ closer ++ c :: more = further := by simpa using whole
          exact absent ⟨body, c :: more, same⟩

theorem Spans.unique {taken rest other later : List Char} (spans : Spans taken rest)
    (again : Spans other later) (same : taken ++ rest = other ++ later) : taken = other := by
  rcases List.append_eq_append_iff.1 same with ⟨more, longer, parts⟩ | ⟨more, longer, parts⟩
  · cases more with
    | nil => simpa using longer.symm
    | cons c more =>
        subst longer parts
        exact absurd again (Spans.maximal spans)
  · cases more with
    | nil => simpa using longer
    | cons c more =>
        subst longer parts
        exact absurd spans (Spans.maximal again)

theorem Spans.rest_eq_nil {body rest : List Char} (spans : Spans ('/' :: '*' :: body) rest)
    (opened : ¬closer <:+: body) : rest = [] := by
  generalize whole : '/' :: '*' :: body = taken at spans
  cases spans with
  | line _ _ => simp at whole
  | block _ =>
      obtain rfl : body = _ ++ closer := by simpa using whole
      exact absurd (List.suffix_append _ closer).isInfix opened
  | openBlock _ => rfl

theorem Spans.append {taken rest : List Char} (spans : Spans taken rest) (followed : rest ≠ [])
    (more : List Char) : Spans taken (rest ++ more) := by
  cases spans with
  | line oneLine maximal =>
      refine Spans.line oneLine ?_
      obtain ⟨c, rest, rfl⟩ := List.exists_cons_of_ne_nil followed
      exact maximal
  | block first => exact Spans.block first
  | openBlock absent => exact absurd rfl followed

theorem exists_spans {cs : List Char} (starts : startsLine cs = true ∨ startsBlock cs = true) :
    ∃ taken rest, cs = taken ++ rest ∧ Spans taken rest := by
  rcases starts with line | block
  · obtain ⟨inside, rfl⟩ := startsLine_iff.1 line
    refine ⟨'/' :: '/' :: inside.takeWhile (· != '\n'), inside.dropWhile (· != '\n'),
      by simp [List.takeWhile_append_dropWhile], Spans.line ?_ ?_⟩
    · intro newline
      have other := List.all_eq_true.1 List.all_takeWhile '\n' newline
      simp at other
    · have stopped := List.head?_dropWhile_not (· != '\n') inside
      cases stop : (inside.dropWhile (· != '\n')).head? with
      | none => rfl
      | some c =>
          rw [stop] at stopped
          simpa using stopped
  · obtain ⟨inside, rfl⟩ := startsBlock_iff.1 block
    cases closing : closeBlock? inside with
    | none =>
        exact ⟨'/' :: '*' :: inside, [], by simp, Spans.openBlock (closeBlock?_eq_none closing)⟩
    | some parts =>
        obtain ⟨body, rest⟩ := parts
        obtain ⟨front, rfl, rfl, first⟩ := closeBlock?_eq_some closing
        exact ⟨'/' :: '*' :: (front ++ closer), rest, by simp, Spans.block first⟩

/-- A comment at the end of its window may go on in a longer one. -/
theorem Spans.extend {taken : List Char} (spans : Spans taken []) (more : List Char) :
    ∃ further rest, more = further ++ rest ∧ Spans (taken ++ further) rest := by
  obtain ⟨longer, rest, whole, again⟩ := exists_spans (spans.starts more)
  rcases List.append_eq_append_iff.1 whole with ⟨further, rfl, parts⟩ | ⟨missing, rfl, parts⟩
  · exact ⟨further, rest, parts, again⟩
  · cases missing with
    | nil =>
        rw [List.append_nil] at spans
        exact ⟨[], more, rfl, by simpa [parts] using again⟩
    | cons c missing =>
        subst parts
        exact absurd spans (Spans.maximal again)

end ClassExpr.Comment
