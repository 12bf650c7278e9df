import ClassExpr.Completion
import ClassExpr.Proofs.Comment
import ClassExpr.Proofs.Text.Occurrence
import ClassExpr.Proofs.Text.Sweep

set_option autoImplicit false

/-! The comments that a raw text shows. A raw text is code and comments, one after the other from
its start. What square brackets are in is code, and quotes are closed in it; outside of brackets a
quote is a character like others. A cursor is in a comment exactly if the raw text shows one around
it. -/

namespace ClassExpr.Completion

open Text

/-! ### What raw texts are made of -/

/-- A string behind its opening mark, with the closing one. A backslash takes the next character
along. -/
inductive ClosedString (mark : Char) : List Char → Prop
  | close : ClosedString mark [mark]
  | escape {c : Char} {body : List Char} (later : ClosedString mark body) :
      ClosedString mark ('\\' :: c :: body)
  | char {c : Char} {body : List Char} (plain : c ≠ '\\') (inside : c ≠ mark)
      (later : ClosedString mark body) : ClosedString mark (c :: body)

inductive Inside : List Char → Prop
  | nil : Inside []
  | char {c : Char} {cs : List Char} (plain : c ∉ ['[', ']', '\'', '"']) (later : Inside cs) :
      Inside (c :: cs)
  | quoted {mark : Char} {body cs : List Char} (quote : mark ∈ ['\'', '"'])
      (string : ClosedString mark body) (later : Inside cs) : Inside (mark :: body ++ cs)
  | brackets {inner cs : List Char} (deeper : Inside inner) (later : Inside cs) :
      Inside ('[' :: inner ++ ']' :: cs)

def StartsComment (cs : List Char) : Prop :=
  Comment.startsLine cs = true ∨ Comment.startsBlock cs = true

/-- Code and what follows it. Brackets are closed in it, and outside of them no comment starts. -/
inductive Code : List Char → List Char → Prop
  | nil {rest : List Char} : Code [] rest
  | char {c : Char} {cs rest : List Char} (plain : c ≠ '[')
      (silent : ¬StartsComment (c :: (cs ++ rest))) (later : Code cs rest) : Code (c :: cs) rest
  | brackets {inner cs rest : List Char} (inside : Inside inner) (later : Code cs rest) :
      Code ('[' :: inner ++ ']' :: cs) rest

/-- Code and comments, and what follows them. -/
inductive Clear : List Char → List Char → Prop
  | nil {rest : List Char} : Clear [] rest
  | code {taken cs rest : List Char} (code : Code taken (cs ++ rest)) (later : Clear cs rest) :
      Clear (taken ++ cs) rest
  | comment {taken cs rest : List Char} (spans : Comment.Spans taken (cs ++ rest))
      (later : Clear cs rest) : Clear (taken ++ cs) rest

/-- A comment that a text shows: in front of it there is code and there are comments. -/
def Shown (cs : List Char) (start : Nat) (taken : List Char) : Prop :=
  ∃ before rest, cs = before ++ (taken ++ rest) ∧ byteLength before = start ∧
    Clear before (taken ++ rest) ∧ Comment.Spans taken rest

def ClosedBlock (taken : List Char) : Prop :=
  ∃ body, taken = '/' :: '*' :: (body ++ Comment.closer)

/-- A cursor is in a comment behind its first character: up to its end, but in front of it if the
comment has a closer. -/
def Within (cursor start : Nat) (taken : List Char) : Prop :=
  start < cursor ∧ cursor ≤ start + byteLength taken ∧
    (ClosedBlock taken → cursor < start + byteLength taken)

/-! ### Reading on -/

/-- The mode and the depth of brackets at an offset of a text that starts in a mode and at a depth.
-/
def stateAt (mode : Mode) (depth : Nat) (cs : List Char) (offset : Nat) : Mode × Nat :=
  let reader := (sweep move ⟨mode, depth, offset⟩ [] cs).state
  (reader.mode, reader.depth)

def Mode.isComment : Mode → Bool
  | .lineComment => true
  | .blockComment => true
  | .code => false
  | .quoted _ => false

theorem modeAt_eq (cs : List Char) (offset : Nat) : modeAt cs offset = (stateAt .code 0 cs offset).1 :=
  rfl

section

variable {mode next : Mode} {depth deep : Nat} {c d : Char} {cs : List Char}

private theorem state_sweep (reader : Reader) (before cs : List Char) :
    (sweep move reader before cs).state = (sweep move reader [] cs).state := by
  have framed := @sweep_frame _ move before (fun _ _ _ _ => rfl) reader [] cs
  rw [List.nil_append] at framed
  rw [framed]

@[simp] theorem stateAt_zero (mode : Mode) (depth : Nat) (cs : List Char) :
    stateAt mode depth cs 0 = (mode, depth) := by
  cases cs with
  | nil => rfl
  | cons c cs => rfl

private theorem stateAt_nil (mode : Mode) (depth offset : Nat) :
    stateAt mode depth [] offset = (mode, depth) :=
  rfl

private theorem stateAt_advance {offset : Nat} (positive : 0 < offset)
    (moved : moveMode mode depth c cs.head? = .advance (next, deep)) :
    stateAt mode depth (c :: cs) offset = stateAt next deep cs (offset - c.utf8Size) := by
  have step : move ⟨mode, depth, offset⟩ [] c cs.head? =
      .advance ⟨next, deep, offset - c.utf8Size⟩ := by
    rw [move, if_neg (by exact Nat.ne_of_gt positive)]
    simp only [moved]
  rw [stateAt, sweep_cons_advance move step, state_sweep]
  rfl

private theorem stateAt_skip {offset : Nat} (positive : 0 < offset)
    (moved : moveMode mode depth c (some d) = .skip (next, deep)) :
    stateAt mode depth (c :: d :: cs) offset =
      stateAt next deep cs (offset - c.utf8Size - d.utf8Size) := by
  have step : move ⟨mode, depth, offset⟩ [] c (some d) =
      .skip ⟨next, deep, offset - c.utf8Size - d.utf8Size⟩ := by
    rw [move, if_neg (by exact Nat.ne_of_gt positive)]
    simp only [moved, Option.map_some, Option.getD_some]
  rw [stateAt, sweep_cons_skip move step, state_sweep]
  rfl

private theorem stateAt_skip_end {offset : Nat} (positive : 0 < offset)
    (moved : moveMode mode depth c none = .skip (next, deep)) :
    stateAt mode depth [c] offset = (next, deep) := by
  have step : move ⟨mode, depth, offset⟩ [] c none = .skip ⟨next, deep, offset - c.utf8Size⟩ := by
    rw [move, if_neg (by exact Nat.ne_of_gt positive)]
    simp only [moved, Option.map_none, Option.getD_none, Nat.sub_zero]
  rw [stateAt, sweep_cons, List.head?_nil, step]

end

/-! ### Stretches without comments -/

/-- Reading passes a stretch from one mode and depth to another, and no comment comes up in it. -/
structure Quiet (mode : Mode) (depth : Nat) (taken rest : List Char) (next : Mode) (deep : Nat) :
    Prop where
  silent : ∀ count ≤ byteLength taken,
    (stateAt mode depth (taken ++ rest) count).1.isComment = false
  behind : ∀ count, stateAt mode depth (taken ++ rest) (byteLength taken + count) =
    stateAt next deep rest count

section

variable {mode next last : Mode} {depth deep level : Nat} {c d : Char} {taken more rest : List Char}

theorem Quiet.nil (code : mode.isComment = false) : Quiet mode depth [] rest mode depth where
  silent count within := by
    rw [byteLength_nil, Nat.le_zero] at within
    rw [within, stateAt_zero]
    exact code
  behind count := by simp

theorem Quiet.append (first : Quiet mode depth taken (more ++ rest) next deep)
    (second : Quiet next deep more rest last level) :
    Quiet mode depth (taken ++ more) rest last level where
  silent count within := by
    rw [List.append_assoc]
    rw [byteLength_append] at within
    rcases Nat.le_total count (byteLength taken) with inFirst | behind
    · exact first.silent count inFirst
    · rw [← Nat.add_sub_cancel' behind, first.behind]
      exact second.silent _ (by omega)
  behind count := by
    rw [List.append_assoc, byteLength_append, Nat.add_assoc, first.behind, second.behind]

theorem Quiet.advance (code : mode.isComment = false) (goesOn : next.isComment = false)
    (moved : moveMode mode depth c rest.head? = .advance (next, deep)) :
    Quiet mode depth [c] rest next deep where
  silent count within := by
    rcases Nat.eq_zero_or_pos count with rfl | positive
    · rw [stateAt_zero]
      exact code
    · rw [byteLength_cons, byteLength_nil] at within
      have none : count - c.utf8Size = 0 := by omega
      rw [List.singleton_append, stateAt_advance positive moved, none, stateAt_zero]
      exact goesOn
  behind count := by
    have positive := c.utf8Size_pos
    rw [List.singleton_append, stateAt_advance (by simp; omega) moved]
    simp

theorem Quiet.skip (code : mode.isComment = false) (goesOn : next.isComment = false)
    (moved : moveMode mode depth c (some d) = .skip (next, deep)) :
    Quiet mode depth [c, d] rest next deep where
  silent count within := by
    rcases Nat.eq_zero_or_pos count with rfl | positive
    · rw [stateAt_zero]
      exact code
    · have none : count - c.utf8Size - d.utf8Size = 0 := by
        simp at within
        omega
      rw [List.cons_append, List.singleton_append, stateAt_skip positive moved, none, stateAt_zero]
      exact goesOn
  behind count := by
    have positive := c.utf8Size_pos
    rw [List.cons_append, List.singleton_append, stateAt_skip (by simp; omega) moved]
    congr 1
    simp
    omega

theorem Quiet.cons (code : mode.isComment = false) (goesOn : next.isComment = false)
    (moved : moveMode mode depth c (taken ++ rest).head? = .advance (next, deep))
    (later : Quiet next deep taken rest last level) :
    Quiet mode depth (c :: taken) rest last level :=
  Quiet.append (Quiet.advance code goesOn moved) later

end

/-! ### Brackets -/

theorem ClosedString.quiet {mark : Char} {body : List Char} (string : ClosedString mark body)
    (quote : mark ∈ ['\'', '"']) (depth : Nat) (rest : List Char) :
    Quiet (.quoted mark) depth body rest .code depth := by
  induction string with
  | close =>
      have noEscape : mark ≠ '\\' := by
        rintro rfl
        simp at quote
      exact Quiet.advance rfl rfl (by simp [moveMode, noEscape])
  | escape _ ih => exact Quiet.append (Quiet.skip rfl rfl (by simp [moveMode])) ih
  | char plain inside _ ih => exact Quiet.cons rfl rfl (by simp [moveMode, plain, inside]) ih

private theorem moveMode_plain {c : Char} (plain : c ∉ ['[', ']', '\'', '"']) (depth : Nat)
    (ahead : Option Char) : moveMode .code (depth + 1) c ahead = .advance (.code, depth + 1) := by
  simp only [List.mem_cons, List.not_mem_nil, or_false, not_or] at plain
  simp [moveMode, plain]

private theorem moveMode_quote {c : Char} (quote : c ∈ ['\'', '"']) (depth : Nat)
    (ahead : Option Char) :
    moveMode .code (depth + 1) c ahead = .advance (.quoted c, depth + 1) := by
  simp only [List.mem_cons, List.not_mem_nil, or_false] at quote
  rcases quote with rfl | rfl <;> simp [moveMode]

private theorem moveMode_opener (depth : Nat) (ahead : Option Char) :
    moveMode .code depth '[' ahead = .advance (.code, depth + 1) := by
  simp [moveMode]

private theorem moveMode_bracketCloser (depth : Nat) (ahead : Option Char) :
    moveMode .code depth ']' ahead = .advance (.code, depth - 1) := by
  simp [moveMode]

/-- A pair of brackets is passed at the depth that it stands at, if its inside is one deeper. -/
theorem Quiet.brackets {inner rest : List Char} {depth : Nat}
    (inside : ∀ rest, Quiet .code (depth + 1) inner rest .code (depth + 1)) :
    Quiet .code depth ('[' :: inner ++ [']']) rest .code depth :=
  Quiet.cons rfl rfl (moveMode_opener depth _)
    (Quiet.append (inside _) (Quiet.advance rfl rfl (moveMode_bracketCloser (depth + 1) _)))

theorem Inside.quiet {inner : List Char} (inside : Inside inner) (depth : Nat) (rest : List Char) :
    Quiet .code (depth + 1) inner rest .code (depth + 1) := by
  induction inside generalizing depth rest with
  | nil => exact Quiet.nil rfl
  | char plain _ ih => exact Quiet.cons rfl rfl (moveMode_plain plain depth _) (ih depth rest)
  | quoted quote string _ ih =>
      exact Quiet.append
        (Quiet.cons rfl rfl (moveMode_quote quote depth _) (string.quiet quote (depth + 1) _))
        (ih depth rest)
  | @brackets inner cs _ _ deeper ih =>
      have passed := Quiet.append (Quiet.brackets (deeper (depth + 1))) (ih depth rest)
      simpa using passed

def Silent (mode : Mode) (depth : Nat) (cs : List Char) : Prop :=
  ∀ count, (stateAt mode depth cs count).1.isComment = false

private theorem Quiet.silent_append {mode next : Mode} {depth deep : Nat} {taken rest : List Char}
    (quiet : Quiet mode depth taken rest next deep) (later : Silent next deep rest) :
    Silent mode depth (taken ++ rest) := by
  intro count
  rcases Nat.le_total count (byteLength taken) with within | behind
  · exact quiet.silent count within
  · rw [← Nat.add_sub_cancel' behind, quiet.behind]
    exact later _

/-- A string is closed, or reading never leaves it. -/
theorem string_or_silent {mark : Char} (cs : List Char) :
    (∃ body rest, cs = body ++ rest ∧ ClosedString mark body) ∨
      ∀ depth, Silent (.quoted mark) depth cs := by
  match cs with
  | [] => exact Or.inr fun depth count => by rw [stateAt_nil]; rfl
  | c :: cs =>
      by_cases escape : c = '\\'
      · subst escape
        match cs with
        | [] =>
            refine Or.inr fun depth count => ?_
            rcases Nat.eq_zero_or_pos count with rfl | positive
            · rw [stateAt_zero]
              rfl
            · rw [stateAt_skip_end positive rfl]
              rfl
        | d :: cs =>
            rcases @string_or_silent mark cs with ⟨body, rest, rfl, string⟩ | silent
            · exact Or.inl ⟨_, rest, rfl, .escape string⟩
            · refine Or.inr fun depth => ?_
              exact Quiet.silent_append (Quiet.skip rfl rfl rfl) (silent depth)
      · by_cases closes : c = mark
        · exact Or.inl ⟨[c], cs, rfl, closes ▸ .close⟩
        · rcases @string_or_silent mark cs with ⟨body, rest, rfl, string⟩ | silent
          · exact Or.inl ⟨_, rest, rfl, .char escape closes string⟩
          · refine Or.inr fun depth => ?_
            have moved : moveMode (.quoted mark) depth c cs.head? =
                .advance (.quoted mark, depth) := by
              simp [moveMode, escape, closes]
            exact Quiet.silent_append (Quiet.advance rfl rfl moved) (silent depth)

/-- A bracket is closed, or no comment comes up behind it. -/
theorem inside_or_silent (cs : List Char) :
    (∃ inner rest, cs = inner ++ ']' :: rest ∧ Inside inner) ∨
      ∀ depth, Silent .code (depth + 1) cs := by
  induction counted : cs.length using Nat.strongRecOn generalizing cs with
  | ind size ih =>
      cases cs with
      | nil => exact Or.inr fun depth count => by rw [stateAt_nil]; rfl
      | cons c cs =>
          rw [List.length_cons] at counted
          by_cases closes : c = ']'
          · exact Or.inl ⟨[], cs, by rw [closes]; rfl, .nil⟩
          by_cases opens : c = '['
          · subst opens
            rcases ih cs.length (by omega) cs rfl with ⟨inner, rest, rfl, inside⟩ | silent
            · rw [List.length_append, List.length_cons] at counted
              rcases ih rest.length (by omega) rest rfl with ⟨more, behind, rfl, later⟩ | silent
              · exact Or.inl ⟨_, behind, by simp, .brackets inside later⟩
              · refine Or.inr fun depth => ?_
                have passed := (Quiet.brackets (inside.quiet (depth + 1))).silent_append
                  (silent depth)
                simpa using passed
            · refine Or.inr fun depth => ?_
              exact (Quiet.advance rfl rfl (moveMode_opener (depth + 1) _)).silent_append
                (silent (depth + 1))
          by_cases quote : c ∈ ['\'', '"']
          · rcases @string_or_silent c cs with ⟨body, rest, rfl, string⟩ | silent
            · rw [List.length_append] at counted
              rcases ih rest.length (by omega) rest rfl with ⟨more, behind, rfl, later⟩ | silent
              · exact Or.inl ⟨_, behind, by simp, .quoted quote string later⟩
              · refine Or.inr fun depth => ?_
                exact (Quiet.cons rfl rfl (moveMode_quote quote depth _)
                  (string.quiet quote (depth + 1) rest)).silent_append (silent depth)
            · refine Or.inr fun depth => ?_
              exact (Quiet.advance rfl rfl (moveMode_quote quote depth _)).silent_append
                (silent (depth + 1))
          · have plain : c ∉ ['[', ']', '\'', '"'] := by
              simp only [List.mem_cons, List.not_mem_nil, or_false, not_or] at quote ⊢
              exact ⟨opens, closes, quote⟩
            rcases ih cs.length (by omega) cs rfl with ⟨inner, rest, rfl, inside⟩ | silent
            · exact Or.inl ⟨_, rest, rfl, .char plain inside⟩
            · refine Or.inr fun depth => ?_
              exact (Quiet.advance rfl rfl (moveMode_plain plain depth _)).silent_append
                (silent depth)

/-! ### Code and comments -/

/-- Behind `front` a text is read as if it started there. -/
def Resumes (front back : List Char) : Prop :=
  back ≠ [] → ∀ count, 0 < count →
    stateAt .code 0 (front ++ back) (byteLength front + count) = stateAt .code 0 back count

theorem Resumes.nil (back : List Char) : Resumes [] back := by
  intro _ count _
  rw [List.nil_append, byteLength_nil, Nat.zero_add]

theorem Resumes.append {first second back : List Char} (left : Resumes first (second ++ back))
    (right : Resumes second back) : Resumes (first ++ second) back := by
  intro nonempty count positive
  rw [List.append_assoc, byteLength_append, Nat.add_assoc,
    left (List.append_ne_nil_of_right_ne_nil second nonempty) _ (by omega),
    right nonempty count positive]

private theorem moveMode_code {c : Char} (plain : c ≠ '[') {ahead : List Char}
    (silent : ¬StartsComment (c :: ahead)) :
    moveMode .code 0 c ahead.head? = .advance (.code, 0) := by
  have noLine : ¬(c = '/' ∧ ahead.head? = some '/') := by
    rintro ⟨rfl, next⟩
    obtain ⟨rest, rfl⟩ := List.head?_eq_some_iff.1 next
    exact silent (Or.inl (Comment.startsLine_iff.2 ⟨rest, rfl⟩))
  have noBlock : ¬(c = '/' ∧ ahead.head? = some '*') := by
    rintro ⟨rfl, next⟩
    obtain ⟨rest, rfl⟩ := List.head?_eq_some_iff.1 next
    exact silent (Or.inr (Comment.startsBlock_iff.2 ⟨rest, rfl⟩))
  simp only [moveMode, decide_true, Bool.and_true, Bool.and_eq_true, beq_iff_eq]
  rw [if_neg noLine, if_neg noBlock, if_neg plain]
  simp

theorem Code.quiet {taken rest : List Char} (code : Code taken rest) :
    Quiet .code 0 taken rest .code 0 := by
  induction code with
  | nil => exact Quiet.nil rfl
  | char plain silent _ ih => exact Quiet.cons rfl rfl (moveMode_code plain silent) ih
  | brackets inside _ ih =>
      have passed := Quiet.append (Quiet.brackets (inside.quiet 0)) ih
      simpa using passed

theorem Quiet.resumes {front back : List Char} (quiet : Quiet .code 0 front back .code 0) :
    Resumes front back :=
  fun _ count _ => quiet.behind count

private theorem stateAt_within {mode : Mode} {depth : Nat} {body rest : List Char}
    (stays : ∀ front c back, body = front ++ c :: back →
      moveMode mode depth c (back ++ rest).head? = .advance (mode, depth)) (count : Nat) :
    stateAt mode depth (body ++ rest) count =
      if count ≤ byteLength body then (mode, depth)
      else stateAt mode depth rest (count - byteLength body) := by
  induction body generalizing count with
  | nil =>
      rw [List.nil_append, byteLength_nil, Nat.sub_zero]
      split
      next none => rw [Nat.le_zero.1 none, stateAt_zero]
      · rfl
  | cons c body ih =>
      have size := c.utf8Size_pos
      rcases Nat.eq_zero_or_pos count with rfl | positive
      · rw [stateAt_zero, if_pos (Nat.zero_le _)]
      · have moved : moveMode mode depth c (body ++ rest).head? = .advance (mode, depth) :=
          stays [] c body rfl
        rw [List.cons_append, stateAt_advance positive moved,
          ih fun front d back whole => stays (c :: front) d back (by rw [whole, List.cons_append]),
          byteLength_cons]
        by_cases inside : count ≤ c.utf8Size + byteLength body
        · rw [if_pos inside, if_pos (by omega)]
        · rw [if_neg inside, if_neg (by omega), Nat.sub_sub]

private theorem stateAt_line {body : List Char} (oneLine : '\n' ∉ body) (rest : List Char)
    (count : Nat) :
    stateAt .lineComment 0 (body ++ rest) count =
      if count ≤ byteLength body then (.lineComment, 0)
      else stateAt .lineComment 0 rest (count - byteLength body) := by
  apply stateAt_within
  rintro front c back rfl
  have other : c ≠ '\n' := by
    rintro rfl
    exact oneLine (by simp)
  simp [moveMode, other]

private theorem stateAt_block {body rest : List Char}
    (apart : ¬Comment.closer <:+: body ++ rest.take 1)
    (count : Nat) :
    stateAt .blockComment 0 (body ++ rest) count =
      if count ≤ byteLength body then (.blockComment, 0)
      else stateAt .blockComment 0 rest (count - byteLength body) := by
  apply stateAt_within
  rintro front c back rfl
  have unclosed : ¬(c = '*' ∧ (back ++ rest).head? = some '/') := by
    rintro ⟨rfl, ahead⟩
    obtain ⟨more, slash⟩ : ∃ more, back ++ rest.take 1 = '/' :: more := by
      cases back with
      | nil =>
          cases rest with
          | nil => cases ahead
          | cons d rest =>
              cases ahead
              exact ⟨[], rfl⟩
      | cons d back =>
          cases ahead
          exact ⟨_, rfl⟩
    refine apart ⟨front, more, ?_⟩
    rw [List.append_assoc front ('*' :: back), List.cons_append, slash]
    simp [Comment.closer]
  rw [moveMode, if_neg]
  simpa using unclosed

private theorem moveMode_line : moveMode .code 0 '/' (some '/') = .skip (.lineComment, 0) :=
  rfl

private theorem moveMode_block : moveMode .code 0 '/' (some '*') = .skip (.blockComment, 0) :=
  rfl

private theorem moveMode_closer : moveMode .blockComment 0 '*' (some '/') = .skip (.code, 0) :=
  rfl

private theorem stateAt_comment {taken rest : List Char} (spans : Comment.Spans taken rest)
    {count : Nat}
    (positive : 0 < count) (within : count ≤ byteLength taken)
    (early : ClosedBlock taken → count + 1 < byteLength taken) :
    (stateAt .code 0 (taken ++ rest) count).1.isComment = true := by
  have slash : Char.utf8Size '/' = 1 := rfl
  have star : Char.utf8Size '*' = 1 := rfl
  cases spans with
  | @line body rest oneLine _ =>
      rw [List.cons_append, List.cons_append, stateAt_skip positive moveMode_line,
        stateAt_line oneLine, if_pos]
      · rfl
      · simp at within
        omega
  | @block body rest first =>
      have inside := early ⟨body, rfl⟩
      rw [List.cons_append, List.cons_append, List.append_assoc,
        stateAt_skip positive moveMode_block, stateAt_block first, if_pos]
      · rfl
      · simp [Comment.closer] at inside
        omega
  | @openBlock body absent =>
      rw [List.append_nil, stateAt_skip positive moveMode_block]
      have reads := @stateAt_block body [] (by simpa using absent)
      rw [List.append_nil] at reads
      rw [reads, if_pos]
      · rfl
      · simp at within
        omega

/-- A comment is closed again, or ends in front of the next line. -/
theorem resumes_comment {taken rest : List Char} (spans : Comment.Spans taken rest) :
    Resumes taken rest := by
  have slash : Char.utf8Size '/' = 1 := rfl
  have star : Char.utf8Size '*' = 1 := rfl
  intro nonempty count positive
  cases spans with
  | @line body _ oneLine maximal =>
      obtain ⟨c, rest, rfl⟩ := List.exists_cons_of_ne_nil nonempty
      obtain rfl : c = '\n' := by simpa using maximal
      rw [List.cons_append, List.cons_append, stateAt_skip (by omega) moveMode_line,
        stateAt_line oneLine, if_neg (by simp; omega)]
      have first : byteLength ('/' :: '/' :: body) + count - 1 - 1 - byteLength body = count := by
        simp
        omega
      have moved : moveMode .lineComment 0 '\n' rest.head? = .advance (.code, 0) := rfl
      have again : moveMode .code 0 '\n' rest.head? = .advance (.code, 0) := rfl
      rw [slash, first, stateAt_advance positive moved, stateAt_advance positive again]
  | @block body _ first =>
      have size : byteLength ('/' :: '*' :: (body ++ Comment.closer)) + count - 1 - 1 -
          byteLength body = count + 2 := by
        simp [Comment.closer]
        omega
      rw [List.cons_append, List.cons_append, List.append_assoc,
        stateAt_skip (by omega) moveMode_block, stateAt_block first, slash, star, size,
        if_neg (by simp [Comment.closer]; omega), Comment.closer, List.cons_append,
        List.cons_append, stateAt_skip (by omega) moveMode_closer]
      simp [slash, star]
  | openBlock _ => exact absurd rfl nonempty

private theorem stateAt_closed {taken rest : List Char} (spans : Comment.Spans taken rest)
    (closed : ClosedBlock taken) :
    stateAt .code 0 (taken ++ rest) (byteLength taken) = (.code, 0) := by
  have slash : Char.utf8Size '/' = 1 := rfl
  have star : Char.utf8Size '*' = 1 := rfl
  obtain ⟨body, rfl⟩ := closed
  have first := spans.first_closer
  have size : byteLength ('/' :: '*' :: (body ++ Comment.closer)) - 1 - 1 - byteLength body = 2 := by
    simp [Comment.closer]
    omega
  rw [List.cons_append, List.cons_append, List.append_assoc, stateAt_skip (by simp; omega)
    moveMode_block, stateAt_block first, slash, star, size, if_neg (by simp [Comment.closer]; omega),
    Comment.closer, List.cons_append, List.cons_append, stateAt_skip (by omega) moveMode_closer,
    slash, star, stateAt_zero]

theorem Clear.of_code {taken rest : List Char} (code : Code taken rest) : Clear taken rest := by
  have clear := @Clear.code taken [] rest code Clear.nil
  rwa [List.append_nil] at clear

theorem Clear.of_spans {taken rest : List Char} (spans : Comment.Spans taken rest) :
    Clear taken rest := by
  have clear := @Clear.comment taken [] rest spans Clear.nil
  rwa [List.append_nil] at clear

theorem Clear.append {first second rest : List Char} (front : Clear first (second ++ rest))
    (back : Clear second rest) : Clear (first ++ second) rest := by
  generalize whole : second ++ rest = behind at front
  induction front with
  | nil => exact back
  | code code _ ih =>
      subst whole
      rw [← List.append_assoc] at code
      rw [List.append_assoc]
      exact .code code (ih rfl)
  | comment spans _ ih =>
      subst whole
      rw [← List.append_assoc] at spans
      rw [List.append_assoc]
      exact .comment spans (ih rfl)

theorem Clear.resumes {front back : List Char} (clear : Clear front back) : Resumes front back := by
  induction clear with
  | nil => exact Resumes.nil _
  | code code _ ih => exact Resumes.append code.quiet.resumes ih
  | comment spans _ ih => exact Resumes.append (resumes_comment spans) ih

/-- A comment starts in code, although another one may end right in front of it. -/
theorem Clear.stateAt_slash {front back : List Char} (clear : Clear front back)
    (slash : back.head? = some '/') :
    stateAt .code 0 (front ++ back) (byteLength front) = (.code, 0) := by
  induction clear with
  | nil => simp
  | @code taken cs rest code _ ih =>
      rw [List.append_assoc, byteLength_append, code.quiet.behind]
      exact ih slash
  | @comment taken cs rest spans _ ih =>
      rw [List.append_assoc, byteLength_append]
      by_cases last : cs = []
      · subst last
        rw [List.nil_append] at spans ⊢
        rw [byteLength_nil, Nat.add_zero]
        apply stateAt_closed spans
        cases spans with
        | line _ maximal =>
            rw [slash] at maximal
            cases maximal
        | @block body _ _ => exact ⟨body, rfl⟩
        | openBlock _ => cases slash
      · have further : 0 < byteLength cs := byteLength_pos last
        rw [resumes_comment spans (by simp [last]) _ further]
        exact ih slash

/-! ### The cursor -/

theorem Shown.prepend {front cs taken : List Char} {start : Nat} (shown : Shown cs start taken)
    (clear : Clear front cs) : Shown (front ++ cs) (byteLength front + start) taken := by
  obtain ⟨before, rest, rfl, rfl, later, spans⟩ := shown
  exact ⟨front ++ before, rest, by simp, byteLength_append front before, clear.append later, spans⟩

theorem Within.shift {cursor start : Nat} {taken : List Char} (within : Within cursor start taken)
    (distance : Nat) : Within (distance + cursor) (distance + start) taken := by
  obtain ⟨behind, inside, closed⟩ := within
  refine ⟨by omega, by omega, fun block => ?_⟩
  have short := closed block
  omega

/-- The cursor is not between the star and the slash of the closer. -/
def SparesCloser (cursor start : Nat) (taken : List Char) : Prop :=
  ClosedBlock taken → cursor + 1 ≠ start + byteLength taken

theorem Shown.spares {cs taken : List Char} {cursor start : Nat} (shown : Shown cs start taken)
    (next : (splitBytes cursor cs).2.head? ≠ some '/') : SparesCloser cursor start taken := by
  rintro ⟨body, rfl⟩ ends
  obtain ⟨before, rest, rfl, rfl, _, _⟩ := shown
  have slash : Char.utf8Size '/' = 1 := rfl
  have parts : before ++ ('/' :: '*' :: (body ++ Comment.closer) ++ rest) =
      (before ++ '/' :: '*' :: (body ++ ['*'])) ++ '/' :: rest := by simp [Comment.closer]
  have place : cursor = byteLength (before ++ '/' :: '*' :: (body ++ ['*'])) := by
    simp [Comment.closer] at ends ⊢
    omega
  rw [parts, place, splitBytes_byteLength] at next
  exact next rfl

theorem Shown.isComment {cs taken : List Char} {cursor start : Nat} (shown : Shown cs start taken)
    (within : Within cursor start taken) (spares : SparesCloser cursor start taken) :
    (stateAt .code 0 cs cursor).1.isComment = true := by
  obtain ⟨before, rest, rfl, rfl, clear, spans⟩ := shown
  obtain ⟨behind, inside, closed⟩ := within
  have nonempty : taken ++ rest ≠ [] := by simp [spans.ne_nil]
  have reads := clear.resumes nonempty (cursor - byteLength before) (by omega)
  rw [Nat.add_sub_cancel' (Nat.le_of_lt behind)] at reads
  rw [reads]
  apply stateAt_comment spans
  · omega
  · omega
  · intro block
    have short := closed block
    have far := spares block
    omega

/-- Where reading is in a comment, one is shown. -/
theorem exists_shown {cs : List Char} {cursor : Nat} (inside : cursor ≤ byteLength cs)
    (comment : (stateAt .code 0 cs cursor).1.isComment = true) :
    ∃ start taken, Shown cs start taken ∧ Within cursor start taken := by
  induction counted : cs.length using Nat.strongRecOn generalizing cs cursor with
  | ind size ih =>
      -- behind what leaves nothing open the text is read as if it started there
      have further : ∀ {front rest}, cs = front ++ rest → front ≠ [] → Clear front rest →
          byteLength front < cursor → ∃ start taken, Shown cs start taken ∧
            Within cursor start taken := by
        rintro front rest rfl nonempty clear early
        have long := List.length_pos_iff.2 nonempty
        rw [List.length_append] at counted
        rw [byteLength_append] at inside
        obtain ⟨count, rfl⟩ := Nat.exists_eq_add_of_lt early
        have behind : rest ≠ [] := by
          rintro rfl
          rw [byteLength_nil] at inside
          omega
        rw [Nat.add_assoc, clear.resumes behind _ (Nat.succ_pos count)] at comment
        obtain ⟨start, taken, shown, within⟩ := ih rest.length (by omega) (by omega) comment rfl
        exact ⟨_, taken, shown.prepend clear, within.shift (byteLength front)⟩
      have onward : ∀ {front rest}, cs = front ++ rest → front ≠ [] → Code front rest →
          ∃ start taken, Shown cs start taken ∧ Within cursor start taken := by
        intro front rest whole nonempty code
        rcases Nat.lt_or_ge (byteLength front) cursor with early | within
        · exact further whole nonempty (Clear.of_code code) early
        · rw [whole, code.quiet.silent cursor within] at comment
          cases comment
      cases cs with
      | nil =>
          rw [stateAt_nil] at comment
          cases comment
      | cons c cs =>
          by_cases starts : StartsComment (c :: cs)
          · obtain ⟨taken, rest, whole, spans⟩ := Comment.exists_spans starts
            rcases Nat.lt_or_ge (byteLength taken) cursor with early | within
            · exact further whole spans.ne_nil (Clear.of_spans spans) early
            · refine ⟨0, taken, ⟨[], rest, whole, rfl, .nil, spans⟩, ?_, by omega, fun block => ?_⟩
              · rw [Nat.pos_iff_ne_zero]
                rintro rfl
                rw [stateAt_zero] at comment
                cases comment
              · rw [Nat.zero_add]
                apply Nat.lt_of_le_of_ne within
                rintro rfl
                rw [whole, stateAt_closed spans block] at comment
                cases comment
          by_cases opens : c = '['
          · subst opens
            rcases inside_or_silent cs with ⟨inner, rest, rfl, bracketed⟩ | silent
            · exact @onward ('[' :: inner ++ [']']) rest (by simp) (by simp)
                (.brackets bracketed .nil)
            · have quiet := (Quiet.advance rfl rfl (moveMode_opener 0 cs.head?)).silent_append
                (silent 0)
              rw [List.singleton_append] at quiet
              rw [quiet cursor] at comment
              cases comment
          · exact @onward [c] cs rfl (by simp) (.char opens starts .nil)

theorem ClosedBlock.four_le {taken : List Char} (closed : ClosedBlock taken) :
    4 ≤ byteLength taken := by
  have slash : Char.utf8Size '/' = 1 := rfl
  have star : Char.utf8Size '*' = 1 := rfl
  obtain ⟨body, rfl⟩ := closed
  simp [Comment.closer]
  omega

theorem two_le_of_spans {taken rest : List Char} (spans : Comment.Spans taken rest) :
    2 ≤ byteLength taken := by
  have slash : Char.utf8Size '/' = 1 := rfl
  have star : Char.utf8Size '*' = 1 := rfl
  cases spans <;> simp <;> omega

/-- Two comments that a text shows do not overlap. -/
theorem Shown.unique {cs taken other : List Char} {start later : Nat} (first : Shown cs start taken)
    (second : Shown cs later other) (behind : start ≤ later)
    (inside : later < start + byteLength taken) : later = start ∧ other = taken := by
  obtain ⟨before, rest, whole, place, clear, spans⟩ := id first
  obtain ⟨front, back, again, there, further, others⟩ := id second
  rcases Nat.eq_or_lt_of_le behind with same | beyond
  · have here : splitBytes start cs = (before, taken ++ rest) := by
      rw [whole, ← place, splitBytes_byteLength]
    rw [same, again, ← there, splitBytes_byteLength] at here
    exact ⟨same.symm, others.unique spans (Prod.mk.inj here).2⟩
  · exfalso
    by_cases closer : ClosedBlock taken ∧ later + 1 = start + byteLength taken
    · -- The second comment would start with the slash of the closer, and reading is not in the first
      -- one any more; but it is not in the second one either.
      obtain ⟨closed, ends⟩ := closer
      have nonempty : taken ++ rest ≠ [] := by simp [spans.ne_nil]
      have behindIt := clear.resumes nonempty (byteLength taken) (by omega)
      rw [stateAt_closed spans closed, ← whole, place, ← ends] at behindIt
      have long := two_le_of_spans others
      have within : Within (later + 1) later other := by
        refine ⟨by omega, by omega, fun block => ?_⟩
        have size := block.four_le
        omega
      have spares : SparesCloser (later + 1) later other := by
        intro block
        have size := block.four_le
        omega
      have comment := second.isComment within spares
      rw [behindIt] at comment
      cases comment
    · have slash : (other ++ back).head? = some '/' := by
        rw [List.head?_append, others.head?, Option.some_or]
      have code := further.stateAt_slash slash
      rw [← again, there] at code
      have comment := first.isComment ⟨beyond, Nat.le_of_lt inside, fun _ => inside⟩
        fun block ends => closer ⟨block, ends⟩
      rw [code] at comment
      cases comment

end ClassExpr.Completion
