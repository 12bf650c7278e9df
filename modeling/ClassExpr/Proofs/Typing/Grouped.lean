import ClassExpr.Proofs.Printing.Extent
import ClassExpr.Proofs.Typing.Open
import ClassExpr.Proofs.Variant.Matching

set_option autoImplicit false

/-! Texts that bracket nothing but groups. Without comments and square brackets a body goes on up to
the first blank outside of its groups; without quotes and calls of `url` groups are matched by
counting parentheses. So it can be said where typing a name ends neither a group nor a body. -/

namespace ClassExpr

open Text

def beforeMarker (before : List Char) : List Char :=
  if before.head? = some '!' then before.tail else before

/-- A parenthesis behind these characters starts an item: they end with a separator, a parenthesis
or a blank, and perhaps a marker. -/
def Starts (before : List Char) : Prop :=
  ∀ c ∈ (beforeMarker before).head?, c = ':' ∨ c = '(' ∨ isAsciiBlank c = true

instance (before : List Char) : Decidable (Starts before) :=
  decidable_of_iff
    ((beforeMarker before).head?.all (fun c => c == ':' || c == '(' || isAsciiBlank c) = true)
    (by unfold Starts; cases (beforeMarker before).head? <;> simp [or_assoc])

def StartGroups (before : List Char) : List Char → Prop
  | [] => True
  | c :: cs => (c = '(' → Starts before) ∧ StartGroups (c :: before) cs

instance StartGroups.decidable (before : List Char) :
    (cs : List Char) → Decidable (StartGroups before cs)
  | [] => isTrue trivial
  | c :: cs =>
      haveI := decidable (c :: before) cs
      inferInstanceAs (Decidable ((c = '(' → Starts before) ∧ StartGroups (c :: before) cs))

private theorem beforeMarker_append {before : List Char} (far : List Char) {c : Char}
    (near : (beforeMarker before).head? = some c) : (beforeMarker (before ++ far)).head? = some c := by
  unfold beforeMarker at near ⊢
  cases before with
  | nil => cases near
  | cons d before =>
      rw [List.cons_append, List.head?_cons] at *
      by_cases marked : d = '!'
      · subst marked
        rw [if_pos rfl, List.tail_cons] at *
        rw [List.head?_append, near]
        rfl
      · have other : some d ≠ some '!' := fun same => marked (Option.some.inj same)
        rw [if_neg other] at *
        exact near

theorem Starts.of_append {before far : List Char} (starts : Starts (before ++ far)) :
    Starts before :=
  fun c near => starts c (beforeMarker_append far near)

theorem StartGroups.append {before first second : List Char} :
    StartGroups before (first ++ second) ↔
      StartGroups before first ∧ StartGroups (first.reverse ++ before) second := by
  induction first generalizing before with
  | nil => simp [StartGroups]
  | cons c first ih => simp [StartGroups, ih, and_assoc]

theorem StartGroups.of_append {before far cs : List Char}
    (groups : StartGroups (before ++ far) cs) : StartGroups before cs := by
  induction cs generalizing before with
  | nil => trivial
  | cons c cs ih => exact ⟨fun opens => (groups.1 opens).of_append, ih groups.2⟩

theorem StartGroups.part {cs inner : List Char} (groups : StartGroups [] cs)
    (part : inner <:+: cs) : StartGroups [] inner := by
  obtain ⟨before, after, rfl⟩ := part
  rw [append, append] at groups
  exact @of_append [] _ _ groups.1.2

/-- Behind each parenthesis that opens more are closed than opened. -/
def Closes (cs : List Char) : Prop :=
  ∀ before after, cs = before ++ '(' :: after → after.count '(' < after.count ')'

namespace Body

open Printing

def Solid (before : List Char) : Prop :=
  ∀ c ∈ (beforeMarker before).head?, c ≠ '(' ∧ isAsciiBlank c = false

theorem Solid.cons {before : List Char} (solid : Solid before) {c : Char} (noOpener : c ≠ '(')
    (noBlank : isAsciiBlank c = false) : Solid (c :: before) := by
  intro d near
  unfold beforeMarker at near
  rw [List.head?_cons, List.tail_cons] at near
  split at near
  · -- behind a marker the character in front of it counts
    by_cases marked : before.head? = some '!'
    · rw [marked, Option.mem_some_iff] at near
      subst near
      decide
    · apply solid d
      rwa [beforeMarker, if_neg marked]
  · rw [List.head?_cons, Option.mem_some_iff] at near
    exact near ▸ ⟨noOpener, noBlank⟩

/-- Where the body of a variant is in a text without square brackets and slashes. In a group its
depth is what the parentheses behind the first one count. -/
inductive Stands : State → List Char → Prop
  | plain {before : List Char} (solid : Solid before) : Stands .plain before
  | closed {before : List Char} : Stands .closed (')' :: before)
  | done {before : List Char} : Stands .done ('!' :: ')' :: before)
  | group {depth : Nat} {inside before : List Char} (deep : depth ≠ 0)
      (counted : depth + inside.count ')' = inside.count '(' + 1) :
      Stands (.group depth) (inside ++ '(' :: before)

theorem Stands.halts {state : State} {before : List Char} (stands : Stands state before)
    (outside : ∀ depth, state ≠ .group depth) {c : Char} (blank : isAsciiBlank c = true)
    (ahead : Option Char) : move rule state before c ahead = .halt := by
  have notBang : c ≠ '!' := ne_of_accepts blank rfl
  cases stands with
  | plain _ => simp [move, movePlain, blank]
  | closed => simp [move, movePlain, blank, notBang]
  | done => rfl
  | group _ _ => exact absurd rfl (outside _)

private theorem opensGroup_of_starts {before : List Char} (starts : Starts before)
    (solid : Solid before) :
    opensGroup rule before = true := by
  have same : (if before.head? == some '!' then before.tail else before) = beforeMarker before := by
    simp [beforeMarker]
  rw [opensGroup, same]
  cases near : beforeMarker before with
  | nil => rfl
  | cons c rest =>
      have first : c ∈ (beforeMarker before).head? := by rw [near]; rfl
      obtain ⟨notParen, notBlank⟩ := solid c first
      rcases starts c first with rfl | rfl | blank
      · simp [rule, List.isPrefixOf]
      · exact absurd rfl notParen
      · rw [notBlank] at blank
        cases blank

theorem Stands.move {state : State} {before : List Char} (stands : Stands state before) {c : Char}
    (noSquare : c ≠ '[') (noSlash : c ≠ '/') (starts : c = '(' → Starts before) :
    (∀ ahead, move rule state before c ahead = .halt) ∨
      ∃ next, (∀ ahead, move rule state before c ahead = .advance next) ∧
        Stands next (c :: before) := by
  cases stands with
  | @plain before solid =>
      cases blank : isAsciiBlank c with
      | true => exact Or.inl fun ahead => by simp [Body.move, movePlain, blank]
      | false =>
          right
          by_cases opens : c = '('
          · subst opens
            have opened := opensGroup_of_starts (starts rfl) solid
            refine ⟨.group 1, fun ahead => ?_, @Stands.group 1 [] before (by decide) rfl⟩
            simp [Body.move, movePlain, blank, opened]
          · refine ⟨.plain, fun ahead => ?_, Stands.plain (solid.cons opens blank)⟩
            simp [Body.move, movePlain, blank, noSquare, opens, noSlash]
  | @closed before =>
      cases blank : isAsciiBlank c with
      | true =>
          have notBang : c ≠ '!' := ne_of_accepts blank rfl
          exact Or.inl fun ahead => by simp [Body.move, movePlain, blank, notBang]
      | false =>
          right
          by_cases marked : c = '!'
          · subst marked
            exact ⟨.done, fun _ => rfl, Stands.done⟩
          · have opens : c ≠ '(' := by
              intro opens
              rcases starts opens ')' rfl with same | same | blank
              · cases same
              · cases same
              · cases blank
            have solid : Solid (')' :: before) := by
              intro d near
              cases near
              decide
            refine ⟨.plain, fun ahead => ?_, Stands.plain (solid.cons opens blank)⟩
            simp [Body.move, movePlain, blank, noSquare, opens, noSlash, marked]
  | done => exact Or.inl fun _ => rfl
  | @group depth inside before deep counted =>
      right
      by_cases opens : c = '('
      · subst opens
        refine ⟨.group (depth + 1), fun ahead => rfl, ?_⟩
        exact @Stands.group (depth + 1) ('(' :: inside) before (by omega) (by simp; omega)
      · by_cases closes : c = ')'
        · subst closes
          by_cases shallow : depth ≤ 1
          · exact ⟨.closed, fun ahead => by simp [Body.move, shallow], Stands.closed⟩
          · refine ⟨.group (depth - 1), fun ahead => by simp [Body.move, shallow], ?_⟩
            exact @Stands.group (depth - 1) (')' :: inside) before (by omega) (by simp; omega)
        · refine ⟨.group depth, fun ahead => by simp [Body.move, opens, closes], ?_⟩
          exact @Stands.group depth (c :: inside) before deep (by simp [opens, closes, counted])

/-- A text of this kind is left in the middle, or passed whatever follows it. -/
theorem Stands.run {state : State} {before : List Char} (stands : Stands state before)
    {run : List Char} (bare : ∀ c ∈ run, c ≠ '[' ∧ c ≠ '/') (groups : StartGroups before run) :
    (∀ more, more.length < (sweep (Body.move rule) state before (run ++ more)).rest.length) ∨
      ∃ next, Stands next (run.reverse ++ before) ∧
        ∀ more, sweep (Body.move rule) state before (run ++ more) =
          sweep (Body.move rule) next (run.reverse ++ before) more := by
  induction run generalizing state before with
  | nil => exact Or.inr ⟨state, stands, fun _ => rfl⟩
  | cons c run ih =>
      obtain ⟨noSquare, noSlash⟩ := bare c List.mem_cons_self
      have others : ∀ d ∈ run, d ≠ '[' ∧ d ≠ '/' :=
        fun d member => bare d (List.mem_cons_of_mem c member)
      rcases stands.move noSquare noSlash groups.1 with halts | ⟨next, moved, later⟩
      · left
        intro more
        rw [List.cons_append, sweep_cons_halt (Body.move rule) (halts _), List.length_cons,
          List.length_append]
        omega
      · have goes : ∀ more, sweep (Body.move rule) state before (c :: run ++ more) =
            sweep (Body.move rule) next (c :: before) (run ++ more) :=
          fun more => sweep_cons_advance (Body.move rule) (moved _)
        rcases ih later others groups.2 with left | ⟨last, there, passes⟩
        · exact Or.inl fun more => goes more ▸ left more
        · refine Or.inr ⟨last, by simpa using there, fun more => ?_⟩
          rw [goes, passes]
          simp

/-- Where a text of this kind is passed, a name behind it is taken unless a group with its marker is
right in front of it. -/
theorem Stands.takes {state : State} {before : List Char} (stands : Stands state before)
    (going : state ≠ .done) : (sweep (Body.move rule) state before ['x']).rest = [] := by
  cases stands with
  | plain _ => rfl
  | closed => rfl
  | done => exact absurd rfl going
  | group _ _ => rfl

end Body

namespace Bracket

/-- What follows the interior of a group, if parentheses are all that counts. -/
def behindGroup (depth : Nat) : List Char → List Char
  | [] => []
  | c :: cs =>
      if c = '(' then behindGroup (depth + 1) cs
      else if c = ')' then if depth ≤ 1 then c :: cs else behindGroup (depth - 1) cs
      else behindGroup depth cs

private theorem sweep_rest_eq {cs : List Char} (unquoted : ∀ c ∈ cs, isQuote c = false)
    {call : Call} {depth : Nat} {before : List Char} (unhidden : Unhidden (before.reverse ++ cs))
    (read : call.letters <+: before) :
    (sweep (move .parens) ⟨.code, call, depth⟩ before cs).rest = behindGroup depth cs := by
  have known : Pair.parens.IsKnown := Or.inl rfl
  induction cs generalizing call depth before with
  | nil => rfl
  | cons c cs ih =>
      have still := Call.letters_next c (Call.ne_argument unhidden.call read) read
      have later : Unhidden ((c :: before).reverse ++ cs) := by simpa using unhidden
      have others : ∀ d ∈ cs, isQuote d = false :=
        fun d member => unquoted d (List.mem_cons_of_mem c member)
      rw [behindGroup]
      by_cases opens : c = '('
      · have moved := unhidden.move_opener read known opens depth
        rw [if_pos opens, sweep_cons_advance (move .parens) moved]
        exact ih others later still
      rw [if_neg opens]
      by_cases closes : c = ')'
      · have moved := unhidden.move_closer read known closes depth
        rw [if_pos closes]
        by_cases shallow : depth ≤ 1
        · rw [if_pos shallow] at moved
          rw [if_pos shallow, sweep_cons_halt (move .parens) moved]
        · rw [if_neg shallow] at moved
          rw [if_neg shallow, sweep_cons_advance (move .parens) moved]
          exact ih others later still
      · have plain := unquoted c List.mem_cons_self
        have moved := unhidden.move_plain .parens read plain opens closes depth
        rw [if_neg closes, sweep_cons_advance (move .parens) moved]
        exact ih others later still

/-- Typing in front of the end of a group does not move it. -/
theorem behindGroup_typed {left right : List Char} {depth : Nat}
    (ahead : behindGroup depth (left ++ right) <:+ right) :
    behindGroup depth (left ++ 'x' :: ' ' :: right) = behindGroup depth (left ++ right) := by
  induction left generalizing depth with
  | nil => simp [behindGroup]
  | cons c left ih =>
      rw [List.cons_append, behindGroup] at ahead ⊢
      rw [List.cons_append, behindGroup]
      split at ahead
      next opens =>
        rw [if_pos opens, if_pos opens]
        exact ih ahead
      next noOpener =>
        rw [if_neg noOpener, if_neg noOpener]
        split at ahead
        next closes =>
          rw [if_pos closes, if_pos closes]
          split at ahead
          next shallow =>
            have size := ahead.length_le
            rw [List.length_cons, List.length_append] at size
            omega
          next deep =>
            rw [if_neg deep, if_neg deep]
            exact ih ahead
        next noCloser =>
          rw [if_neg noCloser, if_neg noCloser]
          exact ih ahead

theorem Unhidden.typed {left right : List Char} (unhidden : Unhidden (left ++ right)) :
    Unhidden (left ++ 'x' :: ' ' :: right) := by
  refine unhidden.of_infixes fun cs nonempty legal found => ?_
  have noLetter : 'x' ∉ cs := fun letter => absurd (legal 'x' letter) (by decide)
  have noBlank : ' ' ∉ cs := fun blank => absurd (legal ' ' blank) (by decide)
  rcases List.infix_append_iff.1 found with inLeft | inRight | ⟨first, second, rfl, ends, starts⟩
  · exact inLeft.trans (List.prefix_append left right).isInfix
  · have behind := infix_of_infix_cons noLetter nonempty inRight
    have inside := infix_of_infix_cons noBlank nonempty behind
    exact inside.trans (List.suffix_append left right).isInfix
  · cases second with
    | nil =>
        rw [List.append_nil]
        exact ends.isInfix.trans (List.prefix_append left right).isInfix
    | cons d second =>
        rw [List.cons_prefix_cons] at starts
        rw [starts.1] at noLetter
        simp at noLetter

end Bracket

theorem Overt.typed {left right : List Char} (overt : Overt (left ++ right)) :
    Overt (left ++ 'x' :: ' ' :: right) := by
  have known : ∀ {c : Char}, c ∈ left ++ 'x' :: ' ' :: right →
      c = 'x' ∨ c = ' ' ∨ c ∈ left ++ right := by
    intro c member
    simp only [List.mem_append, List.mem_cons] at member ⊢
    rcases member with first | rfl | rfl | last
    · exact Or.inr (Or.inr (Or.inl first))
    · exact Or.inl rfl
    · exact Or.inr (Or.inl rfl)
    · exact Or.inr (Or.inr (Or.inr last))
  refine ⟨overt.toUnhidden.typed, fun opener c member => ?_⟩
  have inside : '(' ∈ left ++ right := by simpa using known opener
  rcases known member with rfl | rfl | among
  · rfl
  · rfl
  · exact overt.quote inside c among

theorem Bracket.map_split?_parens {cs : List Char} (overt : Overt ('(' :: cs)) :
    (split? .parens [] ('(' :: cs)).map (·.2) =
      if behindGroup 1 cs = [] then none else some (behindGroup 1 cs) := by
  have unquoted : ∀ c ∈ cs, isQuote c = false := fun c member =>
    overt.quote List.mem_cons_self c (List.mem_cons_of_mem '(' member)
  have stops := @sweep_rest_eq cs unquoted .none 1 ['('] overt.toUnhidden List.nil_prefix
  have split := split?_eq (Or.inl rfl : Pair.parens.IsKnown) [] cs
  have known : Pair.parens.opener = '(' := rfl
  rw [known] at split
  dsimp only at split
  rw [split, stops]
  cases behindGroup 1 cs <;> rfl

namespace Body

open Printing

/-- In a group a body counts parentheses, and nothing else. -/
theorem sweep_group_cons (depth : Nat) (before : List Char) (c : Char) (cs : List Char) :
    sweep (move rule) (.group depth) before (c :: cs) =
      sweep (move rule)
        (if c = '(' then .group (depth + 1)
        else if c = ')' then if depth ≤ 1 then .closed else .group (depth - 1)
        else .group depth) (c :: before) cs := by
  have moved : ∀ ahead, move rule (.group depth) before c ahead = .advance
      (if c = '(' then .group (depth + 1)
      else if c = ')' then if depth ≤ 1 then .closed else .group (depth - 1)
      else .group depth) := by
    intro ahead
    simp only [move, beq_iff_eq]
    split
    · rfl
    · split <;> rfl
  exact sweep_cons_advance (move rule) (moved _)

private theorem sweep_inside {inside rest : List Char} {level depth : Nat}
    (ahead : Bracket.behindGroup level (inside ++ rest) <:+ rest) (deep : level ≤ depth)
    (before : List Char) :
    ∃ inner, ∀ more, sweep (move rule) (.group depth) before (inside ++ more) =
      sweep (move rule) (.group inner) (inside.reverse ++ before) more := by
  induction inside generalizing level depth before with
  | nil => exact ⟨depth, fun _ => rfl⟩
  | cons c inside ih =>
      rw [List.cons_append, Bracket.behindGroup] at ahead
      simp only [List.cons_append, sweep_group_cons, List.reverse_cons, List.append_assoc,
        List.nil_append]
      by_cases opens : c = '('
      · rw [if_pos opens] at ahead
        simp only [if_pos opens]
        exact ih ahead (Nat.succ_le_succ deep) _
      · rw [if_neg opens] at ahead
        simp only [if_neg opens]
        by_cases closes : c = ')'
        · rw [if_pos closes] at ahead
          simp only [if_pos closes]
          by_cases shallow : level ≤ 1
          · rw [if_pos shallow] at ahead
            have size := ahead.length_le
            rw [List.length_cons, List.length_append] at size
            omega
          · rw [if_neg shallow] at ahead
            have further : ¬depth ≤ 1 := by omega
            simp only [if_neg further]
            exact ih ahead (Nat.sub_le_sub_right deep 1) _
        · rw [if_neg closes] at ahead
          simp only [if_neg closes]
          exact ih ahead deep _

/-- Behind a closed group nothing in front of it counts. -/
theorem sweep_behind_closer (state : State) (passed before other cs : List Char) :
    (sweep (move rule) state (passed ++ ')' :: before) cs).rest =
      (sweep (move rule) state (passed ++ ')' :: other) cs).rest := by
  have opens : ∀ passed, opensGroup rule (passed ++ ')' :: before) =
      opensGroup rule (passed ++ ')' :: other) := by
    intro passed
    cases passed with
    | nil => rfl
    | cons c passed =>
        by_cases marked : c = '!'
        · subst marked
          cases passed <;> rfl
        · simp [opensGroup, rule, marked, List.isPrefixOf]
  rw [sweep_behind, sweep_behind (move rule) (')' :: other)]
  have alike : (fun state passed => move rule state (passed ++ ')' :: before)) =
      fun state passed => move rule state (passed ++ ')' :: other) := by
    funext state passed c ahead
    cases state <;> simp only [move, movePlain, opens]
  rw [alike]

private theorem sweep_group_rest (depth : Nat) (before other cs : List Char) :
    (sweep (move rule) (.group depth) before cs).rest =
      (sweep (move rule) (.group depth) other cs).rest := by
  induction cs generalizing depth before other with
  | nil => rfl
  | cons c cs ih =>
      rw [sweep_group_cons, sweep_group_cons]
      split
      · exact ih _ _ _
      · split
        next closes =>
          split
          · subst closes
            exact sweep_behind_closer .closed [] before other cs
          · exact ih _ _ _
        · exact ih _ _ _

end Body

/-- A text in which only groups are bracketed, and nothing is commented. -/
structure Grouped (cs : List Char) : Prop where
  slash : '/' ∉ cs
  square : '[' ∉ cs
  /-- Blanks end bodies. -/
  narrow : ∀ c ∈ cs, isBlank c = true → isAsciiBlank c = true
  groups : StartGroups [] cs

instance (cs : List Char) : Decidable (Grouped cs) :=
  haveI := List.decidableBAll (fun c => isBlank c = true → isAsciiBlank c = true) cs
  decidable_of_iff
    ('/' ∉ cs ∧ '[' ∉ cs ∧ (∀ c ∈ cs, isBlank c = true → isAsciiBlank c = true) ∧
      StartGroups [] cs)
    ⟨fun ⟨slash, square, narrow, groups⟩ => ⟨slash, square, narrow, groups⟩,
      fun grouped => ⟨grouped.slash, grouped.square, grouped.narrow, grouped.groups⟩⟩

theorem Grouped.part {cs inner : List Char} (grouped : Grouped cs) (part : inner <:+: cs) :
    Grouped inner where
  slash member := grouped.slash (part.subset member)
  square member := grouped.square (part.subset member)
  narrow c member := grouped.narrow c (part.subset member)
  groups := grouped.groups.part part

theorem Grouped.bare {cs : List Char} (grouped : Grouped cs) : ∀ c ∈ cs, c ≠ '[' ∧ c ≠ '/' := by
  intro c member
  refine ⟨?_, ?_⟩
  · rintro rfl
    exact grouped.square member
  · rintro rfl
    exact grouped.slash member

namespace Body

open Printing

/-- A body is left in the middle of such a text, or passes it whatever follows. -/
theorem run_of_grouped {run : List Char} (grouped : Grouped run) :
    (∀ more, more.length < (sweep (move rule) .plain [] (run ++ more)).rest.length) ∨
      ∃ state, Stands state run.reverse ∧
        ∀ more, sweep (move rule) .plain [] (run ++ more) =
          sweep (move rule) state run.reverse more := by
  have solid : Solid [] := by
    intro c near
    cases near
  have passes := (Stands.plain solid).run grouped.bare grouped.groups
  rwa [List.append_nil] at passes

theorem passes_of_takes {run : List Char} (grouped : Grouped run) (more : List Char)
    (taken : (sweep (move rule) .plain [] (run ++ ['x'])).rest = []) :
    (sweep (move rule) .plain [] (run ++ more)).rest.length ≤ more.length := by
  rcases run_of_grouped grouped with left | ⟨state, _, passes⟩
  · have short := left ['x']
    rw [taken] at short
    simp at short
  · rw [passes]
    exact sweep_rest_length_le _ _ _ _

/-- A body that passes such a text takes a name behind it, if it is not done with a group and its
marker. -/
theorem takes_of_passes {run : List Char} (grouped : Grouped run) {more : List Char}
    (marked : ¬[')', '!'] <:+ run)
    (short : (sweep (move rule) .plain [] (run ++ more)).rest.length ≤ more.length) :
    (sweep (move rule) .plain [] (run ++ ['x'])).rest = [] := by
  rcases run_of_grouped grouped with left | ⟨state, stands, passes⟩
  · exact absurd (left more) (Nat.not_lt_of_le short)
  · rw [passes]
    apply stands.takes
    rintro rfl
    generalize last : run.reverse = before at stands
    cases stands with
    | @done before =>
        apply marked
        rw [← List.reverse_reverse run, last, List.reverse_cons, List.reverse_cons,
          List.append_assoc]
        exact List.suffix_append _ _

theorem exists_group {front inside right more : List Char}
    (grouped : Grouped (front ++ '(' :: inside))
    (ahead : Bracket.behindGroup 1 (inside ++ right) <:+ right)
    (short : (sweep (move rule) .plain [] (front ++ '(' :: inside ++ more)).rest.length ≤
      more.length) :
    ∃ depth, ∀ others, sweep (move rule) .plain [] (front ++ '(' :: inside ++ others) =
      sweep (move rule) (.group depth) (front ++ '(' :: inside).reverse others := by
  simp only [List.append_cons front '(' inside, List.append_assoc (front ++ ['('])] at short ⊢
  have opened : Grouped (front ++ ['(']) := grouped.part ⟨[], inside, by simp⟩
  rcases run_of_grouped opened with left | ⟨state, stands, passes⟩
  · have long := left (inside ++ more)
    rw [List.length_append] at long
    omega
  · rw [List.reverse_append, List.reverse_singleton, List.singleton_append] at stands
    generalize place : '(' :: front.reverse = before at stands
    cases stands with
    | plain solid =>
        subst place
        exact absurd rfl (solid '(' rfl).1
    | closed => cases place
    | done => cases place
    | @group depth _ _ deep _ =>
        obtain ⟨inner, within⟩ := sweep_inside ahead (Nat.one_le_iff_ne_zero.2 deep)
          (front ++ ['(']).reverse
        refine ⟨inner, fun others => ?_⟩
        rw [passes, within, ← List.reverse_append]

theorem rest_typed {front inside right more : List Char}
    (grouped : Grouped (front ++ '(' :: inside))
    (ahead : Bracket.behindGroup 1 (inside ++ right) <:+ right)
    (short : (sweep (move rule) .plain [] (front ++ '(' :: inside ++ more)).rest.length ≤
      more.length) :
    (sweep (move rule) .plain [] (front ++ '(' :: inside ++ 'x' :: ' ' :: more)).rest =
      (sweep (move rule) .plain [] (front ++ '(' :: inside ++ more)).rest := by
  obtain ⟨depth, passes⟩ := exists_group grouped ahead short
  have typed : ∀ before, sweep (move rule) (.group depth) before ('x' :: ' ' :: more) =
      sweep (move rule) (.group depth) (' ' :: 'x' :: before) more := fun _ => rfl
  rw [passes, passes, typed]
  exact sweep_group_rest depth _ _ more

/-- A body ends at the latest at a blank that only closed groups stand in front of. -/
theorem rest_ne_nil_of_blank {run : List Char} (grouped : Grouped run) (closes : Closes run)
    {c : Char} (blank : isAsciiBlank c = true) (more : List Char) :
    (sweep (move rule) .plain [] (run ++ c :: more)).rest ≠ [] := by
  rcases run_of_grouped grouped with left | ⟨state, stands, passes⟩
  · have short := left (c :: more)
    intro none
    simp [none] at short
  · have outside : ∀ depth, state ≠ .group depth := by
      rintro depth rfl
      generalize place : run.reverse = before at stands
      cases stands with
      | @group _ inside before deep counted =>
          have whole : run = before.reverse ++ '(' :: inside.reverse := by
            rw [← List.reverse_reverse run, place]
            simp
          have closed := closes _ _ whole
          rw [List.count_reverse, List.count_reverse] at closed
          omega
    rw [passes, sweep_cons_halt (move rule) (stands.halts outside blank _)]
    exact List.cons_ne_nil c more

/-- Behind what a body takes, and behind the white space there, no name is taken. -/
theorem not_takes_behind {run white rest further more : List Char}
    (grouped : Grouped (run ++ further)) (closes : Closes run)
    (blank : ∀ c ∈ white, isAsciiBlank c = true) (parts : white ++ rest = further ++ more)
    (nonempty : further ≠ [])
    (ended : (sweep (move rule) .plain [] (run ++ (further ++ more))).rest = rest) :
    (sweep (move rule) .plain [] (run ++ further ++ ['x'])).rest ≠ [] := by
  cases white with
  | nil =>
      intro taken
      have short := passes_of_takes grouped more taken
      have long := List.length_pos_iff.2 nonempty
      rw [List.nil_append] at parts
      rw [List.append_assoc, ended, parts, List.length_append] at short
      omega
  | cons c white =>
      obtain ⟨d, further, rfl⟩ := List.exists_cons_of_ne_nil nonempty
      rw [List.cons_append, List.cons_append, List.cons.injEq] at parts
      obtain ⟨rfl, -⟩ := parts
      rw [List.append_assoc]
      exact rest_ne_nil_of_blank (grouped.part (List.prefix_append run _).isInfix) closes
        (blank c List.mem_cons_self) _

end Body

end ClassExpr
