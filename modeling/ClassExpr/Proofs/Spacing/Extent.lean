import ClassExpr.Proofs.Spacing.Scanning

set_option autoImplicit false

/-! Where groups and bodies end in two texts that differ in white space only. The closer of a group
is the same in both. A body is looked for at the blanks of ASCII only, so it may end earlier once
all white space is such a blank; it does not if what it holds, less the white space at its end, is
one body by then as well. -/

namespace ClassExpr

open Text

namespace Bracket

private theorem Call.next_spaced (before : List Char) (c : Char) (call : Call) :
    call.next (before.map spaced) (spaced c) = call.next before c := by
  have looksBack : (before.map spaced).head?.any isAsciiWord = before.head?.any isAsciiWord :=
    (Spaced.map before).head?_any isAsciiWord fun c blank => by
      rw [Bool.eq_false_iff]
      intro word
      have bounds := toNat_of_isAsciiWord word
      simp only [isBlank, Bool.or_eq_true, Bool.and_eq_true, decide_eq_true_eq, beq_iff_eq] at blank
      omega
  cases call <;> simp only [Call.next, Call.next.start, looksBack, spaced_beq (d := 'u') rfl,
    spaced_beq (d := 'r') rfl, spaced_beq (d := 'l') rfl, spaced_beq (d := '(') rfl,
    spaced_beq (d := ')') rfl]

private theorem move_spaced {state : State} {c : Char} (code : state.mode = .code)
    (free : isFree c = true)
    (before : List Char) :
    (∀ ahead, move .parens state before c ahead = .halt) ∧
        (∀ ahead, move .parens state (before.map spaced) (spaced c) ahead = .halt) ∨
      ∃ next : State, next.mode = .code ∧
        (∀ ahead, move .parens state before c ahead = .advance next) ∧
        ∀ ahead, move .parens state (before.map spaced) (spaced c) ahead = .advance next := by
  obtain ⟨mode, call, depth⟩ := state
  obtain rfl : mode = .code := code
  have noQuote : isQuote c = false := by
    simpa [isQuote] using ⟨Free.ne free (d := '\'') rfl, Free.ne free (d := '"') rfl⟩
  have noSlash : (c == '/') = false := beq_eq_false_iff_ne.2 (Free.ne free rfl)
  have sameQuote : isQuote (spaced c) = isQuote c := by
    rw [isQuote, isQuote, spaced_beq rfl, spaced_beq rfl]
  simp only [move, moveCode, sameQuote, noQuote, spaced_beq (d := '/') rfl, noSlash,
    Call.next_spaced, Pair.parens, spaced_beq (d := '(') rfl, spaced_beq (d := ')') rfl,
    Bool.false_and, Bool.false_eq_true, if_false]
  split
  · exact Or.inr ⟨_, rfl, fun _ => rfl, fun _ => rfl⟩
  · split
    · exact Or.inr ⟨_, rfl, fun _ => rfl, fun _ => rfl⟩
    · split
      · exact Or.inr ⟨_, rfl, fun _ => rfl, fun _ => rfl⟩
      · split
        · split
          · exact Or.inl ⟨fun _ => rfl, fun _ => rfl⟩
          · exact Or.inr ⟨_, rfl, fun _ => rfl, fun _ => rfl⟩
        · exact Or.inr ⟨_, rfl, fun _ => rfl, fun _ => rfl⟩

private theorem sweep_blank (state : State) (before : List Char) {cs : List Char}
    (blank : ∀ c ∈ cs, isBlank c = true) :
    (sweep (move .parens) state before cs).rest = [] := by
  cases stopped : (sweep (move .parens) state before cs).rest with
  | nil => rfl
  | cons c rest =>
      obtain ⟨passed, _, whole⟩ := sweep_passed (move .parens) state before cs
      have closer := (move_eq_halt (sweep_halts (move .parens) state before cs stopped)).1
      have white := blank c (by rw [whole, stopped]; simp)
      rw [closer] at white
      cases white

private theorem sweep_spaced {cs others : List Char} (free : Free cs) (later : Spaced cs others)
    {state : State} (code : state.mode = .code) (before : List Char) :
    let swept := sweep (move .parens) state before cs
    let swept' := sweep (move .parens) state (before.map spaced) others
    swept.rest = [] ∧ swept'.rest = [] ∨
      swept.rest ≠ [] ∧ swept'.rest ≠ [] ∧ swept'.before = swept.before.map spaced ∧
        Spaced swept.rest swept'.rest := by
  induction later generalizing state before with
  | ended blank spaces =>
      exact Or.inl ⟨sweep_blank state before blank,
        sweep_blank state _ (blank_of_spaces spaces)⟩
  | @cons c cs others later ih =>
      have first := free c List.mem_cons_self
      have deeper : Free cs := fun d member => free d (List.mem_cons_of_mem c member)
      dsimp only
      rcases move_spaced code first before with ⟨halts, halts'⟩ | ⟨next, code, moves, moves'⟩
      · rw [sweep_cons_halt _ (halts _), sweep_cons_halt _ (halts' _)]
        exact Or.inr ⟨by simp, by simp, rfl, later.cons c⟩
      · rw [sweep_cons_advance _ (moves _), sweep_cons_advance _ (moves' _)]
        exact ih deeper code (c :: before)

private theorem split?_nil (pair : Pair) (cs : List Char) :
    split? pair [] cs =
      if (sweep (move pair) .initial [] cs).rest.isEmpty then none
      else some ((sweep (move pair) .initial [] cs).before.reverse,
        (sweep (move pair) .initial [] cs).rest) := by
  rw [split?]
  simp only [List.length_nil, Nat.sub_zero, List.take_length]

/-- The closer of a group is the same character in both texts. -/
theorem split?_spaced {cs others : List Char} (free : Free cs) (later : Spaced cs others) :
    split? .parens [] cs = none ∧ split? .parens [] others = none ∨
      ∃ content closed closed', split? .parens [] cs = some (content, closed) ∧
        split? .parens [] others = some (content.map spaced, closed') ∧ Spaced closed closed' := by
  rw [split?_nil, split?_nil]
  have code : State.initial.mode = .code := rfl
  rcases sweep_spaced free later code [] with ⟨ended, ended'⟩ | ⟨stopped, stopped', same, spaced⟩
  · rw [List.map_nil] at ended'
    rw [ended, ended']
    exact Or.inl ⟨rfl, rfl⟩
  · rw [List.map_nil] at stopped' same spaced
    rw [if_neg (by simpa using stopped), if_neg (by simpa using stopped'), same, ← List.map_reverse]
    exact Or.inr ⟨_, _, _, rfl, rfl, spaced⟩

end Bracket

namespace Body

/-- White space, if it is any, is a blank that ends a body. -/
def isNarrow (c : Char) : Bool :=
  !isBlank c || isAsciiBlank c

inductive State.IsBare : State → Prop
  | plain : IsBare .plain
  | group (depth : Nat) : IsBare (.group depth)
  | closed : IsBare .closed
  | done : IsBare .done

variable {separator : List Char} (sound : Settings.SoundSeparator separator)

include sound

private theorem opensGroup_spaced (before : List Char) :
    opensGroup ⟨separator, true⟩ (before.map spaced) = opensGroup ⟨separator, true⟩ before := by
  have solid : ∀ c ∈ separator.reverse, isBlank c = false := fun c member =>
    sound.solid c (List.mem_reverse.1 member)
  rw [opensGroup, opensGroup, (Spaced.map before).head?_beq rfl]
  split
  · simp only [← List.map_tail, List.isEmpty_map, (Spaced.map before.tail).isPrefixOf solid]
  · simp only [List.isEmpty_map, (Spaced.map before).isPrefixOf solid]

omit sound in
private theorem movePlain_free {c : Char} (free : isFree c = true) (before : List Char)
    (ahead : Option Char) :
    movePlain ⟨separator, true⟩ before c ahead =
      if isAsciiBlank c then .halt
      else if c == '(' && opensGroup ⟨separator, true⟩ before then .advance (.group 1)
      else .advance .plain := by
  have noBracket : (c == '[') = false := beq_eq_false_iff_ne.2 (Free.ne free rfl)
  have noSlash : (c == '/') = false := beq_eq_false_iff_ne.2 (Free.ne free rfl)
  rw [movePlain, noBracket, noSlash]
  rfl

omit sound in
private theorem isAsciiBlank_solid {c : Char} (solid : isBlank c = false) :
    isAsciiBlank c = false := by
  rw [Bool.eq_false_iff]
  intro ascii
  rw [isBlank_of_isAsciiBlank ascii] at solid
  cases solid

private theorem movePlain_spaced {c : Char} (free : isFree c = true) (before : List Char) :
    (isNarrow c = true → ∀ ahead, movePlain ⟨separator, true⟩ before c ahead = .halt) ∧
        (∀ ahead, movePlain ⟨separator, true⟩ (before.map spaced) (spaced c) ahead = .halt) ∨
      ∃ next : State, next.IsBare ∧
        (∀ ahead, movePlain ⟨separator, true⟩ before c ahead = .advance next) ∧
        ∀ ahead, movePlain ⟨separator, true⟩ (before.map spaced) (spaced c) ahead =
          .advance next := by
  cases blank : isBlank c with
  | true =>
      rw [spaced_blank blank, isNarrow, blank]
      refine Or.inl ⟨fun narrow ahead => ?_, fun _ => rfl⟩
      have ascii : isAsciiBlank c = true := narrow
      rw [movePlain_free free, if_pos ascii]
  | false =>
      rw [spaced_solid blank]
      simp only [movePlain_free free, isAsciiBlank_solid blank, Bool.false_eq_true, if_false,
        opensGroup_spaced sound]
      split
      · exact Or.inr ⟨_, State.IsBare.group 1, fun _ => rfl, fun _ => rfl⟩
      · exact Or.inr ⟨_, State.IsBare.plain, fun _ => rfl, fun _ => rfl⟩

/-- Where a body goes on once all white space is a space, it goes on in the same way before; where
it ends then, it ends before unless the white space there is no blank that ends a body. -/
theorem move_spaced {state : State} (bare : state.IsBare) {c : Char} (free : isFree c = true)
    (before : List Char) :
    (isNarrow c = true → ∀ ahead, move ⟨separator, true⟩ state before c ahead = .halt) ∧
        (∀ ahead, move ⟨separator, true⟩ state (before.map spaced) (spaced c) ahead = .halt) ∨
      ∃ next : State, next.IsBare ∧
        (∀ ahead, move ⟨separator, true⟩ state before c ahead = .advance next) ∧
        ∀ ahead, move ⟨separator, true⟩ state (before.map spaced) (spaced c) ahead =
          .advance next := by
  cases bare with
  | plain => exact movePlain_spaced sound free before
  | group depth =>
      simp only [move, spaced_beq (d := '(') rfl, spaced_beq (d := ')') rfl]
      split
      · exact Or.inr ⟨_, State.IsBare.group _, fun _ => rfl, fun _ => rfl⟩
      · split
        · split
          · exact Or.inr ⟨_, State.IsBare.closed, fun _ => rfl, fun _ => rfl⟩
          · exact Or.inr ⟨_, State.IsBare.group _, fun _ => rfl, fun _ => rfl⟩
        · exact Or.inr ⟨_, State.IsBare.group depth, fun _ => rfl, fun _ => rfl⟩
  | closed =>
      simp only [move, spaced_beq (d := '!') rfl]
      split
      · exact Or.inr ⟨_, State.IsBare.done, fun _ => rfl, fun _ => rfl⟩
      · exact movePlain_spaced sound free before
  | done => exact Or.inl ⟨fun _ _ => rfl, fun _ => rfl⟩

/-- A text that is one body once its white space is replaced is passed over in the same way,
whatever follows it. -/
theorem sweep_spaced {core : List Char} (free : Free core) {state : State} (bare : state.IsBare)
    (before : List Char)
    (steady : (sweep (move ⟨separator, true⟩) state (before.map spaced) (core.map spaced)).rest = []) :
    ∃ last : State, last.IsBare ∧
      (∀ rest, sweep (move ⟨separator, true⟩) state before (core ++ rest) =
        sweep (move ⟨separator, true⟩) last (core.reverse ++ before) rest) ∧
      ∀ rest, sweep (move ⟨separator, true⟩) state (before.map spaced) (core.map spaced ++ rest) =
        sweep (move ⟨separator, true⟩) last ((core.reverse ++ before).map spaced) rest := by
  induction core generalizing state before with
  | nil => exact ⟨state, bare, fun _ => rfl, fun _ => rfl⟩
  | cons c core ih =>
      rw [List.map_cons] at steady
      rcases move_spaced sound bare (free c List.mem_cons_self) before with ⟨_, halts⟩ |
        ⟨next, bare, moves, moves'⟩
      · rw [sweep_cons_halt _ (halts _)] at steady
        cases steady
      · rw [sweep_cons_advance _ (moves' _)] at steady
        obtain ⟨last, bare, goesOn, goesOn'⟩ :=
          ih (fun d member => free d (List.mem_cons_of_mem c member)) bare (c :: before) steady
        refine ⟨last, bare, fun rest => ?_, fun rest => ?_⟩
        · rw [List.cons_append, sweep_cons_advance _ (moves _), goesOn, List.reverse_cons,
            List.append_assoc]
          rfl
        · rw [List.map_cons, List.cons_append, sweep_cons_advance _ (moves' _), ← List.map_cons,
            goesOn', List.reverse_cons, List.append_assoc]
          rfl

/-- A text whose white space is all of the blanks that end a body is one body once its white space
is replaced if it is part of one before. -/
theorem sweep_narrow {core : List Char} (free : Free core) (narrow : ∀ c ∈ core, isNarrow c = true)
    {state : State} (bare : state.IsBare) (before more : List Char)
    (passed : (sweep (move ⟨separator, true⟩) state before (core ++ more)).rest.length ≤
      more.length) :
    (sweep (move ⟨separator, true⟩) state (before.map spaced) (core.map spaced)).rest = [] := by
  induction core generalizing state before with
  | nil => rfl
  | cons c core ih =>
      rw [List.forall_mem_cons] at narrow
      rw [List.cons_append] at passed
      rw [List.map_cons]
      rcases move_spaced sound bare (free c List.mem_cons_self) before with ⟨halts, _⟩ |
        ⟨next, bare, moves, moves'⟩
      · rw [sweep_cons_halt _ (halts narrow.1 _), List.length_cons, List.length_append] at passed
        omega
      · rw [sweep_cons_advance _ (moves _)] at passed
        rw [sweep_cons_advance _ (moves' _)]
        exact ih (fun d member => free d (List.mem_cons_of_mem c member)) narrow.2 bare (c :: before)
          passed

omit sound

private theorem rest_ne_self {state next : State} {before : List Char} {c : Char} {cs : List Char}
    {rule : Rule} (moved : move rule state before c cs.head? = .advance next) :
    (sweep (move rule) state before (c :: cs)).rest ≠ c :: cs := by
  rw [sweep_cons_advance _ moved]
  have shorter := sweep_rest_length_le (move rule) next (c :: before) cs
  intro same
  rw [same, List.length_cons] at shorter
  omega

private theorem movePlain_solid {c : Char} (free : isFree c = true) (solid : isBlank c = false)
    (before : List Char) (ahead : Option Char) :
    ∃ next, movePlain ⟨separator, true⟩ before c ahead = .advance next := by
  rw [movePlain_free free, isAsciiBlank_solid solid]
  simp only [Bool.false_eq_true, if_false]
  split
  · exact ⟨_, rfl⟩
  · exact ⟨_, rfl⟩

private theorem sweep_group_blank {run : List Char} (blank : ∀ c ∈ run, isBlank c = true)
    (rule : Rule)
    (depth : Nat) (before rest : List Char) :
    sweep (move rule) (.group depth) before (run ++ rest) =
      sweep (move rule) (.group depth) (run.reverse ++ before) rest := by
  induction run generalizing before with
  | nil => rfl
  | cons c run ih =>
      have white := blank c List.mem_cons_self
      have moved : ∀ ahead, move rule (.group depth) before c ahead = .advance (.group depth) := by
        intro ahead
        rw [move, beq_of_blank (d := '(') rfl white, beq_of_blank (d := ')') rfl white]
        rfl
      rw [List.cons_append, sweep_cons_advance _ (moved _),
        ih fun d member => blank d (List.mem_cons_of_mem c member), List.reverse_cons,
        List.append_assoc]
      rfl

private theorem rest_spaced_open (last : State)
    (space : ∀ before ahead, move ⟨separator, true⟩ last before ' ' ahead = .halt)
    (goesOn : ∀ before c ahead, isFree c = true → isBlank c = false →
      ∃ next, move ⟨separator, true⟩ last before c ahead = .advance next)
    {passed rest others : List Char} (free : Free (passed ++ rest))
    (blank : ∀ c ∈ passed, isBlank c = true) (later : Spaced (passed ++ rest) others)
    (before before' : List Char)
    (stops : (sweep (move ⟨separator, true⟩) last before (passed ++ rest)).rest = rest) :
    (sweep (move ⟨separator, true⟩) last before' others).rest = others ∧ Loose rest others := by
  have halts : ∀ cs : List Char, cs.head?.all (· == ' ') = true →
      (sweep (move ⟨separator, true⟩) last before' cs).rest = cs := by
    intro cs first
    cases cs with
    | nil => rfl
    | cons c cs =>
        obtain rfl : c = ' ' := by simpa using first
        rw [sweep_cons_halt _ (space _ _)]
  generalize whole : passed ++ rest = cs at *
  cases later with
  | @ended _ others white spaces =>
      refine ⟨halts others ?_, Loose.of_spaced (Spaced.ended (fun c member => white c ?_) spaces)⟩
      · cases others with
        | nil => rfl
        | cons c others => simpa using spaces c List.mem_cons_self
      · rw [← whole]
        exact List.mem_append_right _ member
  | @cons c cs others later =>
      cases white : isBlank c with
      | true =>
          refine ⟨halts _ (by simp [spaced_blank white]), ?_⟩
          exact Loose.of_append blank (whole ▸ later.cons c)
      | false =>
          obtain ⟨next, moved⟩ := goesOn before c cs.head? (free c List.mem_cons_self) white
          cases passed with
          | nil =>
              rw [List.nil_append] at whole
              rw [whole] at stops
              exact absurd stops (rest_ne_self moved)
          | cons d passed =>
              rw [List.cons_append, List.cons.injEq] at whole
              have differs := blank d List.mem_cons_self
              rw [whole.1, white] at differs
              cases differs

private theorem rest_spaced_group (depth : Nat) {passed rest others : List Char}
    (blank : ∀ c ∈ passed, isBlank c = true) (later : Spaced (passed ++ rest) others)
    (before before' : List Char)
    (stops : (sweep (move ⟨separator, true⟩) (.group depth) before (passed ++ rest)).rest = rest) :
    rest = [] ∧ (∀ c ∈ others, c = ' ') ∧
      (sweep (move ⟨separator, true⟩) (.group depth) before' others).rest = [] := by
  rw [sweep_group_blank blank] at stops
  cases rest with
  | nil =>
      rw [List.append_nil] at later
      have spaces : ∀ c ∈ others, c = ' ' := later.spaces blank
      have swept := sweep_group_blank (blank_of_spaces spaces) ⟨separator, true⟩ depth before' []
      rw [List.append_nil] at swept
      exact ⟨rfl, spaces, by rw [swept]; rfl⟩
  | cons c rest =>
      have moved : ∃ next, move ⟨separator, true⟩ (.group depth) (passed.reverse ++ before) c
          rest.head? = .advance next := by
        simp only [move]
        split
        · exact ⟨_, rfl⟩
        · split <;> exact ⟨_, rfl⟩
      obtain ⟨next, moved⟩ := moved
      exact absurd stops (rest_ne_self moved)

private theorem rest_spaced {last : State} (bare : last.IsBare) {passed rest others : List Char}
    (free : Free (passed ++ rest)) (blank : ∀ c ∈ passed, isBlank c = true)
    (later : Spaced (passed ++ rest) others) (before before' : List Char)
    (stops : (sweep (move ⟨separator, true⟩) last before (passed ++ rest)).rest = rest) :
    ∃ passed' rest', others = passed' ++ rest' ∧ (∀ c ∈ passed', c = ' ') ∧
      (sweep (move ⟨separator, true⟩) last before' others).rest = rest' ∧ Loose rest rest' := by
  cases bare with
  | plain =>
      obtain ⟨stops', loose⟩ := rest_spaced_open .plain (fun _ _ => rfl)
        (fun before c ahead free solid => movePlain_solid free solid before ahead) free blank later
        before before' stops
      exact ⟨[], others, rfl, by simp, stops', loose⟩
  | closed =>
      obtain ⟨stops', loose⟩ := rest_spaced_open .closed (fun _ _ => rfl)
        (fun before c ahead free solid => by
          rw [move]
          split
          · exact ⟨_, rfl⟩
          · exact movePlain_solid free solid before ahead) free blank later before before' stops
      exact ⟨[], others, rfl, by simp, stops', loose⟩
  | done =>
      have halts : ∀ before cs, (sweep (move ⟨separator, true⟩) .done before cs).rest = cs := by
        intro before cs
        cases cs <;> rfl
      rw [halts] at stops
      rw [stops] at later
      exact ⟨[], others, rfl, by simp, halts before' others, Loose.of_spaced later⟩
  | group depth =>
      obtain ⟨rfl, spaces, stops'⟩ := rest_spaced_group depth blank later before before' stops
      exact ⟨others, [], by simp, spaces, stops', Loose.of_spaced (Spaced.map [])⟩

theorem split_narrow (sound : Settings.SoundSeparator separator) {core back rest : List Char}
    (free : Free core) (narrow : ∀ c ∈ core, isNarrow c = true)
    (delimited : split separator (core ++ back ++ rest) = (core ++ back, rest)) :
    (split separator (core.map spaced)).2 = [] := by
  refine sweep_narrow sound free narrow State.IsBare.plain [] (back ++ rest) ?_
  have stops := congrArg (fun parts => parts.2.length) delimited
  rw [List.append_assoc] at stops
  simp only [split] at stops
  rw [stops, List.length_append]
  omega

/-- What is one body once its white space is replaced is found at the start of both texts, and only
white space behind it may count to the body as well. -/
theorem split_spaced (sound : Settings.SoundSeparator separator)
    {core back rest others : List Char} (free : Free (core ++ back ++ rest))
    (later : Spaced (core ++ back ++ rest) others)
    (delimited : split separator (core ++ back ++ rest) = (core ++ back, rest))
    (blank : ∀ c ∈ back, isBlank c = true) (ends : ∀ c ∈ core.getLast?, isBlank c = false)
    (steady : (split separator (core.map spaced)).2 = []) :
    ∃ back' rest', split separator others = (core.map spaced ++ back', rest') ∧
      (∀ c ∈ back', c = ' ') ∧ Loose rest rest' := by
  rw [List.append_assoc] at free later delimited
  obtain ⟨behind, rfl, spaced⟩ := later.exists_rest core ends
  obtain ⟨last, bare, goesOn, goesOn'⟩ :=
    sweep_spaced sound free.of_append.1 State.IsBare.plain [] steady
  have stops := congrArg Prod.snd delimited
  rw [split, goesOn] at stops
  obtain ⟨back', rest', rfl, spaces, stops', loose⟩ := rest_spaced bare free.of_append.2 blank spaced
    _ ((core.reverse ++ []).map Text.spaced) stops
  rw [← goesOn'] at stops'
  refine ⟨back', rest', ?_, spaces, loose⟩
  have whole := split_append separator (core.map Text.spaced ++ (back' ++ rest'))
  have second : (split separator (core.map Text.spaced ++ (back' ++ rest'))).2 = rest' := stops'
  rw [second, ← List.append_assoc, List.append_cancel_right_eq] at whole
  rw [List.append_assoc] at whole
  exact Prod.ext whole second

end Body

end ClassExpr
