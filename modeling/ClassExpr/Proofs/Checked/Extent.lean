import ClassExpr.Proofs.Body
import ClassExpr.Proofs.Checked.Match

set_option autoImplicit false

/-! The ends of comments and of bodies on octets. The depth of a body never falls below zero, and
the stretches that are looked at for a separator and for the end of a comment lie in the text. -/

namespace ClassExpr

open Text

private theorem isAsciiBlank_of_wide {c : Char} (wide : IsWide c) : isAsciiBlank c = false := by
  have other : ∀ {d : Char}, ¬IsWide d → (c == d) = false := beq_of_wide wide
  simp (disch := decide) [isAsciiBlank, other]

namespace Body

def State.IsMarked : State → Prop
  | .quoted mark _ => mark = '\'' ∨ mark = '"'
  | _ => True

def State.IsCounted : State → Prop
  | .bracket depth => 0 < depth
  | .quoted _ depth => 0 < depth
  | .group depth => 0 < depth
  | _ => True

theorem isMarked_of_move {rule : Rule} {state next : State} {before : List Char} {c : Char}
    {ahead : Option Char} (marked : state.IsMarked)
    (moved : move rule state before c ahead = .advance next ∨
      move rule state before c ahead = .skip next) : next.IsMarked := by
  cases state with
  | plain => grind [move, movePlain, State.IsMarked]
  | comment => grind [move, State.IsMarked]
  | bracket depth => grind [move, State.IsMarked]
  | quoted mark depth => grind [move, State.IsMarked]
  | group depth => grind [move, State.IsMarked]
  | closed => grind [move, movePlain, State.IsMarked]
  | done => grind [move]

private theorem isCounted_of_move {rule : Rule} {state next : State} {before : List Char} {c : Char}
    {ahead : Option Char} (counted : state.IsCounted)
    (moved : move rule state before c ahead = .advance next ∨
      move rule state before c ahead = .skip next) : next.IsCounted := by
  cases state with
  | plain => grind [move, movePlain, State.IsCounted]
  | comment => grind [move, State.IsCounted]
  | bracket depth => grind [move, State.IsCounted]
  | quoted mark depth => grind [move, State.IsCounted]
  | group depth => grind [move, State.IsCounted]
  | closed => grind [move, movePlain, State.IsCounted]
  | done => grind [move]

private theorem isEmpty_back (before : List Char) : (back before).isEmpty = before.isEmpty := by
  rw [back, List.isEmpty_reverse, isEmpty_octets, List.isEmpty_reverse]

section

variable {others : List Char} (remnant : IsRemnant others)
include remnant

private theorem head?_back {mark : Char} (narrow : ¬IsWide mark) (before : List Char) :
    ((back before ++ others.reverse).head? == some mark) = (before.head? == some mark) := by
  have asked : ∀ ahead : Option Char, (ahead == some mark) = ahead.any (· == mark) := by
    intro ahead
    cases ahead <;> rfl
  have refused : ∀ c, IsWide c → (c == mark) = false := fun _ wide => beq_of_wide wide narrow
  rw [asked, asked, List.head?_append, ← any_back refused before]
  cases passed : (back before).head? with
  | some octet => rfl
  | none =>
      rw [Option.none_or]
      cases reversed : others.reverse with
      | nil => rfl
      | cons octet front =>
          exact refused octet (remnant.wide octet (by rw [← List.mem_reverse, reversed]; simp))

private theorem isPrefixOf_back (separator before : List Char) :
    (octets separator).reverse.isPrefixOf (back before ++ others.reverse) =
      separator.reverse.isPrefixOf before := by
  rw [Bool.eq_iff_iff, List.isPrefixOf_iff_prefix, List.isPrefixOf_iff_prefix, back,
    ← List.reverse_append, List.reverse_prefix, remnant.suffix_iff, ← List.reverse_prefix,
    List.reverse_reverse]

/-- A group is opened by the same octets in front of it as by the same characters. Where the octets
start inside a character, no group starts there. -/
theorem opensGroup_back (separator before : List Char) :
    opensGroup ⟨octets separator, true⟩ (back before ++ others.reverse) =
      opensGroup ⟨separator, others.isEmpty⟩ before := by
  have tails : (if ((back before ++ others.reverse).head? == some '!') = true
        then (back before ++ others.reverse).tail else back before ++ others.reverse) =
      back (if (before.head? == some '!') = true then before.tail else before) ++ others.reverse := by
    rw [head?_back remnant (by decide)]
    split
    next marked =>
      obtain ⟨rest, rfl⟩ := List.head?_eq_some_iff.1 (beq_iff_eq.1 marked)
      rw [back_cons, octets_of_narrow (by decide)]
      rfl
    · rfl
  have empties : ∀ before : List Char,
      (back before ++ others.reverse).isEmpty = (others.isEmpty && before.isEmpty) := by
    intro before
    rw [Bool.eq_iff_iff, Bool.and_eq_true_iff, List.isEmpty_iff, List.append_eq_nil_iff,
      List.reverse_eq_nil_iff, ← List.isEmpty_iff, isEmpty_back, ← List.isEmpty_iff, and_comm]
  simp only [opensGroup, tails, empties, isPrefixOf_back remnant, Bool.true_and]

end

/-- A wide character is passed as part of what it stands in. -/
def idle : State → State
  | .closed => .plain
  | state => state

theorem idle_ne_done {state : State} (going : state ≠ .done) : idle state ≠ .done := by
  cases state with
  | done => exact absurd rfl going
  | _ => simp [idle]

theorem move_wide {rule : Rule} {state : State} (marked : state.IsMarked) (going : state ≠ .done)
    {c : Char} (wide : IsWide c) (before : List Char) (ahead : Option Char) :
    move rule state before c ahead = .advance (idle state) := by
  have other : ∀ {d : Char}, ¬IsWide d → (c == d) = false := beq_of_wide wide
  have solid := isAsciiBlank_of_wide wide
  cases state with
  | plain => simp (disch := decide) [move, movePlain, idle, other, solid]
  | comment => simp (disch := decide) [move, idle, other]
  | bracket depth => simp (disch := decide) [move, idle, other]
  | quoted mark depth =>
      have notMark : (c == mark) = false := by
        rcases marked with rfl | rfl
        · exact other (by decide)
        · exact other (by decide)
      simp (disch := decide) [move, idle, other, notMark]
  | group depth => simp (disch := decide) [move, idle, other]
  | closed => simp (disch := decide) [move, movePlain, idle, other, solid]
  | done => exact absurd rfl going

theorem idle_of_skip {rule : Rule} {state next : State} {before : List Char} {c d : Char}
    (wide : IsWide d) (moved : move rule state before c (some d) = .skip next) :
    idle next = next ∧ next ≠ .done := by
  have slash : (some d == some '/') = false := beq_of_wide wide (by decide)
  have star : (some d == some '*') = false := beq_of_wide wide (by decide)
  cases state with
  | plain => grind [move, movePlain]
  | comment => grind [move]
  | bracket depth => grind [move]
  | quoted mark depth => grind [move, idle]
  | group depth => grind [move]
  | closed => grind [move, movePlain]
  | done => grind [move]

/-- On octets a body is read as on characters. `others` are the octets of a character that is cut
off in front of the body. -/
theorem octetwise_move_behind (separator : List Char) {others : List Char}
    (remnant : IsRemnant others) :
    Octetwise (move ⟨separator, others.isEmpty⟩)
      (fun state before => move ⟨octets separator, true⟩ state (before ++ others.reverse))
      State.IsMarked where
  narrow state before c ahead octet _ same := by
    simp only [move, movePlain, opensGroup_back remnant, same '/' (by decide), same '*' (by decide)]
  skipped state before c next d marked moved wide octet wideOctet front ahead := by
    obtain ⟨idling, going⟩ := idle_of_skip wide moved
    rw [move_wide (isMarked_of_move marked (Or.inr moved)) going wideOctet, idling]
  wide state before c ahead marked wide := by
    by_cases going : state = .done
    · subst going
      exact Or.inl ⟨rfl, fun _ _ _ _ => rfl⟩
    · refine Or.inr ⟨idle state, move_wide marked going wide before ahead, ?_⟩
      intro octet wideOctet front other
      have first := @move_wide ⟨octets separator, true⟩ _ marked going _ wideOctet
        (front ++ others.reverse) other
      have stays : idle (idle state) = idle state := by
        cases state <;> rfl
      have again := @move_wide ⟨octets separator, true⟩ _ (isMarked_of_move marked (Or.inl first))
        (idle_ne_done going) _ wideOctet (front ++ others.reverse) other
      rw [stays] at again
      exact ⟨first, again⟩
  good state before c ahead next marked moved := isMarked_of_move marked moved

theorem octetwise_move (separator : List Char) :
    Octetwise (move ⟨separator, true⟩) (move ⟨octets separator, true⟩) State.IsMarked := by
  simpa using octetwise_move_behind separator isRemnant_nil

private theorem split_octets (separator cs : List Char) :
    split (octets separator) (octets cs) =
      (octets (split separator cs).1, octets (split separator cs).2) := by
  have same := sweepWithin_octets (octetwise_move separator)
    (fun _ _ => rfl : SameAhead none none) .plain [] cs trivial
  rw [back_nil, sweepWithin_none (move ⟨separator, true⟩), sweepWithin_none] at same
  unfold split
  simp only [same, back, List.reverse_reverse]

end Body

namespace Checked

def findBlockEnd? (text : String) (start stop : Nat) : Option (Option Nat) :=
  let text := octets text.toList
  let stop := min stop text.length
  if stop < start then some none
  else do
    let window ← octetsBetween? text start stop
    some ((Comment.closeBlock? window).map fun (body, _) => start + body.length)

def opensGroup? (text : List Char) (start i : Nat) (separator : List Char) : Option Bool := do
  let stop ← if start < i then do
      let before ← sub? i 1
      let previous ← text[before]?
      some (if previous == '!' then before else i)
    else some i
  if stop == start then some true
  else if start + separator.length ≤ stop then do
    let first ← sub? stop separator.length
    let piece ← octetsBetween? text first stop
    some (piece == separator)
  else some false

def plainStep? (text : List Char) (start stop : Nat) (separator : List Char) (i : Nat) (c : Char)
    (ahead : Option Char) : Option (Move Body.State) :=
  if isAsciiBlank c then some .halt
  else if c == '[' then some (.advance (.bracket 1))
  else if c == '(' then do
    let opens ← opensGroup? text start i separator
    some (.advance (if opens then .group 1 else .plain))
  else if c == '/' && ahead == some '/' then some .halt
  else if c == '/' && ahead == some '*' then do
    let _ ← octetsBetween? text (i + 2) stop
    some (.skip .comment)
  else some (.advance .plain)

def bodyStep? (text : List Char) (start stop : Nat) (separator : List Char) (state : Body.State)
    (i : Nat) (c : Char) (ahead : Option Char) : Option (Move Body.State) :=
  match state with
  | .plain => plainStep? text start stop separator i c ahead
  | .bracket depth =>
      if c == '[' then some (.advance (.bracket (depth + 1)))
      else if c == ']' then do
        let depth ← sub? depth 1
        some (.advance (if depth = 0 then .closed else .bracket depth))
      else if c == '\'' || c == '"' then some (.advance (.quoted c depth))
      else some (.advance state)
  | .group depth =>
      if c == '(' then some (.advance (.group (depth + 1)))
      else if c == ')' then do
        let depth ← sub? depth 1
        some (.advance (if depth = 0 then .closed else .group depth))
      else some (.advance state)
  | .closed =>
      if c == '!' then some (.advance .done)
      else plainStep? text start stop separator i c ahead
  | .comment | .quoted _ _ | .done => some (Body.move ⟨separator, true⟩ state [] c ahead)

def findEnd? (text : String) (start stop : Nat) (separator : List Char) : Option Nat := do
  let text := octets text.toList
  let stop := min stop text.length
  let step := bodyStep? text start stop (octets separator)
  let (_, found) ← loop? step text stop stop .plain start
  some (found.getD stop)

private theorem closeBlock?_octets (cs : List Char) :
    Comment.closeBlock? (octets cs) =
      (Comment.closeBlock? cs).map fun (body, rest) => (octets body, octets rest) := by
  have narrow : ∀ c cs, ¬IsWide c →
      (!(c == '*' && (octets cs).head? == some '/')) = !(c == '*' && cs.head? == some '/') := by
    intro c cs _
    rw [head?_octets (by decide)]
  have wide : ∀ c (rest : List Char), IsWide c → (!(c == '*' && rest.head? == some '/')) = true := by
    intro c rest wide
    rw [beq_of_wide wide (by decide)]
    rfl
  have whole := splitRun_octets narrow wide cs
  have maximal := splitRun_maximal (fun c rest => !(c == '*' && rest.head? == some '/')) cs
  unfold Comment.closeBlock?
  rw [whole]
  generalize splitRun (fun c rest => !(c == '*' && rest.head? == some '/')) cs = parts at maximal ⊢
  obtain ⟨body, rest⟩ := parts
  cases rest with
  | nil => rfl
  | cons star rest =>
      have refused := maximal star rest rfl
      simp only [Bool.not_eq_false', Bool.and_eq_true, beq_iff_eq] at refused
      obtain ⟨rfl, ahead⟩ := refused
      obtain ⟨rest, rfl⟩ := List.head?_eq_some_iff.1 ahead
      have closing : octets ('*' :: '/' :: rest) = '*' :: '/' :: octets rest := by
        rw [octets_cons, octets_cons '/', octets_of_narrow (by decide), octets_of_narrow (by decide)]
        rfl
      have spelled : octets (body ++ ['*', '/']) = octets body ++ ['*', '/'] := by
        rw [octets_append, octets_cons, octets_of_narrow (by decide), octets_of_narrow (by decide)]
        rfl
      simp only [closing, spelled, Option.map_some]

theorem findBlockEnd?_eq {text : String} {start stop : Nat} {cs : List Char}
    (occurs : Occurs text.toList start cs) (stops : start + byteLength cs = stop) :
    findBlockEnd? text start stop =
      some ((Comment.closeBlock? cs).map fun (body, _) => start + byteLength body) := by
  have inText : stop ≤ (octets text.toList).length := by
    rw [length_octets, ← stops]
    exact occurs.stop_le
  unfold findBlockEnd?
  simp only [Nat.min_eq_left inText]
  rw [if_neg (by omega), octetsBetween?_occurs occurs stops]
  simp only [Option.bind_eq_bind, Option.bind_some, closeBlock?_octets, Option.map_map]
  congr 2
  funext parts
  exact congrArg (start + ·) (length_octets parts.1)

private theorem separated?_eq {text base kept rest separator : List Char}
    (whole : text = base ++ kept.reverse ++ rest) :
    (if (base.length + kept.length == base.length) = true then some true
      else if base.length + separator.length ≤ base.length + kept.length then do
        let first ← sub? (base.length + kept.length) separator.length
        let piece ← octetsBetween? text first (base.length + kept.length)
        some (piece == separator)
      else some false) = some (kept.isEmpty || separator.reverse.isPrefixOf kept) := by
  cases kept with
  | nil => rw [if_pos (by simp), List.isEmpty_nil, Bool.true_or]
  | cons previous kept =>
      rw [if_neg (by simp), List.isEmpty_cons, Bool.false_or]
      by_cases fits : separator.length ≤ (previous :: kept).length
      · generalize previous :: kept = passed at whole fits ⊢
        have split : passed.take separator.length ++ passed.drop separator.length = passed :=
          List.take_append_drop _ _
        have size : (passed.take separator.length).length = separator.length := by
          rw [List.length_take, Nat.min_eq_left fits]
        have parts : text = (base ++ (passed.drop separator.length).reverse) ++
            (passed.take separator.length).reverse ++ rest := by
          have reversed : passed.reverse = (passed.drop separator.length).reverse ++
              (passed.take separator.length).reverse := by
            rw [← List.reverse_append, split]
          rw [whole, reversed]
          simp
        have piece := octetsBetween?_eq (base ++ (passed.drop separator.length).reverse)
          (passed.take separator.length).reverse rest
        have first : (base ++ (passed.drop separator.length).reverse).length =
            base.length + passed.length - separator.length := by
          simp
          omega
        rw [← parts, List.length_reverse, size, first,
          Nat.sub_add_cancel (by omega : separator.length ≤ base.length + passed.length)] at piece
        rw [if_pos (by omega), sub?_eq (by omega)]
        simp only [Option.bind_eq_bind, Option.bind_some, piece]
        congr 1
        rw [Bool.eq_iff_iff, beq_iff_eq, List.isPrefixOf_iff_prefix, List.prefix_iff_eq_take,
          List.length_reverse, List.reverse_eq_iff, eq_comm]
      · rw [if_neg (by omega)]
        congr 1
        rw [eq_comm, Bool.eq_false_iff]
        intro isPrefix
        have short := (List.isPrefixOf_iff_prefix.1 isPrefix).length_le
        rw [List.length_reverse] at short
        exact fits short

private theorem opensGroup?_eq {text base before rest separator : List Char} {c : Char}
    (whole : text = base ++ before.reverse ++ c :: rest) :
    opensGroup? text base.length (base.length + before.length) separator =
      some (Body.opensGroup ⟨separator, true⟩ before) := by
  unfold opensGroup? Body.opensGroup
  cases before with
  | nil =>
      rw [if_neg (by simp)]
      exact separated?_eq whole
  | cons previous before =>
      have parts : text = (base ++ before.reverse) ++ previous :: c :: rest := by
        rw [whole]
        simp
      have place : base.length + (previous :: before).length - 1 =
          (base ++ before.reverse).length := by
        simp
      have here : text[(base ++ before.reverse).length]? = some previous := by
        rw [parts]
        exact getElem?_middle _ previous _
      rw [if_pos (by simp), sub?_eq (by simp; omega), place]
      simp only [Option.bind_eq_bind, Option.bind_some, here, List.head?_cons, List.tail_cons,
        Bool.true_and]
      by_cases marked : previous = '!'
      · subst marked
        simp only [beq_self_eq_true, if_true]
        rw [List.length_append, List.length_reverse]
        exact separated?_eq parts
      · have unmarked : (previous == '!') = false := beq_eq_false_iff_ne.2 marked
        have unmarkedHead : (some previous == some '!') = false := unmarked
        simp only [unmarked, unmarkedHead, Bool.false_eq_true, if_false]
        exact separated?_eq whole

private theorem plainStep?_eq {text base before rest separator : List Char} {c : Char}
    {ahead : Option Char} {stop : Nat} (whole : text = base ++ before.reverse ++ c :: rest)
    (inText : stop ≤ text.length)
    (inSight : ahead.isSome = true → base.length + before.length + 1 < stop) :
    plainStep? text base.length stop separator (base.length + before.length) c ahead =
      some (Body.movePlain ⟨separator, true⟩ before c ahead) := by
  unfold plainStep? Body.movePlain
  split
  · rfl
  · split
    · rfl
    · by_cases opener : c = '('
      · subst opener
        rw [opensGroup?_eq whole]
        simp only [beq_self_eq_true, if_true, Bool.true_and, Option.bind_eq_bind, Option.bind_some]
        cases Body.opensGroup ⟨separator, true⟩ before <;> rfl
      · have other : (c == '(') = false := beq_eq_false_iff_ne.2 opener
        simp only [other, Bool.false_eq_true, if_false, Bool.false_and]
        split
        · rfl
        · split
          next block =>
            obtain ⟨_, isStar⟩ := Bool.and_eq_true_iff.1 block
            have present : ahead.isSome = true := by
              rw [beq_iff_eq.1 isStar]
              rfl
            have room := inSight present
            unfold octetsBetween?
            rw [if_pos (by simp; omega)]
            rfl
          · rfl

private theorem steps_body {text base : List Char} {stop : Nat} (inText : stop ≤ text.length)
    (separator : List Char) :
    Steps (bodyStep? text base.length stop separator) (Body.move ⟨separator, true⟩) text base stop
      (fun state _ => state.IsCounted) where
  step_eq state before c rest ahead counted whole inSight := by
    cases state with
    | plain => exact plainStep?_eq whole inText inSight
    | comment => rfl
    | bracket depth =>
        have positive : 1 ≤ depth := counted
        have last : (depth - 1 = 0) = (depth ≤ 1) := propext (by omega)
        simp only [bodyStep?, Body.move, sub?_eq positive, Option.bind_eq_bind, Option.bind_some,
          last, apply_ite some]
    | quoted mark depth => rfl
    | group depth =>
        have positive : 1 ≤ depth := counted
        have last : (depth - 1 = 0) = (depth ≤ 1) := propext (by omega)
        simp only [bodyStep?, Body.move, sub?_eq positive, Option.bind_eq_bind, Option.bind_some,
          last, apply_ite some]
    | closed =>
        simp only [bodyStep?, Body.move, plainStep?_eq whole inText inSight]
        split <;> rfl
    | done => rfl
  advance state before c ahead next counted moved := Body.isCounted_of_move counted (Or.inl moved)
  skip state before c ahead next d counted moved := Body.isCounted_of_move counted (Or.inr moved)

/-- The loop goes over the octets between its two offsets, which may lie inside characters. -/
theorem findEnd?_octets {text : String} {start stop : Nat} (separator : List Char)
    (ordered : start ≤ stop) (inside : stop ≤ byteLength text.toList) :
    findEnd? text start stop separator =
      some (start + (Body.split (octets separator)
        (((octets text.toList).take stop).drop start)).1.length) := by
  have inText : stop ≤ (octets text.toList).length := by rwa [length_octets]
  have front : ((octets text.toList).take start).length = start := by
    rw [List.length_take]
    omega
  have size : (((octets text.toList).take stop).drop start).length = stop - start := by
    rw [List.length_drop, List.length_take]
    omega
  have parts : octets text.toList = (octets text.toList).take start ++ [].reverse ++
      ((octets text.toList).take stop).drop start ++ (octets text.toList).drop stop := by
    have before : (octets text.toList).take start = ((octets text.toList).take stop).take start := by
      rw [List.take_take, Nat.min_eq_left ordered]
    rw [List.reverse_nil, List.append_nil, before, List.take_append_drop, List.take_append_drop]
  have ended := loop?_eq
    (@steps_body _ ((octets text.toList).take start) _ inText (octets separator)) .plain [] _ trivial
    parts (by rw [front, size, List.length_nil]; omega) (Nat.le_refl _) inText
  rw [front, List.length_nil, Nat.add_zero, seen, if_neg (Nat.lt_irrefl _), sweepWithin_none] at ended
  have lengths := congrArg List.length (Body.split_append (octets separator)
    (((octets text.toList).take stop).drop start))
  rw [List.length_append, size] at lengths
  unfold findEnd?
  unfold Body.split at lengths ⊢
  simp only [Nat.min_eq_left inText, ended, Option.bind_eq_bind, Option.bind_some]
  generalize sweep (Body.move ⟨octets separator, true⟩) .plain [] _ = swept at lengths ⊢
  dsimp only at lengths ⊢
  congr 1
  split
  next atEnd =>
    rw [List.isEmpty_iff.1 atEnd, List.length_nil] at lengths
    rw [Option.getD_none]
    omega
  · rw [Option.getD_some]
    omega

theorem findEnd?_eq {text : String} {start stop : Nat} {cs : List Char} (separator : List Char)
    (occurs : Occurs text.toList start cs) (stops : start + byteLength cs = stop) :
    findEnd? text start stop separator =
      some (start + byteLength (Body.split separator cs).1) := by
  have window := octetsBetween?_occurs occurs stops
  unfold octetsBetween? at window
  split at window
  next =>
    rw [findEnd?_octets separator (by omega) (stops ▸ occurs.stop_le), Option.some.inj window,
      Body.split_octets, length_octets]
  · cases window

end Checked

end ClassExpr
