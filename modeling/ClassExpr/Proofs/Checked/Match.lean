import ClassExpr.Proofs.Bracket
import ClassExpr.Proofs.Checked.Loop

set_option autoImplicit false

/-! Matching of brackets on octets. A loop by index finds the closer where a sweep over characters
finds it, and never reads outside of the text. -/

namespace ClassExpr

open Text

private theorem isAsciiWord_of_wide {c : Char} (wide : IsWide c) : isAsciiWord c = false := by
  rw [Bool.eq_false_iff]
  intro word
  have bounds := toNat_of_isAsciiWord word
  unfold IsWide at wide
  omega

namespace Bracket

private theorem next_congr {before other : List Char} (same : before.head?.any isAsciiWord =
    other.head?.any isAsciiWord) (c : Char) (call : Call) :
    Call.next before c call = Call.next other c call := by
  cases call <;> simp only [Call.next, Call.next.start, same]

theorem move_congr {before other : List Char} {ahead next : Option Char}
    (sameBefore : before.head?.any isAsciiWord = other.head?.any isAsciiWord)
    (sameAhead : SameAhead ahead next) (pair : Pair) (state : State) (c : Char) :
    move pair state before c next = move pair state other c ahead := by
  simp only [move, moveCode, next_congr sameBefore, sameAhead '/' (by decide),
    sameAhead '*' (by decide)]

def Mode.IsMarked : Mode → Prop
  | .quoted mark => isQuote mark = true
  | _ => True

private theorem narrow_of_isQuote {mark : Char} (quote : isQuote mark = true) : ¬IsWide mark := by
  simp only [isQuote, Bool.or_eq_true, beq_iff_eq] at quote
  rcases quote with rfl | rfl
  · decide
  · decide

theorem isMarked_of_move {pair : Pair} {state next : State} {before : List Char} {c : Char}
    {ahead : Option Char} (marked : state.mode.IsMarked)
    (moved : move pair state before c ahead = .advance next ∨
      move pair state before c ahead = .skip next) : next.mode.IsMarked := by
  obtain ⟨mode, call, depth⟩ := state
  cases mode with
  | quoted mark => grind [move, Mode.IsMarked]
  | lineComment => grind [move, Mode.IsMarked]
  | blockComment => grind [move, Mode.IsMarked]
  | code => grind [move, moveCode, Mode.IsMarked]

/-- A wide character is passed as an idle one, and ends a call that has only begun. -/
def idle (state : State) : State :=
  if state.mode = .code ∧ state.call ≠ .argument then { state with call := .none } else state

theorem move_wide {pair : Pair} (known : pair.IsKnown) {state : State} (marked : state.mode.IsMarked)
    {c : Char} (wide : IsWide c) (before : List Char) (ahead : Option Char) :
    move pair state before c ahead = .advance (idle state) := by
  have other : ∀ {d : Char}, ¬IsWide d → (c == d) = false := beq_of_wide wide
  have opener : (c == pair.opener) = false := by
    rcases known with rfl | rfl
    · exact other (by decide)
    · exact other (by decide)
  have closer : (c == pair.closer) = false := by
    rcases known with rfl | rfl
    · exact other (by decide)
    · exact other (by decide)
  obtain ⟨mode, call, depth⟩ := state
  cases mode with
  | quoted mark =>
      have notMark := other (narrow_of_isQuote marked)
      simp (disch := decide) [move, idle, other, notMark]
  | lineComment => simp (disch := decide) [move, idle, other]
  | blockComment => simp (disch := decide) [move, idle, other]
  | code =>
      cases call <;> simp (disch := decide) [move, moveCode, idle, isQuote, Call.next, Call.next.start, other,
        opener, closer]

private theorem idle_idle (state : State) : idle (idle state) = idle state := by
  by_cases idling : state.mode = .code ∧ state.call ≠ .argument
  · simp [idle, idling]
  · have same : idle state = state := if_neg idling
    rw [same, same]

theorem idle_of_skip {pair : Pair} {state next : State} {before : List Char} {c d : Char}
    (wide : IsWide d) (moved : move pair state before c (some d) = .skip next) :
    idle next = next := by
  have slash : (some d == some '/') = false := beq_of_wide wide (by decide)
  have star : (some d == some '*') = false := beq_of_wide wide (by decide)
  obtain ⟨mode, call, depth⟩ := state
  cases mode with
  | quoted mark =>
      simp only [move] at moved
      split at moved
      · cases moved
        rfl
      · split at moved <;> cases moved
  | lineComment =>
      simp only [move] at moved
      split at moved <;> cases moved
  | blockComment =>
      simp only [move, slash, Bool.and_false] at moved
      cases moved
  | code =>
      simp only [move, moveCode, slash, star, Bool.and_false] at moved
      grind

theorem octetwise_move {pair : Pair} (known : pair.IsKnown) :
    Octetwise (move pair) (move pair) (fun state => state.mode.IsMarked) where
  narrow state before c ahead octet _ same := move_congr (any_back (fun _ => isAsciiWord_of_wide) before) same pair state c
  skipped state before c next d marked moved wide octet wideOctet front ahead := by
    have passed := move_wide known (isMarked_of_move marked (Or.inr moved)) wideOctet front ahead
    rw [passed, idle_of_skip wide moved]
  wide state before c ahead marked wide := by
    refine Or.inr ⟨idle state, move_wide known marked wide before ahead, ?_⟩
    intro octet wideOctet front other
    have first := move_wide known marked wideOctet front other
    have again := move_wide known (isMarked_of_move marked (Or.inl first)) wideOctet front other
    rw [idle_idle] at again
    exact ⟨first, again⟩
  good state before c ahead next marked moved := isMarked_of_move marked moved

end Bracket

namespace Checked

/-- Reads the octet before an index for the start of a call. -/
def matchStep? (pair : Bracket.Pair) (text : List Char) (state : Bracket.State) (i : Nat) (c : Char)
    (ahead : Option Char) : Option (Move Bracket.State) := do
  let previous ← if 0 < i then do
      let before ← sub? i 1
      text[before]?.map some
    else some none
  some (Bracket.move pair state previous.toList c ahead)

def findMatch? (text : String) (opener stop : Nat) (pair : Bracket.Pair) : Option (Option Nat) :=
  let text := octets text.toList
  let stop := min stop text.length
  if stop ≤ opener then some none
  else do
    let c ← text[opener]?
    if c != pair.opener then some none
    else do
      let (_, found) ← loop? (matchStep? pair text) text stop stop .initial opener
      some found

private theorem steps_match (pair : Bracket.Pair) (text base : List Char) (sight : Nat) :
    Steps (matchStep? pair text) (Bracket.move pair) text base sight
      (fun _ before => before ≠ []) where
  step_eq state before c rest ahead passed whole _ := by
    cases before with
    | nil => exact absurd rfl passed
    | cons previous before =>
        have place : text[base.length + (previous :: before).length - 1]? = some previous := by
          have parts : text = (base ++ before.reverse) ++ previous :: c :: rest := by
            rw [whole]
            simp
          have at_index : base.length + (previous :: before).length - 1 =
              (base ++ before.reverse).length := by
            simp
          rw [at_index, parts]
          exact getElem?_middle _ previous _
        unfold matchStep?
        rw [if_pos (by rw [List.length_cons]; omega), sub?_eq (by rw [List.length_cons]; omega)]
        simp only [Option.bind_eq_bind, Option.bind_some, place, Option.map_some]
        exact congrArg some (Bracket.move_congr rfl (fun _ _ => rfl) pair state c)
  advance _ _ _ _ _ _ _ := by simp
  skip _ _ _ _ _ _ _ _ := by simp

private theorem matchStep?_opener {pair : Bracket.Pair} (known : pair.IsKnown)
    (front rest : List Char)
    (ahead : Option Char) :
    matchStep? pair (front ++ pair.opener :: rest) .initial front.length pair.opener ahead =
      some (.advance ⟨.code, .none, 1⟩) := by
  unfold matchStep?
  rcases List.eq_nil_or_concat front with rfl | ⟨shorter, previous, rfl⟩
  · exact congrArg some (Bracket.move_opener known [] ahead)
  · have place : ((shorter ++ [previous]) ++ pair.opener :: rest)[shorter.length]? =
        some previous := by
      rw [List.append_assoc]
      exact getElem?_middle shorter previous _
    rw [List.concat_eq_append, List.length_append, List.length_singleton,
      if_pos (Nat.succ_pos _), sub?_eq (Nat.le_add_left 1 _)]
    simp only [Option.bind_eq_bind, Option.bind_some, Nat.add_sub_cancel, place, Option.map_some]
    exact congrArg some (Bracket.move_opener known _ ahead)

/-- From an opener on the loop ends as the sweep behind the opener ends. -/
theorem loop?_match {pair : Bracket.Pair} (known : pair.IsKnown) {text front cs behind : List Char}
    {stop : Nat} (whole : text = front ++ pair.opener :: cs ++ behind)
    (stops : front.length + 1 + cs.length = stop) :
    loop? (matchStep? pair text) text stop stop .initial front.length =
      let swept := sweepWithin (Bracket.move pair) none ⟨.code, .none, 1⟩ [pair.opener] cs
      some (swept.state, if swept.rest.isEmpty then none else some (stop - swept.rest.length)) := by
  have inText : stop ≤ text.length := by
    rw [whole, ← stops]
    simp
    omega
  have unseen : seen stop stop behind = none := if_neg (Nat.lt_irrefl stop)
  have here : text[front.length]? = some pair.opener := by
    rw [whole, List.append_assoc]
    exact getElem?_middle _ _ _
  have ahead := @ahead?_eq front cs behind pair.opener stop (by simp; omega)
    (by rw [← whole]; exact inText)
  rw [← whole] at ahead
  have first := matchStep?_opener known front (cs ++ behind)
    (cs.head?.or (seen (front.length + (pair.opener :: cs).length) stop behind))
  rw [← List.cons_append, ← List.append_assoc, ← whole] at first
  have parts : text = front ++ [pair.opener].reverse ++ cs ++ behind := by
    rw [whole]
    simp
  have rest := loop?_eq (steps_match pair text front stop) ⟨.code, .none, 1⟩ [pair.opener] cs (by simp)
    parts (show front.length + [pair.opener].length + cs.length = stop from stops)
    (Nat.le_refl _) inText
  rw [unseen] at rest
  rw [loop?, if_pos (by omega), here]
  simp only [Option.bind_eq_bind, Option.bind_some, ahead, first]
  exact rest

private theorem findMatch?_eq {text : String} {opener stop : Nat} {cs : List Char}
    (pair : Bracket.Pair)
    (known : pair.IsKnown) (occurs : Occurs text.toList opener (pair.opener :: cs))
    (stops : opener + byteLength (pair.opener :: cs) = stop) :
    findMatch? text opener stop pair =
      some ((Bracket.split? pair [] (pair.opener :: cs)).map
        fun (content, _) => opener + byteLength content) := by
  subst stops
  have narrow : ¬IsWide pair.opener := by
    rcases known with rfl | rfl
    · decide
    · decide
  have one : byteLength [pair.opener] = 1 := by
    rw [← length_octets, octets_of_narrow narrow]
    rfl
  have size : byteLength (pair.opener :: cs) = 1 + byteLength cs := by
    rw [← one, ← byteLength_append]
    rfl
  obtain ⟨before, after, whole, place⟩ := occurs
  have start : (octets before).length = opener := by rw [length_octets, place]
  have parts : octets text.toList =
      octets before ++ pair.opener :: octets cs ++ octets after := by
    rw [whole, octets_append, octets_append, octets_cons, octets_of_narrow narrow]
    rfl
  have inText : opener + byteLength (pair.opener :: cs) ≤ (octets text.toList).length := by
    rw [parts, size]
    simp only [List.length_append, List.length_cons, length_octets]
    omega
  have here : (octets text.toList)[opener]? = some pair.opener := by
    rw [parts, ← start, List.append_assoc]
    exact getElem?_middle _ _ _
  have ended := loop?_match known parts
    (show (octets before).length + 1 + (octets cs).length =
      opener + byteLength (pair.opener :: cs) by rw [start, length_octets, size]; omega)
  -- the sweep over characters passes as many bytes as the loop passes octets
  have passed : back [pair.opener] = [pair.opener] := by
    rw [back_cons, octets_of_narrow narrow]
    rfl
  have same := sweepWithin_octets (Bracket.octetwise_move known) (fun _ _ => rfl : SameAhead none none)
    ⟨.code, .none, 1⟩ [pair.opener] cs trivial
  rw [passed, sweepWithin_none (Bracket.move pair) _ _ cs] at same
  rw [same, start] at ended
  have lengths := congrArg byteLength
    (sweep_append (Bracket.move pair) ⟨.code, .none, 1⟩ [pair.opener] cs)
  rw [Bracket.split?_eq known]
  unfold findMatch?
  simp only [Nat.min_eq_left inText]
  rw [if_neg (by omega), here]
  simp only [Option.bind_eq_bind, Option.bind_some, bne_self_eq_false, Bool.false_eq_true, if_false,
    ended, isEmpty_octets, length_octets]
  generalize sweep (Bracket.move pair) ⟨.code, .none, 1⟩ [pair.opener] cs = swept at lengths ⊢
  rw [byteLength_append, byteLength_append] at lengths
  split
  · rfl
  · simp only [List.length_nil, Nat.sub_zero, List.take_length, Option.map_some]
    congr 2
    rw [size]
    rw [List.reverse_singleton, one] at lengths
    omega

theorem findMatch?_parens {text : String} {opener stop : Nat} {cs : List Char}
    (occurs : Occurs text.toList opener ('(' :: cs))
    (stops : opener + byteLength ('(' :: cs) = stop) :
    findMatch? text opener stop .parens =
      some ((Bracket.split? .parens [] ('(' :: cs)).map
        fun (content, _) => opener + byteLength content) :=
  findMatch?_eq .parens (Or.inl rfl) occurs stops

theorem findMatch?_square {text : String} {opener stop : Nat} {cs : List Char}
    (occurs : Occurs text.toList opener ('[' :: cs))
    (stops : opener + byteLength ('[' :: cs) = stop) :
    findMatch? text opener stop .square =
      some ((Bracket.split? .square [] ('[' :: cs)).map
        fun (content, _) => opener + byteLength content) :=
  findMatch?_eq .square (Or.inr rfl) occurs stops

end Checked

end ClassExpr
