import ClassExpr.Proofs.Checked.Extent
import ClassExpr.Proofs.Matching.Window

set_option autoImplicit false

/-! The window in which the end of a body is looked for, octet by octet. An end of the window may
lie inside a character. The octets of this character in the window are passed like those of a whole
one, so the search splits the octets of the window as a body splits characters. Where a body ends is
settled by its octets and by two more, so it ends in the same place in every window that holds
these. -/

namespace ClassExpr.Body

open Text

section

variable {rule : Rule} {others : List Char} (wide : ∀ octet ∈ others, IsWide octet)
include wide

private theorem sameAhead_append_wide (cs : List Char) :
    SameAhead cs.head? (cs ++ others).head? := by
  intro mark narrow
  cases cs with
  | cons c cs => rfl
  | nil =>
      cases others with
      | nil => rfl
      | cons octet others => exact beq_of_wide (wide octet List.mem_cons_self) narrow

private theorem move_append_wide (state : State) (before : List Char) (c : Char) (cs : List Char) :
    move rule state before c (cs ++ others).head? = move rule state before c cs.head? := by
  have same := sameAhead_append_wide wide cs
  simp only [move, movePlain, same '/' (by decide), same '*' (by decide)]

/-- Octets of a character that is cut off do not end a body. -/
theorem rest_wide {state : State} (marked : state.IsMarked) (going : state ≠ .done)
    (before : List Char) : (sweep (move rule) state before others).rest = [] := by
  induction others generalizing state before with
  | nil => rfl
  | cons octet others ih =>
      have moved := @move_wide rule _ marked going _ (wide octet List.mem_cons_self) before others.head?
      rw [sweep_cons_advance (move rule) moved]
      exact ih (fun other member => wide other (List.mem_cons_of_mem octet member))
        (isMarked_of_move marked (Or.inl moved)) (idle_ne_done going) _

end

private theorem ne_done_of_skip {rule : Rule} {state next : State} {before : List Char} {c : Char}
    {ahead : Option Char} (moved : move rule state before c ahead = .skip next) : next ≠ .done := by
  cases state with
  | plain => grind [move, movePlain]
  | comment => grind [move]
  | bracket depth => grind [move]
  | quoted mark depth => grind [move]
  | group depth => grind [move]
  | closed => grind [move, movePlain]
  | done => grind [move]

private theorem rest_append_wide (rule : Rule) {others : List Char}
    (wide : ∀ octet ∈ others, IsWide octet)
    {state : State} (marked : state.IsMarked) (before cs : List Char) :
    (sweep (move rule) state before (cs ++ others)).rest =
      let swept := sweep (move rule) state before cs
      if swept.rest.isEmpty && swept.state != .done then [] else swept.rest ++ others := by
  fun_induction sweep (move rule) state before cs with
  | case1 state before =>
      by_cases done : state = .done
      · subst done
        cases others <;> rfl
      · simp [rest_wide wide marked done, done]
  | case2 state before c cs halted =>
      rw [← move_append_wide wide] at halted
      rw [List.cons_append, sweep_cons_halt (move rule) halted]
      rfl
  | case3 state before c cs next moved ih =>
      have again := moved
      rw [← move_append_wide wide] at again
      rw [List.cons_append, sweep_cons_advance (move rule) again]
      exact ih (isMarked_of_move marked (Or.inl moved))
  | case4 state before c next moved =>
      have again := moved
      rw [← move_append_wide wide] at again
      have going := ne_done_of_skip moved
      have stays := isMarked_of_move marked (Or.inr moved)
      rw [List.cons_append, sweep_cons, again]
      cases others with
      | nil => simp [going]
      | cons octet others =>
          have passed := @rest_wide rule others
            (fun other member => wide other (List.mem_cons_of_mem octet member)) next stays going
          simp [going, passed]
  | case5 state before c next d rest moved ih =>
      have again := moved
      rw [← move_append_wide wide] at again
      rw [List.cons_append] at again
      rw [List.cons_append, List.cons_append, sweep_cons_skip (move rule) again]
      exact ih (isMarked_of_move marked (Or.inr moved))

private theorem split_snd_octets (separator : List Char) {window others : List Char} (start : Nat)
    (wide : ∀ octet ∈ others, IsWide octet) :
    (split (octets separator) ((octets window ++ others).drop start)).2 =
      let body := dropBefore start window
      let aligned := byteLength window - byteLength body == start
      let swept := sweep (move ⟨separator, aligned⟩) .plain [] body
      if swept.rest.isEmpty && swept.state != .done then [] else octets swept.rest ++ others := by
  have begun : State.plain.IsMarked := trivial
  dsimp only
  rcases Nat.lt_or_ge (byteLength window) start with past | within
  · rw [dropBefore_of_le (Nat.le_of_lt past), List.drop_append,
      List.drop_of_length_le (by rw [length_octets]; omega), List.nil_append]
    exact rest_wide (fun octet member => wide octet (List.mem_of_mem_drop member)) begun (by simp) []
  · obtain ⟨front, remnant, dropped⟩ := drop_octets within
    have sizes := congrArg List.length dropped
    rw [List.length_drop, List.length_append, length_octets, length_octets] at sizes
    have aligned : (byteLength window - byteLength (dropBefore start window) == start) =
        front.isEmpty := by
      rw [Bool.eq_iff_iff, beq_iff_eq, List.isEmpty_iff_length_eq_zero]
      omega
    rw [List.drop_append_of_le_length (by rwa [length_octets]), dropped, aligned, List.append_assoc]
    generalize dropBefore start window = body
    -- the octets in front of the body leave the sweep where it is, so they are only seen behind it
    have stays : ∀ octet ∈ front, ∀ before ahead,
        move ⟨octets separator, true⟩ .plain before octet ahead = .advance .plain :=
      fun octet member => move_wide begun (by simp) (remnant.wide octet member)
    have passes := @sweepWithin_wide _ _ none _ _ stays [] (octets body ++ others)
    rw [sweepWithin_none, sweepWithin_none, List.append_nil] at passes
    have framed := sweep_behind (move ⟨octets separator, true⟩) front.reverse .plain [] (octets body)
    have same := sweepWithin_octets (octetwise_move_behind separator remnant)
      (fun _ _ => rfl : SameAhead none none) .plain [] body trivial
    rw [back_nil, sweepWithin_none, sweepWithin_none] at same
    rw [List.nil_append, same] at framed
    unfold split
    simp only [passes, rest_append_wide _ wide begun, framed, isEmpty_octets]

private theorem findEnd_octets {text : String} {start stop : Nat} (separator : String)
    (ordered : start ≤ stop) (inside : stop ≤ byteLength text.toList) :
    findEnd text start stop separator =
      start + (split (octets separator.toList)
        (((octets text.toList).take stop).drop start)).1.length := by
  obtain ⟨others, taken, wide⟩ := take_octets text.toList stop
  have sizes := congrArg List.length taken
  rw [List.length_take, List.length_append, length_octets, length_octets,
    Nat.min_eq_left inside] at sizes
  unfold findEnd
  dsimp only
  rw [taken]
  generalize (splitBytes stop text.toList).1 = window at sizes ⊢
  have lengths := congrArg List.length (split_append (octets separator.toList)
    ((octets window ++ others).drop start))
  rw [List.length_append, List.length_drop, List.length_append, length_octets,
    split_snd_octets separator.toList start wide] at lengths
  dsimp only at lengths ⊢
  generalize sweep (move ⟨separator.toList, _⟩) .plain [] _ = swept at lengths ⊢
  split
  next ended =>
    rw [if_pos ended, List.length_nil] at lengths
    omega
  next stopped =>
    rw [if_neg stopped, List.length_append, length_octets] at lengths
    omega

/-- A body that ends inside its window ends there in a longer or shorter one as well, if that goes
on behind the octet at its end: a line comment is told by two. -/
theorem split_take {separator cs : List Char} {bound later : Nat}
    (ends : (split separator (cs.take bound)).1.length < (cs.take bound).length)
    (further : (split separator (cs.take bound)).1.length + 1 < later) :
    (split separator (cs.take later)).1 = (split separator (cs.take bound)).1 := by
  have whole := split_append separator (cs.take bound)
  cases splitAt : split separator (cs.take bound) with
  | mk body rest =>
      rw [splitAt] at ends further whole
      dsimp only at ends further whole ⊢
      obtain ⟨d, rest, rfl⟩ := List.exists_cons_of_ne_nil (l := rest) (by
        rintro rfl
        rw [← whole, List.append_nil] at ends
        exact absurd ends (Nat.lt_irrefl _))
      obtain ⟨behind, parts⟩ := List.take_prefix bound cs
      rw [← whole] at splitAt parts
      obtain ⟨size, rfl⟩ := Nat.exists_eq_add_of_lt further
      have longer : cs.take (body.length + 1 + size + 1) =
          body ++ d :: (rest ++ behind).take (size + 1) := by
        rw [← parts, List.append_assoc, List.cons_append, Nat.add_assoc, Nat.add_assoc,
          List.take_length_add_append, Nat.add_comm 1, List.take_succ_cons]
      rw [longer, split_ahead splitAt]
      intro _ line
      obtain ⟨rest, rfl⟩ := List.head?_eq_some_iff.1 line
      rfl

/-- A search between two offsets ends between them, between two characters if it is one between two
characters, and where every search ends that goes on further. Its loop on octets takes no step that
fails, so a bracket or a group is open wherever its depth is counted down. -/
theorem findEnd_stable {text separator : String} {start stop : Nat} (ordered : start ≤ stop)
    (inside : stop ≤ text.utf8ByteSize) :
    let reached := findEnd text start stop separator
    start ≤ reached ∧ reached ≤ stop ∧
      (isBoundary text.toList start = true → isBoundary text.toList stop = true →
        isBoundary text.toList reached = true) ∧
      (reached < stop → ∀ later, reached + 1 < later → later ≤ text.utf8ByteSize →
        findEnd text start later separator = reached) ∧
      Checked.findEnd? text start stop separator.toList = some reached := by
  rw [← byteLength_toList] at inside ⊢
  have size : (((octets text.toList).take stop).drop start).length = stop - start := by
    rw [List.length_drop, List.length_take, length_octets, Nat.min_eq_left inside]
  have lengths := congrArg List.length (split_append (octets separator.toList)
    (((octets text.toList).take stop).drop start))
  rw [List.length_append, size] at lengths
  have ended := findEnd_octets separator ordered inside
  refine ⟨by omega, by omega, ?_, ?_, ?_⟩
  · intro first last
    obtain ⟨occurs, stops⟩ := occurs_between ordered first last
    have ends := findEnd_eq separator occurs
    rw [← split_append separator.toList (between start stop text.toList)] at occurs
    rw [stops] at ends
    rw [ends]
    exact occurs.left.stop_isBoundary
  · intro earlier later further inText
    rw [ended] at earlier further ⊢
    rw [findEnd_octets separator (by omega) inText]
    rw [List.drop_take] at size earlier further ⊢
    rw [List.drop_take, @split_take _ _ (stop - start) (later - start) (by omega) (by omega)]
  · rw [Checked.findEnd?_octets separator.toList ordered inside, ended]

/-- A bound inside the character behind a body with brackets, a string and a group in a group. -/
theorem findEnd_stable_nested :
    findEnd "[é \"]\"]x:(y (é))! é" 0 21 ":" = 19 ∧
      findEnd "[é \"]\"]x:(y (é))! é" 0 22 ":" = 19 ∧
      Checked.findEnd? "[é \"]\"]x:(y (é))! é" 0 21 [':'] = some 19 := by
  have ends : findEnd "[é \"]\"]x:(y (é))! é" 0 21 ":" = 19 := by decide
  obtain ⟨_, _, _, stable, checked⟩ :=
    @findEnd_stable "[é \"]\"]x:(y (é))! é" ":" 0 21 (by decide) (by decide)
  rw [ends] at stable checked
  exact ⟨ends, stable (by decide) 22 (by decide) (by decide), checked⟩

end ClassExpr.Body
