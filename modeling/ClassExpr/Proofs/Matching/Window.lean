import ClassExpr.Proofs.Checked.Match
import ClassExpr.Proofs.Typing.Lookahead

set_option autoImplicit false

/-! The window that a search for a closer looks at, octet by octet. Where a search ends is settled
by what it has passed, so a smaller window only cuts it off: it finds the same closer, or none if
the closer lies behind its end. -/

namespace ClassExpr

open Text

namespace Text

/-- A budget that ends inside a character leaves octets of this character only. -/
theorem take_octets (cs : List Char) (budget : Nat) :
    ∃ others, (octets cs).take budget = octets (splitBytes budget cs).1 ++ others ∧
      ∀ octet ∈ others, IsWide octet := by
  induction cs generalizing budget with
  | nil => exact ⟨[], by simp, by simp⟩
  | cons c cs ih =>
      have size : (octets [c]).length = c.utf8Size := by
        rw [length_octets]
        simp
      rw [splitBytes_cons, octets_cons]
      by_cases fits : c.utf8Size ≤ budget
      · obtain ⟨others, taken, wide⟩ := ih (budget - c.utf8Size)
        refine ⟨others, ?_, wide⟩
        rw [if_pos fits, List.take_append, size, List.take_of_length_le (by omega), taken,
          ← List.append_assoc, ← octets_append]
        rfl
      · refine ⟨(octets [c]).take budget, ?_, ?_⟩
        · rw [if_neg fits, List.take_append_of_le_length (by omega)]
          rfl
        · intro octet member
          by_cases wide : IsWide c
          · exact wide_of_mem_octets wide (List.mem_of_mem_take member)
          · have one : c.utf8Size = 1 := by
              rw [← size, octets_of_narrow wide]
              rfl
            have nothing : budget = 0 := by omega
            rw [nothing] at member
            simp at member

private theorem exists_of_getElem?_octets {cs others : List Char}
    (wide : ∀ octet ∈ others, IsWide octet)
    {c : Char} (narrow : ¬IsWide c) {i : Nat} (found : (octets cs ++ others)[i]? = some c) :
    ∃ front rest, cs = front ++ c :: rest ∧ byteLength front = i := by
  induction cs generalizing i with
  | nil => exact absurd (wide c (List.mem_of_getElem? found)) narrow
  | cons d cs ih =>
      have size : (octets [d]).length = d.utf8Size := by
        rw [length_octets]
        simp
      rw [octets_cons, List.append_assoc] at found
      by_cases inside : i < d.utf8Size
      · rw [List.getElem?_append_left (by omega)] at found
        have member := List.mem_of_getElem? found
        by_cases wideChar : IsWide d
        · exact absurd (wide_of_mem_octets wideChar member) narrow
        · rw [octets_of_narrow wideChar] at size member
          have first : i = 0 := by
            rw [List.length_singleton] at size
            omega
          exact ⟨[], cs, by rw [List.mem_singleton.1 member]; rfl, first.symm⟩
      · rw [List.getElem?_append_right (by omega), size] at found
        obtain ⟨front, rest, rfl, place⟩ := ih found
        exact ⟨d :: front, rest, rfl, by rw [byteLength_cons]; omega⟩

end Text

namespace Bracket

variable {pair : Pair}

private theorem narrow_brackets (known : pair.IsKnown) :
    ¬IsWide pair.opener ∧ ¬IsWide pair.closer := by
  rcases known with rfl | rfl <;> decide

private theorem rest_congr {before other : List Char}
    (same : before.head?.any isAsciiWord = other.head?.any isAsciiWord) (state : State)
    (cs : List Char) :
    (sweep (move pair) state before cs).rest = (sweep (move pair) state other cs).rest := by
  have alike : ∀ state c ahead, move pair state before c ahead = move pair state other c ahead :=
    fun state c ahead => move_congr same (fun _ _ => rfl) pair state c
  fun_induction sweep (move pair) state before cs generalizing other with
  | case1 => rfl
  | case2 state before c cs halted => rw [sweep_cons, ← alike, halted]
  | case3 state before c cs next moved ih =>
      rw [sweep_cons, ← alike, moved]
      exact ih (by rfl) fun state d ahead => move_congr (by rfl) (fun _ _ => rfl) pair state d
  | case4 state before c next moved => rw [sweep_cons, ← alike, moved]
  | case5 state before c next d rest moved ih =>
      rw [sweep_cons, ← alike, moved]
      exact ih (by rfl) fun state e ahead => move_congr (by rfl) (fun _ _ => rfl) pair state e

/-- Where a search ends in front of `right`, it ends whatever stands there. -/
theorem rest_other (known : pair.IsKnown) {state : State} {before left right shorter : List Char}
    {c : Char} (halts : (sweep (move pair) state before (left ++ right)).rest =
      c :: (shorter ++ right)) (other : List Char) :
    (sweep (move pair) state before (left ++ other)).rest = c :: (shorter ++ other) := by
  obtain ⟨passed, _, whole⟩ := sweep_passed (move pair) state before (left ++ right)
  have closing := (move_eq_halt (sweep_halts (move pair) state before (left ++ right) halts)).1
  rw [halts] at whole
  have parts : left = passed.reverse ++ c :: shorter :=
    @List.append_cancel_right _ left right (passed.reverse ++ c :: shorter) (by simpa using whole)
  rw [parts, List.append_assoc, List.cons_append] at halts
  have ahead := @sweep_halt_ahead _ (move pair) state before passed.reverse (shorter ++ right)
    (shorter ++ other) c halts
    (by intro state before halted; rw [closing] at halted ⊢; rwa [← move_closer_ahead known])
  rw [parts, List.append_assoc, List.cons_append, ahead]

def closerIn? (pair : Pair) (window : List Char) : Option Nat :=
  let rest := (sweep (move pair) .initial [] window).rest
  if window.head? = some pair.opener ∧ rest ≠ [] then some (window.length - rest.length) else none

private theorem closerIn?_eq_some_iff {window : List Char} {i : Nat} :
    closerIn? pair window = some i ↔ window.head? = some pair.opener ∧
      ∃ c after, (sweep (move pair) .initial [] window).rest = c :: after ∧
        i + (after.length + 1) = window.length := by
  obtain ⟨passed, _, whole⟩ := sweep_passed (move pair) .initial [] window
  have size := congrArg List.length whole
  rw [List.length_append] at size
  unfold closerIn?
  generalize (sweep (move pair) .initial [] window).rest = rest at size ⊢
  cases rest with
  | nil => simp
  | cons c after =>
      rw [List.length_cons] at size
      by_cases opens : window.head? = some pair.opener
      · simp only [opens, true_and, ne_eq, reduceCtorEq, not_false_eq_true, if_true,
          Option.some.injEq, List.length_cons, List.cons.injEq]
        constructor
        · rintro rfl
          exact ⟨c, after, ⟨rfl, rfl⟩, by omega⟩
        · rintro ⟨_, _, ⟨rfl, rfl⟩, place⟩
          omega
      · simp [opens]

private theorem closerIn?_take (known : pair.IsKnown) (window : List Char) (bound i : Nat) :
    closerIn? pair (window.take bound) = some i ↔ i < bound ∧ closerIn? pair window = some i := by
  have whole := List.take_append_drop bound window
  generalize leftAt : window.take bound = left at whole
  generalize window.drop bound = right at whole
  have short : left.length ≤ bound := by
    rw [← leftAt]
    exact List.length_take_le _ _
  have cut : i < bound → i < window.length → i < left.length := by
    intro below inside
    rw [← leftAt, List.length_take]
    omega
  rw [closerIn?_eq_some_iff, closerIn?_eq_some_iff]
  constructor
  · rintro ⟨opens, c, after, halts, place⟩
    have longer := @rest_other pair known .initial [] left [] after c (by simpa using halts) right
    refine ⟨by omega, ?_, c, after ++ right, by rw [← whole]; exact longer, ?_⟩
    · rw [← whole, List.head?_append, opens]
      rfl
    · rw [← whole, List.length_append, List.length_append]
      omega
  · rintro ⟨below, opens, c, after, halts, place⟩
    have inside := cut below (by omega)
    have size := congrArg List.length whole
    rw [List.length_append] at size
    -- the window ends behind the closer, so what is behind the closer goes to the end of both
    obtain ⟨shorter, rfl⟩ : ∃ shorter, after = shorter ++ right := by
      obtain ⟨passed, _, parts⟩ := sweep_passed (move pair) .initial [] window
      rw [halts, ← whole] at parts
      have suffix : right <:+ passed.reverse ++ c :: after := ⟨left, parts⟩
      have other : after <:+ passed.reverse ++ c :: after := ⟨passed.reverse ++ [c], by simp⟩
      obtain ⟨shorter, same⟩ := List.suffix_of_suffix_length_le suffix other (by omega)
      exact ⟨shorter, same.symm⟩
    rw [← whole] at halts
    have cutOff := rest_other known halts []
    rw [List.append_nil, List.append_nil] at cutOff
    refine ⟨?_, c, shorter, cutOff, ?_⟩
    · cases left with
      | nil => simp at inside
      | cons d left =>
          rw [← whole] at opens
          simpa using opens
    · rw [List.length_append] at place
      omega

private theorem getElem?_of_closerIn? {window : List Char} {i : Nat}
    (found : closerIn? pair window = some i) : window[i]? = some pair.closer := by
  obtain ⟨_, c, after, halts, place⟩ := closerIn?_eq_some_iff.1 found
  obtain ⟨passed, _, whole⟩ := sweep_passed (move pair) .initial [] window
  have closing := (move_eq_halt (sweep_halts (move pair) .initial [] window halts)).1
  rw [halts] at whole
  have size := congrArg List.length whole
  rw [List.length_append, List.length_cons] at size
  rw [whole, List.getElem?_append_right (by omega), closing,
    show i - passed.reverse.length = 0 by omega]
  rfl

private theorem closerIn?_append_wide (known : pair.IsKnown) {others : List Char}
    (wide : ∀ octet ∈ others, IsWide octet) (window : List Char) :
    closerIn? pair (window ++ others) = closerIn? pair window := by
  apply Option.ext
  intro i
  have bounded := closerIn?_take known (window ++ others) window.length i
  rw [List.take_left] at bounded
  rw [bounded]
  refine ⟨fun found => ⟨?_, found⟩, And.right⟩
  rcases Nat.lt_or_ge i window.length with inside | outside
  · exact inside
  · have closer := getElem?_of_closerIn? found
    rw [List.getElem?_append_right outside] at closer
    exact absurd (wide _ (List.mem_of_getElem? closer)) (narrow_brackets known).2

/-- The octets of a text are searched as its characters are, whatever stands in front of them. -/
theorem closerIn?_octets (known : pair.IsKnown) (before cs : List Char) :
    closerIn? pair (octets (pair.opener :: cs)) =
      (split? pair before (pair.opener :: cs)).map
        fun (_, rest) => byteLength (pair.opener :: cs) - byteLength rest := by
  have narrow := (narrow_brackets known).1
  have opens : (octets (pair.opener :: cs)).head? = some pair.opener := by
    rw [octets_cons, octets_of_narrow narrow]
    rfl
  have same := sweepWithin_octets (octetwise_move known) (fun _ _ => rfl : SameAhead none none)
    .initial [] (pair.opener :: cs) trivial
  rw [back_nil, sweepWithin_none (move pair) .initial [], sweepWithin_none (move pair)] at same
  have anywhere : (sweep (move pair) .initial [] (pair.opener :: cs)).rest =
      (sweep (move pair) .initial before (pair.opener :: cs)).rest := by
    rw [sweep_cons_advance (move pair) (move_opener known [] cs.head?),
      sweep_cons_advance (move pair) (move_opener known before cs.head?)]
    exact rest_congr (by rfl) _ cs
  unfold closerIn? split?
  simp only [same, ← anywhere]
  generalize (sweep (move pair) .initial [] (pair.opener :: cs)).rest = rest
  have nothing : octets rest ≠ [] ↔ rest.isEmpty = false := by
    rw [← isEmpty_octets, List.isEmpty_eq_false_iff]
  simp only [opens, true_and, nothing, length_octets]
  cases rest.isEmpty <;> simp

/-- The search goes over the octets between its two offsets. -/
theorem findMatch_octets (known : pair.IsKnown) (text : String) (opener stop : Nat) :
    findMatch text opener stop pair =
      (closerIn? pair (((octets text.toList).take stop).drop opener)).map (opener + ·) := by
  obtain ⟨narrow, narrowCloser⟩ := narrow_brackets known
  obtain ⟨others, taken, wide⟩ := take_octets text.toList stop
  unfold findMatch
  rw [taken]
  simp only
  generalize (splitBytes stop text.toList).1 = window
  by_cases opens : (octets window ++ others)[opener]? = some pair.opener
  · obtain ⟨front, rest, rfl, place⟩ := exists_of_getElem?_octets wide narrow opens
    have cut : splitBytes opener (front ++ pair.opener :: rest) = (front, pair.opener :: rest) := by
      rw [← place, splitBytes_byteLength]
    have window : (octets (front ++ pair.opener :: rest) ++ others).drop opener =
        octets (pair.opener :: rest) ++ others := by
      rw [octets_append, List.append_assoc, ← place, ← length_octets, List.drop_left]
    rw [cut, window, closerIn?_append_wide known wide, closerIn?_octets known front.reverse]
    simp only [place, List.head?_cons, beq_self_eq_true, decide_true, Bool.and_self, if_true,
      Option.map_map, byteLength_append]
    cases splitAt : split? pair front.reverse (pair.opener :: rest) with
    | none => rfl
    | some parts =>
        obtain ⟨content, closed⟩ := parts
        obtain ⟨inside, after, rfl, rfl, rfl⟩ := split?_eq_some pair known splitAt
        simp only [Option.map_some, Function.comp_apply, Option.some.injEq, byteLength_cons,
          byteLength_append]
        omega
  · have closed : closerIn? pair ((octets window ++ others).drop opener) = none := by
      unfold closerIn?
      rw [if_neg]
      rw [List.head?_drop]
      exact fun found => opens found.1
    rw [closed, Option.map_none, if_neg]
    intro found
    obtain ⟨place, head⟩ := Bool.and_eq_true_iff.1 found
    obtain ⟨rest, parts⟩ := List.head?_eq_some_iff.1 (eq_of_beq head)
    have whole := splitBytes_append opener window
    apply opens
    rw [← whole, parts, octets_append, octets_cons, octets_of_narrow narrow]
    have size := length_octets (splitBytes opener window).1
    rw [of_decide_eq_true place] at size
    rw [List.append_assoc, List.getElem?_append_right (by omega), size, Nat.sub_self]
    rfl

private theorem octets_between (text : String) (start stop : Nat) :
    ((octets text.toList).take stop).drop start =
      (((octets text.toList).take text.utf8ByteSize).drop start).take (stop - start) := by
  have size : (octets text.toList).length = text.utf8ByteSize := by
    rw [length_octets, byteLength_toList]
  rw [List.drop_take, List.take_of_length_le (Nat.le_of_eq size)]

/-- A smaller bound hides the closers behind it and changes nothing in front of it. -/
theorem findMatch_eq_some_iff_lt (known : pair.IsKnown) (text : String)
    (opener stop closer : Nat) :
    findMatch text opener stop pair = some closer ↔
      closer < stop ∧ findMatch text opener text.utf8ByteSize pair = some closer := by
  rw [findMatch_octets known, findMatch_octets known, octets_between text opener stop,
    Option.map_eq_some_iff, Option.map_eq_some_iff]
  constructor
  · rintro ⟨i, found, rfl⟩
    obtain ⟨below, whole⟩ := (closerIn?_take known _ _ i).1 found
    exact ⟨by omega, i, whole, rfl⟩
  · rintro ⟨below, i, found, rfl⟩
    exact ⟨i, (closerIn?_take known _ _ i).2 ⟨by omega, found⟩, rfl⟩

/-- A bound inside the last character in front of the closer. -/
theorem findMatch_eq_some_iff_lt_hidden :
    Pair.IsKnown .square ∧ findMatch "a[/* ] */ '\\'' é]" 1 18 .square = some 17 ∧
      findMatch "a[/* ] */ '\\'' é]" 1 16 .square = none := by
  have known : Pair.IsKnown .square := Or.inr rfl
  have whole : findMatch "a[/* ] */ '\\'' é]" 1 "a[/* ] */ '\\'' é]".utf8ByteSize .square =
      some 17 := by decide
  refine ⟨known, (findMatch_eq_some_iff_lt known _ 1 18 17).2 ⟨by decide, whole⟩, ?_⟩
  rw [Option.eq_none_iff_forall_ne_some]
  intro closer found
  obtain ⟨below, other⟩ := (findMatch_eq_some_iff_lt known _ 1 16 closer).1 found
  rw [whole] at other
  cases other
  exact absurd below (by decide)

end Bracket

end ClassExpr
