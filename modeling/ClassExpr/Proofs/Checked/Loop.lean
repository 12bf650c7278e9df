import ClassExpr.Proofs.Text.Occurrence
import ClassExpr.Proofs.Text.Within

set_option autoImplicit false

/-! Operations that can fail, and loops made of them. A difference, a clamped value, an octet at an
index and a stretch of octets have a value only where nothing goes below zero or past an end. A
loop goes by index over the octets of a text and fails if one of its steps does; it ends as a sweep
over its window does. -/

namespace ClassExpr.Checked

open Text

def sub? (left right : Nat) : Option Nat :=
  if right ≤ left then some (left - right) else none

/-- The nearest value between two bounds, which have to be in order. -/
def clamp? (value low high : Nat) : Option Nat :=
  if low ≤ high then some (max low (min value high)) else none

def octetsBetween? (text : List Char) (start stop : Nat) : Option (List Char) :=
  if start ≤ stop && stop ≤ text.length then some ((text.take stop).drop start) else none

/-- Goes back from an offset to a boundary, one by one. -/
def stepBack? (cs : List Char) : Nat → Option Nat
  | 0 => if isBoundary cs 0 then some 0 else sub? 0 1
  | offset + 1 => if isBoundary cs (offset + 1) then some (offset + 1) else stepBack? cs offset

def floorBoundary? (cs : List Char) (offset : Nat) : Option Nat :=
  stepBack? cs (min offset (byteLength cs))

/-- The octet after an index, which is read if it is in front of `sight`. -/
def ahead? (text : List Char) (sight i : Nat) : Option (Option Char) :=
  if i + 1 < sight then text[i + 1]?.map some else some none

/-- Steps through the octets from an index up to `stop`, each with the octet after it if that is in
front of `sight`. The result is the last state, and the index where a step halted. -/
def loop? {State : Type} (step : State → Nat → Char → Option Char → Option (Move State))
    (text : List Char) (sight stop : Nat) (state : State) (i : Nat) :
    Option (State × Option Nat) :=
  if i < stop then do
    let c ← text[i]?
    let ahead ← ahead? text sight i
    match ← step state i c ahead with
    | .halt => some (state, some i)
    | .advance next => loop? step text sight stop next (i + 1)
    | .skip next => loop? step text sight stop next (i + 2)
  else some (state, none)
termination_by stop - i

theorem sub?_eq {left right : Nat} (ordered : right ≤ left) : sub? left right = some (left - right) :=
  if_pos ordered

theorem clamp?_eq {low high : Nat} (value : Nat) (ordered : low ≤ high) :
    clamp? value low high = some (max low (min value high)) :=
  if_pos ordered

theorem octetsBetween?_eq (front middle behind : List Char) :
    octetsBetween? (front ++ middle ++ behind) front.length (front.length + middle.length) =
      some middle := by
  unfold octetsBetween?
  rw [if_pos]
  · rw [List.take_left' (by simp), List.drop_left]
  · simp

theorem octetsBetween?_occurs {text : String} {offset stop : Nat}
    {cs : List Char}
    (occurs : Occurs text.toList offset cs) (stops : offset + byteLength cs = stop) :
    octetsBetween? (octets text.toList) offset stop = some (octets cs) := by
  obtain ⟨before, after, whole, rfl⟩ := occurs
  have found := octetsBetween?_eq (octets before) (octets cs) (octets after)
  rw [← octets_append, ← octets_append, ← whole, length_octets, length_octets, stops] at found
  exact found

private theorem splitBytes_of_fits {cs : List Char} {budget smaller : Nat} (less : smaller ≤ budget)
    (fits : byteLength (splitBytes budget cs).1 ≤ smaller) :
    splitBytes smaller cs = splitBytes budget cs := by
  induction cs generalizing budget smaller with
  | nil => rfl
  | cons c cs ih =>
      rw [splitBytes_cons] at fits
      rw [splitBytes_cons, splitBytes_cons]
      by_cases taken : c.utf8Size ≤ budget
      · rw [if_pos taken, byteLength_cons] at fits
        have same := @ih (budget - c.utf8Size) (smaller - c.utf8Size) (by omega) (by omega)
        rw [if_pos taken, if_pos (by omega), same]
      · rw [if_neg taken, if_neg (by omega)]

private theorem stepBack?_eq (cs : List Char) (offset : Nat) :
    stepBack? cs offset = some (floorBoundary cs offset) := by
  induction offset with
  | zero =>
      have start : floorBoundary cs 0 = 0 := Nat.le_zero.1 (floorBoundary_le cs 0)
      have boundary : isBoundary cs 0 = true := by
        rw [isBoundary, start]
        exact beq_self_eq_true 0
      rw [stepBack?, if_pos boundary, start]
  | succ offset ih =>
      rw [stepBack?]
      by_cases boundary : isBoundary cs (offset + 1) = true
      · rw [if_pos boundary, floorBoundary_of_isBoundary boundary]
      · have below : floorBoundary cs (offset + 1) ≤ offset := by
          have bound := floorBoundary_le cs (offset + 1)
          have apart : floorBoundary cs (offset + 1) ≠ offset + 1 := by
            intro same
            exact boundary (beq_iff_eq.2 same)
          omega
        rw [if_neg boundary, ih, floorBoundary,
          splitBytes_of_fits (Nat.le_succ offset) below, floorBoundary]

theorem floorBoundary?_eq (cs : List Char) (offset : Nat) :
    floorBoundary? cs offset = some (floorBoundary cs offset) := by
  have inside : floorBoundary cs offset ≤ byteLength cs := by
    have whole := congrArg byteLength (splitBytes_append offset cs)
    rw [byteLength_append] at whole
    rw [floorBoundary]
    omega
  have bound := floorBoundary_le cs offset
  rw [floorBoundary?, stepBack?_eq, floorBoundary,
    splitBytes_of_fits (Nat.min_le_left _ _) (Nat.le_min.2 ⟨bound, inside⟩), floorBoundary]

section

variable {State : Type} {step : State → Nat → Char → Option Char → Option (Move State)}
  {move : State → List Char → Char → Option Char → Move State} {base : List Char}
  {Good : State → List Char → Prop}

/-- The step does not fail where a sweep can take it, and does what the sweep does. `base` is what
stands in front of the sweep. -/
structure Steps (step : State → Nat → Char → Option Char → Option (Move State))
    (move : State → List Char → Char → Option Char → Move State) (text base : List Char)
    (sight : Nat) (Good : State → List Char → Prop) : Prop where
  step_eq : ∀ state before c rest ahead, Good state before →
    text = base ++ before.reverse ++ c :: rest →
    (ahead.isSome = true → base.length + before.length + 1 < sight) →
    step state (base.length + before.length) c ahead = some (move state before c ahead)
  advance : ∀ state before c ahead next, Good state before →
    move state before c ahead = .advance next → Good next (c :: before)
  skip : ∀ state before c ahead next d, Good state before →
    move state before c ahead = .skip next → Good next (d :: c :: before)

def seen (stop sight : Nat) (behind : List Char) : Option Char :=
  if stop < sight then behind.head? else none

theorem getElem?_middle (front : List Char) (c : Char) (rest : List Char) :
    (front ++ c :: rest)[front.length]? = some c := by
  rw [List.getElem?_append_right (Nat.le_refl _), Nat.sub_self, List.getElem?_cons_zero]

theorem ahead?_eq {front cs behind : List Char} {c : Char} {sight : Nat}
    (inSight : front.length + (c :: cs).length ≤ sight)
    (inText : sight ≤ (front ++ c :: cs ++ behind).length) :
    ahead? (front ++ c :: cs ++ behind) sight front.length =
      some (cs.head?.or (seen (front.length + (c :: cs).length) sight behind)) := by
  have shifted : (front ++ c :: cs ++ behind)[front.length + 1]? = (cs ++ behind).head? := by
    have parts : front ++ c :: cs ++ behind = (front ++ [c]) ++ (cs ++ behind) := by simp
    rw [parts, List.getElem?_append_right (by simp), List.head?_eq_getElem?]
    simp
  rw [ahead?, shifted]
  cases cs with
  | nil =>
      rw [List.nil_append, List.head?_nil, Option.none_or, List.length_singleton, seen]
      by_cases further : front.length + 1 < sight
      · rw [if_pos further, if_pos further]
        cases behind with
        | nil =>
            simp at inText
            omega
        | cons d behind => rfl
      · rw [if_neg further, if_neg further]
  | cons d cs =>
      rw [List.length_cons, List.length_cons] at inSight
      rw [if_pos (by omega)]
      rfl

private theorem loop?_turn {text behind : List Char} {stop sight : Nat}
    (steps : Steps step move text base sight Good) {state : State} {before cs : List Char} {c : Char}
    (good : Good state before) (whole : text = base ++ before.reverse ++ c :: cs ++ behind)
    (stops : base.length + before.length + (c :: cs).length = stop) (inSight : stop ≤ sight)
    (inText : sight ≤ text.length) :
    loop? step text sight stop state (base.length + before.length) =
      match move state before c (cs.head?.or (seen stop sight behind)) with
      | .halt => some (state, some (base.length + before.length))
      | .advance next => loop? step text sight stop next (base.length + before.length + 1)
      | .skip next => loop? step text sight stop next (base.length + before.length + 2) := by
  have front : (base ++ before.reverse).length = base.length + before.length := by simp
  have here : text[base.length + before.length]? = some c := by
    rw [whole, List.append_assoc, ← front]
    exact getElem?_middle _ c _
  have next := @ahead?_eq (base ++ before.reverse) cs behind c sight
    (by rw [front, stops]; exact inSight) (by rw [← whole]; exact inText)
  rw [← whole, front, stops] at next
  rw [List.append_assoc] at whole
  have inFront : (cs.head?.or (seen stop sight behind)).isSome = true →
      base.length + before.length + 1 < sight := by
    intro present
    rw [List.length_cons] at stops
    cases cs with
    | nil =>
        rw [List.length_nil] at stops
        rw [List.head?_nil, Option.none_or, seen] at present
        split at present
        next further => omega
        · cases present
    | cons d cs =>
        rw [List.length_cons] at stops
        omega
  rw [loop?, if_pos (by rw [List.length_cons] at stops; omega), here, next]
  simp only [Option.bind_eq_bind, Option.bind_some]
  rw [steps.step_eq state before c _ _ good whole inFront]
  rfl

/-- A loop over a window does not fail, and ends as the sweep over the window ends. -/
theorem loop?_eq {text behind : List Char} {stop sight : Nat}
    (steps : Steps step move text base sight Good) (state : State) (before cs : List Char)
    (good : Good state before) (whole : text = base ++ before.reverse ++ cs ++ behind)
    (stops : base.length + before.length + cs.length = stop) (inSight : stop ≤ sight)
    (inText : sight ≤ text.length) :
    loop? step text sight stop state (base.length + before.length) =
      let swept := sweepWithin move (seen stop sight behind) state before cs
      some (swept.state, if swept.rest.isEmpty then none
        else some (stop - swept.rest.length)) := by
  fun_induction sweepWithin move (seen stop sight behind) state before cs with
  | case1 state before =>
      rw [List.length_nil] at stops
      rw [loop?, if_neg (by omega)]
      rfl
  | case2 state before c cs halted =>
      rw [loop?_turn steps good whole stops inSight inText, halted]
      rw [← stops]
      simp
  | case3 state before c cs next moved ih =>
      rw [loop?_turn steps good whole stops inSight inText, moved]
      simp only
      have again := ih (steps.advance _ _ _ _ _ good moved) (by rw [whole]; simp)
        (by rw [← stops]; simp; omega)
      rw [List.length_cons, ← Nat.add_assoc] at again
      exact again
  | case4 state before c next moved =>
      rw [loop?_turn steps good whole stops inSight inText, moved]
      simp only
      rw [loop?, if_neg (by rw [List.length_singleton] at stops; omega)]
      rfl
  | case5 state before c next d rest moved ih =>
      rw [loop?_turn steps good whole stops inSight inText, moved]
      simp only
      have again := ih (steps.skip _ _ _ _ _ d good moved) (by rw [whole]; simp)
        (by rw [← stops]; simp; omega)
      rw [List.length_cons, List.length_cons, ← Nat.add_assoc, ← Nat.add_assoc] at again
      exact again

end

end ClassExpr.Checked
