import ClassExpr.Proofs.Text.Octets
import ClassExpr.Text.Sweep

set_option autoImplicit false

/-! Sweeps over characters and over octets. An automaton that only looks for narrow characters does
the same on the octets of a text as on its characters: it advances over the octets of a wide
character one by one, and where it passes over the first of them unread the others change nothing.
A sweep may see the character behind its window. -/

namespace ClassExpr.Text

variable {State : Type}

def sweepWithin (move : State → List Char → Char → Option Char → Move State)
    (beyond : Option Char) : State → List Char → List Char → Sweep State
  | state, before, [] => ⟨state, before, []⟩
  | state, before, c :: cs =>
      match move state before c (cs.head?.or beyond) with
      | .halt => ⟨state, before, c :: cs⟩
      | .advance next => sweepWithin move beyond next (c :: before) cs
      | .skip next =>
          match cs with
          | [] => ⟨next, c :: before, []⟩
          | d :: rest => sweepWithin move beyond next (d :: c :: before) rest

theorem sweepWithin_none (move : State → List Char → Char → Option Char → Move State)
    (state : State) (before cs : List Char) :
    sweepWithin move none state before cs = sweep move state before cs := by
  fun_induction sweep move state before cs with
  | case1 => rfl
  | case2 state before c cs halted => rw [sweepWithin, Option.or_none, halted]
  | case3 state before c cs next moved ih => rw [sweepWithin, Option.or_none, moved, ← ih]
  | case4 state before c next moved => rw [sweepWithin, Option.or_none, moved]
  | case5 state before c next d rest moved ih => rw [sweepWithin, Option.or_none, moved, ← ih]

def back (before : List Char) : List Char :=
  (octets before.reverse).reverse

@[simp] theorem back_nil : back [] = [] := rfl

theorem back_cons (c : Char) (before : List Char) :
    back (c :: before) = (octets [c]).reverse ++ back before := by
  rw [back, List.reverse_cons, octets_append, List.reverse_append]
  rfl

theorem any_back {accepts : Char → Bool} (refused : ∀ c, IsWide c → accepts c = false)
    (before : List Char) : (back before).head?.any accepts = before.head?.any accepts := by
  cases before with
  | nil => rfl
  | cons c before =>
      rw [back_cons]
      by_cases wide : IsWide c
      · cases reversed : (octets [c]).reverse with
        | nil => exact absurd (List.reverse_eq_nil_iff.1 reversed) (octets_ne_nil c)
        | cons octet others =>
            have member : octet ∈ octets [c] := by
              rw [← List.mem_reverse, reversed]
              exact List.mem_cons_self
            rw [List.cons_append, List.head?_cons, List.head?_cons, Option.any_some, Option.any_some,
              refused octet (wide_of_mem_octets wide member), refused c wide]
      · rw [octets_of_narrow wide]
        rfl

/-- The character ahead and the octet ahead are the same where they are narrow. -/
def SameAhead (ahead octet : Option Char) : Prop :=
  ∀ mark, ¬IsWide mark → (octet == some mark) = (ahead == some mark)

theorem SameAhead.head? (cs : List Char) {beyond octet : Option Char}
    (same : SameAhead beyond octet) :
    SameAhead (cs.head?.or beyond) ((octets cs).head?.or octet) := by
  intro mark narrow
  cases cs with
  | nil => exact same mark narrow
  | cons c cs =>
      cases first : octets (c :: cs) with
      | nil =>
          have parts := octets_cons c cs
          rw [first] at parts
          exact absurd (List.append_eq_nil_iff.1 parts.symm).1 (octets_ne_nil c)
      | cons other others =>
          have heads := head?_octets narrow (c :: cs)
          rw [first] at heads
          exact heads

/-- The automaton on octets does what the automaton on characters does, in the states that the
latter can come to. -/
structure Octetwise (move moveOctet : State → List Char → Char → Option Char → Move State)
    (Good : State → Prop) : Prop where
  narrow : ∀ state before c ahead octet, ¬IsWide c → SameAhead ahead octet →
    moveOctet state (back before) c octet = move state before c ahead
  skipped : ∀ state before c next d, Good state → move state before c (some d) = .skip next →
    IsWide d → ∀ octet, IsWide octet → ∀ front ahead, moveOctet next front octet ahead = .advance next
  wide : ∀ state before c ahead, Good state → IsWide c →
    (move state before c ahead = .halt ∧
      ∀ octet, IsWide octet → ∀ front other, moveOctet state front octet other = .halt) ∨
    ∃ next, move state before c ahead = .advance next ∧
      ∀ octet, IsWide octet → ∀ front other, moveOctet state front octet other = .advance next ∧
        moveOctet next front octet other = .advance next
  good : ∀ state before c ahead next, Good state →
    move state before c ahead = .advance next ∨ move state before c ahead = .skip next → Good next

theorem sweepWithin_wide {move : State → List Char → Char → Option Char → Move State}
    {beyond : Option Char} {state : State} {others : List Char}
    (stays : ∀ octet ∈ others, ∀ front ahead, move state front octet ahead = .advance state)
    (front rest : List Char) :
    sweepWithin move beyond state front (others ++ rest) =
      sweepWithin move beyond state (others.reverse ++ front) rest := by
  induction others generalizing front with
  | nil => rfl
  | cons octet others ih =>
      have first := stays octet List.mem_cons_self front ((others ++ rest).head?.or beyond)
      rw [List.cons_append, sweepWithin, first]
      simp only
      rw [ih fun other member => stays other (List.mem_cons_of_mem octet member)]
      simp

private theorem wide_of_octets_cons {c first : Char} {others : List Char}
    (spelled : octets [c] = first :: others) (wide : IsWide c) :
    IsWide first ∧ ∀ octet ∈ others, IsWide octet := by
  constructor
  · exact wide_of_mem_octets wide (by rw [spelled]; exact List.mem_cons_self)
  · intro octet member
    exact wide_of_mem_octets wide (by rw [spelled]; exact List.mem_cons_of_mem first member)

section

variable {move moveOctet : State → List Char → Char → Option Char → Move State}
variable {Good : State → Prop} {beyond octet : Option Char}

private theorem Octetwise.halt_wide (octetwise : Octetwise move moveOctet Good) {state : State}
    {before : List Char} {c : Char} {ahead : Option Char} (good : Good state) (wide : IsWide c)
    (halted : move state before c ahead = .halt) :
    ∀ octet, IsWide octet → ∀ front other, moveOctet state front octet other = .halt := by
  rcases octetwise.wide state before c ahead good wide with ⟨_, halts⟩ | ⟨next, moved, _⟩
  · exact halts
  · rw [moved] at halted
    cases halted

private theorem Octetwise.advance_wide (octetwise : Octetwise move moveOctet Good)
    {state next : State}
    {before : List Char} {c : Char} {ahead : Option Char} (good : Good state) (wide : IsWide c)
    (moved : move state before c ahead = .advance next) :
    ∀ octet, IsWide octet → ∀ front other, moveOctet state front octet other = .advance next ∧
      moveOctet next front octet other = .advance next := by
  rcases octetwise.wide state before c ahead good wide with ⟨halted, _⟩ | ⟨other, movedToo, stays⟩
  · rw [moved] at halted
    cases halted
  · rw [moved] at movedToo
    rw [Move.advance.inj movedToo]
    exact stays

private theorem Octetwise.narrow_of_skip (octetwise : Octetwise move moveOctet Good)
    {state next : State}
    {before : List Char} {c : Char} {ahead : Option Char} (good : Good state)
    (moved : move state before c ahead = .skip next) : ¬IsWide c := by
  intro wide
  rcases octetwise.wide state before c ahead good wide with ⟨halted, _⟩ | ⟨other, movedToo, _⟩
  · rw [moved] at halted
    cases halted
  · rw [moved] at movedToo
    cases movedToo

private theorem Octetwise.sweepWithin_advance (octetwise : Octetwise move moveOctet Good)
    {state next : State} {before : List Char} {c : Char} {cs : List Char} (good : Good state)
    (wide : IsWide c) (moved : move state before c (cs.head?.or beyond) = .advance next) :
    sweepWithin moveOctet octet state (back before) (octets (c :: cs)) =
      sweepWithin moveOctet octet next (back (c :: before)) (octets cs) := by
  have stays := octetwise.advance_wide good wide moved
  cases spelled : octets [c] with
  | nil => exact absurd spelled (octets_ne_nil c)
  | cons first others =>
      obtain ⟨wideFirst, wideRest⟩ := wide_of_octets_cons spelled wide
      rw [octets_cons, back_cons, spelled, List.cons_append, sweepWithin,
        (stays first wideFirst _ _).1]
      simp only
      rw [sweepWithin_wide fun octet member front ahead =>
        (stays octet (wideRest octet member) front ahead).2]
      simp

private theorem Octetwise.sweepWithin_skip (octetwise : Octetwise move moveOctet Good)
    {state next : State}
    {before : List Char} {c d first : Char} {others : List Char} (good : Good state)
    (moved : move state before c (some d) = .skip next) (spelled : octets [d] = first :: others)
    (front rest : List Char) :
    sweepWithin moveOctet octet next front (others ++ rest) =
      sweepWithin moveOctet octet next (others.reverse ++ front) rest := by
  by_cases wide : IsWide d
  · obtain ⟨_, wideRest⟩ := wide_of_octets_cons spelled wide
    apply sweepWithin_wide
    intro octet member front ahead
    exact octetwise.skipped state before c next d good moved wide octet (wideRest octet member)
      front ahead
  · rw [octets_of_narrow wide, List.cons.injEq] at spelled
    rw [← spelled.2]
    rfl

/-- The two automata pass the same text and end in the same state. -/
theorem sweepWithin_octets (octetwise : Octetwise move moveOctet Good)
    (same : SameAhead beyond octet) (state : State) (before cs : List Char) (good : Good state) :
    sweepWithin moveOctet octet state (back before) (octets cs) =
      let swept := sweepWithin move beyond state before cs
      ⟨swept.state, back swept.before, octets swept.rest⟩ := by
  fun_induction sweepWithin move beyond state before cs with
  | case1 state before => rfl
  | case2 state before c cs halted =>
      by_cases wide : IsWide c
      · have halts := octetwise.halt_wide good wide halted
        cases spelled : octets [c] with
        | nil => exact absurd spelled (octets_ne_nil c)
        | cons first others =>
            rw [octets_cons, spelled, List.cons_append, sweepWithin,
              halts first (wide_of_octets_cons spelled wide).1]
            simp only
            rw [octets_cons, spelled]
            rfl
      · have moved := octetwise.narrow state before c _ _ wide (same.head? cs)
        rw [octets_cons, octets_of_narrow wide, List.singleton_append, sweepWithin, moved, halted]
        simp only
        rw [octets_cons, octets_of_narrow wide]
        rfl
  | case3 state before c cs next moved ih =>
      have later := ih (octetwise.good _ _ _ _ _ good (Or.inl moved))
      by_cases wide : IsWide c
      · rw [octetwise.sweepWithin_advance good wide moved, later]
      · have movedToo := octetwise.narrow state before c _ _ wide (same.head? cs)
        rw [octets_cons, octets_of_narrow wide, List.singleton_append, sweepWithin, movedToo, moved]
        simp only
        rw [← later, back_cons, octets_of_narrow wide]
        rfl
  | case4 state before c next moved =>
      have narrow := octetwise.narrow_of_skip good moved
      have movedToo := octetwise.narrow state before c _ _ narrow (same.head? [])
      rw [octets_of_narrow narrow, sweepWithin]
      rw [octets_nil] at movedToo
      rw [movedToo, moved]
      simp only
      rw [back_cons, octets_of_narrow narrow]
      rfl
  | case5 state before c next d rest moved ih =>
      have later := ih (octetwise.good _ _ _ _ _ good (Or.inr moved))
      have narrow := octetwise.narrow_of_skip good moved
      have movedToo := octetwise.narrow state before c _ _ narrow (same.head? (d :: rest))
      cases spelled : octets [d] with
      | nil => exact absurd spelled (octets_ne_nil d)
      | cons first others =>
          rw [octets_cons, octets_of_narrow narrow, List.singleton_append, sweepWithin, movedToo,
            moved, octets_cons, spelled, List.cons_append]
          simp only
          rw [octetwise.sweepWithin_skip good moved spelled, ← later, back_cons, back_cons, spelled,
            octets_of_narrow narrow]
          simp

end

end ClassExpr.Text
