import ClassExpr.Text.Sweep

set_option autoImplicit false

/-! What a sweep leaves: it passes a stretch of the text and stops only where its automaton halts;
an automaton that looks no further
back sweeps the same behind other texts; and one that does the same as another one at each character
stays in step with it. -/

namespace ClassExpr.Text

variable {State : Type} (move : State → List Char → Char → Option Char → Move State)

theorem sweep_cons (state : State) (before : List Char) (c : Char) (cs : List Char) :
    sweep move state before (c :: cs) =
      match move state before c cs.head? with
      | .halt => ⟨state, before, c :: cs⟩
      | .advance next => sweep move next (c :: before) cs
      | .skip next =>
          match cs with
          | [] => ⟨next, c :: before, []⟩
          | d :: rest => sweep move next (d :: c :: before) rest := by
  cases moved : move state before c cs.head? with
  | halt => simp only [sweep, moved]
  | advance next => simp only [sweep, moved]
  | skip next => cases cs <;> simp only [sweep, moved]

/-- The passed characters come in front of those passed before, nearest first. -/
theorem sweep_passed (state : State) (before cs : List Char) :
    ∃ passed, (sweep move state before cs).before = passed ++ before ∧
      cs = passed.reverse ++ (sweep move state before cs).rest := by
  fun_induction sweep move state before cs with
  | case1 => exact ⟨[], rfl, rfl⟩
  | case2 => exact ⟨[], rfl, rfl⟩
  | case3 state before c cs next _ ih =>
      obtain ⟨passed, fronts, whole⟩ := ih
      exact ⟨passed ++ [c], by simp [fronts], by simp [← whole]⟩
  | case4 state before c next _ => exact ⟨[c], rfl, rfl⟩
  | case5 state before c next d rest _ ih =>
      obtain ⟨passed, fronts, whole⟩ := ih
      exact ⟨passed ++ [d, c], by simp [fronts], by simp [← whole]⟩

theorem sweep_rest_length_le (state : State) (before cs : List Char) :
    (sweep move state before cs).rest.length ≤ cs.length := by
  obtain ⟨passed, _, whole⟩ := sweep_passed move state before cs
  have size := congrArg List.length whole
  rw [List.length_append] at size
  omega

theorem sweep_halts (state : State) (before cs : List Char) {c : Char} {rest : List Char}
    (stopped : (sweep move state before cs).rest = c :: rest) :
    move (sweep move state before cs).state (sweep move state before cs).before c rest.head? =
      .halt := by
  fun_induction sweep move state before cs with
  | case1 => cases stopped
  | case2 state before d cs halted =>
      cases stopped
      exact halted
  | case3 _ _ _ _ _ _ ih => exact ih stopped
  | case4 => cases stopped
  | case5 _ _ _ _ _ _ _ ih => exact ih stopped

theorem sweep_cons_advance {state next : State} {before : List Char} {c : Char} {cs : List Char}
    (moved : move state before c cs.head? = .advance next) :
    sweep move state before (c :: cs) = sweep move next (c :: before) cs := by
  rw [sweep_cons, moved]

theorem sweep_cons_skip {state next : State} {before : List Char} {c d : Char} {cs : List Char}
    (moved : move state before c (some d) = .skip next) :
    sweep move state before (c :: d :: cs) = sweep move next (d :: c :: before) cs := by
  rw [sweep_cons, List.head?_cons, moved]

theorem sweep_cons_halt {state : State} {before : List Char} {c : Char} {cs : List Char}
    (moved : move state before c cs.head? = .halt) :
    sweep move state before (c :: cs) = ⟨state, before, c :: cs⟩ := by
  rw [sweep_cons, moved]

/-- What stands in front of a sweep is only there for its automaton to see. -/
theorem sweep_behind (frame : List Char) (state : State) (before cs : List Char) :
    sweep move state (before ++ frame) cs =
      let swept := sweep (fun state before => move state (before ++ frame)) state before cs
      ⟨swept.state, swept.before ++ frame, swept.rest⟩ := by
  fun_induction sweep (fun state before => move state (before ++ frame)) state before cs with
  | case1 => rfl
  | case2 state before c cs halted => rw [sweep_cons, halted]
  | case3 state before c cs next moved ih =>
      rw [sweep_cons, moved]
      exact ih
  | case4 state before c next moved =>
      rw [sweep_cons, moved]
      rfl
  | case5 state before c next d rest moved ih =>
      rw [sweep_cons, moved]
      exact ih

theorem sweep_frame {frame : List Char}
    (same : ∀ state before c ahead, move state (before ++ frame) c ahead = move state before c ahead)
    (state : State) (before cs : List Char) :
    sweep move state (before ++ frame) cs =
      ⟨(sweep move state before cs).state, (sweep move state before cs).before ++ frame,
        (sweep move state before cs).rest⟩ := by
  have alike : (fun state before => move state (before ++ frame)) = move := by
    funext state before c ahead
    exact same state before c ahead
  rw [sweep_behind, alike]

/-- An automaton that does at one character what another one does there, whatever it has passed, and
stays in step with it. -/
inductive Follows {Other : Type} (follow : Other → List Char → Char → Option Char → Move Other)
    (InStep : State → Other → List Char → List Char → Prop) (state : State) (other : Other)
    (before : List Char) (c : Char) (cs : List Char) : Prop
  | halt (halted : move state before c cs.head? = .halt)
  | advance {next : State} {later : Other} (moved : move state before c cs.head? = .advance next)
      (followed : ∀ passed, follow other passed c cs.head? = .advance later)
      (inStep : InStep next later (c :: before) cs)
  | skip {next : State} {later : Other} (moved : move state before c cs.head? = .skip next)
      (followed : ∀ passed, follow other passed c cs.head? = .skip later)
      (inStep : ∀ d rest, cs = d :: rest → InStep next later (d :: c :: before) rest)

/-- An automaton in step with another one comes to where the other one halts. -/
theorem sweep_follows {Other : Type} {follow : Other → List Char → Char → Option Char → Move Other}
    {InStep : State → Other → List Char → List Char → Prop}
    (step : ∀ state other before c cs, InStep state other before (c :: cs) →
      Follows move follow InStep state other before c cs)
    {state : State} {other : Other} {before cs : List Char}
    (inStep : InStep state other before cs) (halts : (sweep move state before cs).rest ≠ []) :
    ∃ later passed, InStep (sweep move state before cs).state later
        (sweep move state before cs).before (sweep move state before cs).rest ∧
      cs = passed.reverse ++ (sweep move state before cs).rest ∧
      ∀ front, sweep follow other front cs =
        sweep follow later (passed ++ front) (sweep move state before cs).rest := by
  fun_induction sweep move state before cs generalizing other with
  | case1 => exact absurd rfl halts
  | case2 => exact ⟨other, [], inStep, rfl, fun _ => rfl⟩
  | case3 state before c cs next moved ih =>
      cases step state other before c cs inStep with
      | halt halted => rw [moved] at halted; cases halted
      | skip skipped _ _ => rw [moved] at skipped; cases skipped
      | advance same followed inStep =>
          rw [moved] at same
          cases same
          obtain ⟨last, passed, reached, whole, sweeps⟩ := ih inStep halts
          refine ⟨last, passed ++ [c], reached, by simp [← whole], fun front => ?_⟩
          rw [sweep_cons_advance follow (followed front), sweeps, List.append_assoc]
          rfl
  | case4 => exact absurd rfl halts
  | case5 state before c next d rest moved ih =>
      cases step state other before c (d :: rest) inStep with
      | halt halted => rw [moved] at halted; cases halted
      | advance advanced _ _ => rw [moved] at advanced; cases advanced
      | skip same followed inStep =>
          rw [moved] at same
          cases same
          obtain ⟨last, passed, reached, whole, sweeps⟩ := ih (inStep d rest rfl) halts
          refine ⟨last, passed ++ [d, c], reached, by simp [← whole], fun front => ?_⟩
          rw [sweep_cons_skip follow (followed front), sweeps, List.append_assoc]
          rfl

end ClassExpr.Text
