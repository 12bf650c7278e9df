set_option autoImplicit false

/-! Left-to-right sweeps. An automaton reads characters one at a time; it sees the characters it has
passed, nearest first, and one character ahead, and may pass over that one as well. A sweep ends
where the automaton halts or where the text does, so what lies beyond the text has no influence. -/

namespace ClassExpr.Text

inductive Move (State : Type) where
  | halt
  | advance (state : State)
  | skip (state : State)
deriving Repr, DecidableEq

/-- Where a sweep ended: an empty `rest` means that the automaton never halted. -/
structure Sweep (State : Type) where
  state : State
  before : List Char
  rest : List Char
deriving Repr, DecidableEq

def sweep {State : Type} (move : State → List Char → Char → Option Char → Move State) :
    State → List Char → List Char → Sweep State
  | state, before, [] => ⟨state, before, []⟩
  | state, before, c :: cs =>
      match move state before c cs.head? with
      | .halt => ⟨state, before, c :: cs⟩
      | .advance next => sweep move next (c :: before) cs
      | .skip next =>
          match cs with
          | [] => ⟨next, c :: before, []⟩
          | d :: rest => sweep move next (d :: c :: before) rest

variable {State : Type} (move : State → List Char → Char → Option Char → Move State)

theorem sweep_append (state : State) (before cs : List Char) :
    (sweep move state before cs).before.reverse ++ (sweep move state before cs).rest =
      before.reverse ++ cs := by
  fun_induction sweep move state before cs with
  | case1 => rfl
  | case2 => rfl
  | case3 _ _ _ _ _ _ ih => simpa using ih
  | case4 => simp
  | case5 _ _ _ _ _ _ _ ih => simpa using ih

end ClassExpr.Text
