set_option autoImplicit false

/-! Maximal runs of characters. The test on a character also sees what follows it, which is enough
for every lexical class of the expression language. -/

namespace ClassExpr.Text

/-- The longest run of leading characters that satisfy `accepts`, and the rest. -/
def splitRun (accepts : Char → List Char → Bool) (cs : List Char) : List Char × List Char :=
  go [] cs
where
  go : List Char → List Char → List Char × List Char
    | taken, [] => (taken.reverse, [])
    | taken, c :: cs => if accepts c cs then go (c :: taken) cs else (taken.reverse, c :: cs)

variable (accepts : Char → List Char → Bool)

private theorem splitRun_go (taken cs : List Char) :
    splitRun.go accepts taken cs =
      (taken.reverse ++ (splitRun accepts cs).1, (splitRun accepts cs).2) := by
  induction cs generalizing taken with
  | nil => simp [splitRun, splitRun.go]
  | cons c cs ih =>
      by_cases accepted : accepts c cs = true
      · rw [splitRun, splitRun.go, splitRun.go, if_pos accepted, if_pos accepted, ih, ih [c]]
        simp
      · rw [splitRun, splitRun.go, splitRun.go, if_neg accepted, if_neg accepted]
        simp

@[simp] theorem splitRun_nil : splitRun accepts [] = ([], []) := rfl

theorem splitRun_cons (c : Char) (cs : List Char) :
    splitRun accepts (c :: cs) =
      if accepts c cs then (c :: (splitRun accepts cs).1, (splitRun accepts cs).2)
      else ([], c :: cs) := by
  rw [splitRun, splitRun.go, splitRun_go]
  rfl

theorem splitRun_append (cs : List Char) :
    (splitRun accepts cs).1 ++ (splitRun accepts cs).2 = cs := by
  induction cs with
  | nil => rfl
  | cons c cs ih =>
      rw [splitRun_cons]
      split
      · exact congrArg (c :: ·) ih
      · rfl

/-- A run is maximal: the character that ends it is refused. -/
theorem splitRun_maximal (cs : List Char) (c : Char) (rest : List Char)
    (stopped : (splitRun accepts cs).2 = c :: rest) : accepts c rest = false := by
  induction cs with
  | nil => simp at stopped
  | cons d cs ih =>
      rw [splitRun_cons] at stopped
      split at stopped
      · exact ih stopped
      next refused =>
        cases stopped
        simpa using refused

end ClassExpr.Text
