set_option autoImplicit false

/-! Byte offsets over a list of characters. A text is measured in the bytes of its UTF-8 form, and
a cut at a byte offset that falls inside a character is moved back to the start of that character.
Nothing here looks at what the characters are. -/

namespace ClassExpr.Text

def byteLength (cs : List Char) : Nat :=
  cs.foldl (fun size c => size + c.utf8Size) 0

private theorem foldl_utf8Size (size : Nat) (cs : List Char) :
    cs.foldl (fun size c => size + c.utf8Size) size = size + byteLength cs := by
  induction cs generalizing size with
  | nil => rfl
  | cons c cs ih =>
      rw [byteLength, List.foldl_cons, List.foldl_cons, ih, ih (0 + c.utf8Size)]
      omega

@[simp] theorem byteLength_nil : byteLength [] = 0 := rfl

@[simp] theorem byteLength_cons (c : Char) (cs : List Char) :
    byteLength (c :: cs) = c.utf8Size + byteLength cs := by
  rw [byteLength, List.foldl_cons, foldl_utf8Size]
  omega

@[simp] theorem byteLength_append (left right : List Char) :
    byteLength (left ++ right) = byteLength left + byteLength right := by
  induction left with
  | nil => simp
  | cons c left ih =>
      rw [List.cons_append, byteLength_cons, byteLength_cons, ih, Nat.add_assoc]

theorem byteLength_pos {cs : List Char} (nonempty : cs ≠ []) : 0 < byteLength cs := by
  obtain ⟨c, cs, rfl⟩ := List.exists_cons_of_ne_nil nonempty
  rw [byteLength_cons]
  exact Nat.add_pos_left c.utf8Size_pos _

@[simp] theorem byteLength_reverse (cs : List Char) : byteLength cs.reverse = byteLength cs := by
  induction cs with
  | nil => rfl
  | cons c cs ih =>
      rw [List.reverse_cons, byteLength_append, ih, byteLength_cons, byteLength_cons,
        byteLength_nil]
      omega

theorem utf8ByteSize_ofList (cs : List Char) : (String.ofList cs).utf8ByteSize = byteLength cs := by
  induction cs with
  | nil => rfl
  | cons c cs ih =>
      rw [← List.singleton_append, String.ofList_append, String.utf8ByteSize_append, ih,
        byteLength_append]
      simp

/-- Splits off the longest run of whole characters that fits into `budget` bytes. -/
def splitBytes (budget : Nat) (cs : List Char) : List Char × List Char :=
  go budget [] cs
where
  go : Nat → List Char → List Char → List Char × List Char
    | _, taken, [] => (taken.reverse, [])
    | budget, taken, c :: cs =>
        if c.utf8Size ≤ budget then go (budget - c.utf8Size) (c :: taken) cs
        else (taken.reverse, c :: cs)

private theorem splitBytes_go (budget : Nat) (taken cs : List Char) :
    splitBytes.go budget taken cs =
      (taken.reverse ++ (splitBytes budget cs).1, (splitBytes budget cs).2) := by
  induction cs generalizing budget taken with
  | nil => simp [splitBytes, splitBytes.go]
  | cons c cs ih =>
      by_cases fits : c.utf8Size ≤ budget
      · rw [splitBytes, splitBytes.go, splitBytes.go, if_pos fits, if_pos fits, ih, ih _ [c]]
        simp
      · rw [splitBytes, splitBytes.go, splitBytes.go, if_neg fits, if_neg fits]
        simp

@[simp] theorem splitBytes_nil (budget : Nat) : splitBytes budget [] = ([], []) := rfl

theorem splitBytes_cons (budget : Nat) (c : Char) (cs : List Char) :
    splitBytes budget (c :: cs) =
      if c.utf8Size ≤ budget then
        (c :: (splitBytes (budget - c.utf8Size) cs).1, (splitBytes (budget - c.utf8Size) cs).2)
      else ([], c :: cs) := by
  rw [splitBytes, splitBytes.go, splitBytes_go]
  rfl

theorem splitBytes_append (budget : Nat) (cs : List Char) :
    (splitBytes budget cs).1 ++ (splitBytes budget cs).2 = cs := by
  induction cs generalizing budget with
  | nil => rfl
  | cons c cs ih =>
      rw [splitBytes_cons]
      split
      · exact congrArg (c :: ·) (ih _)
      · rfl

theorem byteLength_splitBytes_le (budget : Nat) (cs : List Char) :
    byteLength (splitBytes budget cs).1 ≤ budget := by
  induction cs generalizing budget with
  | nil => exact Nat.zero_le _
  | cons c cs ih =>
      rw [splitBytes_cons]
      split
      · have bound := ih (budget - c.utf8Size)
        rw [byteLength_cons]
        omega
      · exact Nat.zero_le _

theorem splitBytes_byteLength (left right : List Char) :
    splitBytes (byteLength left) (left ++ right) = (left, right) := by
  induction left with
  | nil =>
      cases right with
      | nil => rfl
      | cons c right =>
          have positive := c.utf8Size_pos
          rw [byteLength_nil, List.nil_append, splitBytes_cons, if_neg (by omega)]
  | cons c left ih =>
      rw [List.cons_append, byteLength_cons, splitBytes_cons, if_pos (by omega),
        Nat.add_sub_cancel_left, ih]

/-- The greatest character boundary that is at most `offset`. -/
def floorBoundary (cs : List Char) (offset : Nat) : Nat :=
  byteLength (splitBytes offset cs).1

def isBoundary (cs : List Char) (offset : Nat) : Bool :=
  floorBoundary cs offset == offset

/-- The characters that start at or after `offset`. -/
def dropBefore : Nat → List Char → List Char
  | _, [] => []
  | 0, c :: cs => c :: cs
  | offset + 1, c :: cs => dropBefore (offset + 1 - c.utf8Size) cs

/-- The characters between two byte offsets, each moved back to a boundary. -/
def between (start stop : Nat) (cs : List Char) : List Char :=
  let rest := (splitBytes start cs).2
  (splitBytes (stop - floorBoundary cs start) rest).1

/-- The characters between two byte offsets, if both are boundaries and in order. -/
def slice? (cs : List Char) (start stop : Nat) : Option (List Char) :=
  if start ≤ stop && isBoundary cs start && isBoundary cs stop then some (between start stop cs)
  else none

end ClassExpr.Text
