import ClassExpr.Proofs.Checked.Agreement

set_option autoImplicit false

/-! Windows read by offsets. The loop over items takes at least one character a turn, so its turns
are enough; by induction on the levels every window is read without a failure, whatever offsets a
reader asks for. -/

namespace ClassExpr.Checked

open Text ClassExpr.Tree

variable {reading : Reading} {interior? : Interior?} {interior : Interior} {text : String}

theorem skipBlankRange?_eq {position stop : Nat} {cs : List Char}
    (occurs : Occurs text.toList position cs) (stops : position + byteLength cs = stop) :
    skipBlankRange? text position stop = some (skipBlank position cs).1 := by
  unfold skipBlankRange?
  cases cs with
  | nil =>
      rw [byteLength_nil, Nat.add_zero] at stops
      rw [if_pos (by omega), stops]
      rfl
  | cons c cs =>
      have positive := c.utf8Size_pos
      have longer := stops
      rw [byteLength_cons] at longer
      rw [if_neg (by omega), slice?_eq occurs stops, Option.map_some]

private theorem turnStop?_eq {offset stop : Nat} {front after : List Char} {lexeme : Lexeme}
    (node : Option Node) (scans : Lexeme.Scans reading.separator offset front after lexeme)
    (occurs : Occurs text.toList offset (front ++ after))
    (stops : offset + byteLength (front ++ after) = stop) :
    turnStop? text stop lexeme node =
      some (turnStop offset (front ++ after) after lexeme node) := by
  cases node with
  | some node => rfl
  | none => exact commentStop?_eq scans occurs stops

/-- Every turn of the loop takes at least one character, so as many turns as there are characters
and one more are enough. -/
theorem items?_eq (agrees : Agrees text interior? interior) (framed : Framed interior)
    {turns position stop : Nat} {cs : List Char} {done : List Node} (enough : cs.length < turns)
    (occurs : Occurs text.toList position cs) (stops : position + byteLength cs = stop) :
    items? reading interior? text stop turns position done =
      some (items reading interior position 0 cs done) := by
  induction turns generalizing position cs done with
  | zero => omega
  | succ turns ih =>
      obtain ⟨front, rest, whole, blank, solid, skipped⟩ := skipBlank_eq position cs
      have start := skipBlankRange?_eq occurs stops
      subst whole
      have atRest := occurs.right
      have place : position + byteLength front + byteLength rest = stop := by
        rw [← stops, byteLength_append, Nat.add_assoc]
      rw [items_blanks blank, items?]
      simp only [start, skipped, Option.bind_eq_bind, Option.bind_some, scan?_eq atRest place]
      cases rest with
      | nil => rfl
      | cons c rest =>
          have notBlank : isBlank c = false := by simpa using solid
          have found : (Lexeme.scan? reading.separator (position + byteLength front)
              (c :: rest)).isSome = true := Lexeme.scan?_isSome notBlank
          obtain ⟨⟨lexeme, after⟩, scanned⟩ := Option.isSome_iff_exists.1 found
          obtain ⟨taken, left, parts, takes, stopped, turn⟩ := items_turn framed notBlank scanned
          obtain ⟨scannedText, spelled, scans⟩ := Lexeme.scans_of_scan? scanned
          have node := node?_eq agrees framed scans (spelled ▸ atRest) (spelled ▸ place)
          have next := turnStop?_eq (Tree.node? reading interior (position + byteLength front)
            (c :: rest) after lexeme) scans (spelled ▸ atRest) (spelled ▸ place)
          rw [← spelled] at node next
          rw [turn, scanned]
          simp only [Option.map_some, node, next, stopped, Option.bind_some]
          have shorter : left.length < turns := by
            have positive := List.length_pos_iff.2 takes.ne_nil
            have sizes := congrArg List.length parts
            rw [List.length_append] at sizes enough
            omega
          have atLeft : Occurs text.toList (position + byteLength front + byteLength taken) left := by
            rw [parts] at atRest
            exact atRest.right
          split
          · rfl
          · exact ih shorter atLeft (by rw [← place, parts, byteLength_append, Nat.add_assoc])

private theorem collect?_eq {offset stop : Nat} {cs : List Char} (items : List Node)
    (occurs : Occurs text.toList offset cs) (stops : offset + byteLength cs = stop) :
    collect? text offset stop items = some (collect offset cs items) := by
  have token := token?_eq occurs stops
  match items with
  | [] => simp only [collect?, collect, token, Option.bind_eq_bind, Option.bind_some]
  | [item] => rfl
  | _ :: _ :: _ => simp only [collect?, collect, token, Option.bind_eq_bind, Option.bind_some]

theorem trimEnd_append {front rest : List Char} (blank : ∀ c ∈ front, isBlank c = true) :
    trimEnd (front ++ rest) = if (trimEnd rest).isEmpty then [] else front ++ trimEnd rest := by
  have nothing : front.reverse.dropWhile isBlank = [] := by
    rw [← List.append_nil front.reverse]
    exact List.dropWhile_append_of_pos fun c member => blank c (List.mem_reverse.1 member)
  unfold trimEnd
  rw [List.reverse_append, List.dropWhile_append, nothing, List.isEmpty_reverse]
  split
  · rfl
  · rw [List.reverse_append, List.reverse_reverse]

private theorem remainder?_eq {start stop : Nat} {cs : List Char}
    (occurs : Occurs text.toList start cs)
    (stops : start + byteLength cs = stop) :
    remainder? text start stop = some (remainder start cs) := by
  obtain ⟨front, rest, rfl, blank, _, skipped⟩ := skipBlank_eq start cs
  obtain ⟨back, trimmed, _⟩ := trimEnd_eq rest
  unfold remainder? remainder
  simp only [skipBlankRange?_eq occurs stops, slice?_eq occurs stops, skipped, Option.bind_eq_bind,
    Option.bind_some, trimEnd_append blank]
  cases keptAt : trimEnd rest with
  | nil =>
      rw [List.isEmpty_nil, if_pos rfl, if_pos (by rw [byteLength_nil]; omega)]
  | cons c kept =>
      have positive := c.utf8Size_pos
      have inside := occurs.right
      rw [trimmed, keptAt] at inside
      have range := token?_eq inside.left
        (show _ = start + byteLength (front ++ c :: kept) by rw [byteLength_append, Nat.add_assoc])
      rw [List.isEmpty_cons, if_neg Bool.false_ne_true, if_neg (by simp; omega), range]
      rfl

private theorem length_le_byteLength (cs : List Char) : cs.length ≤ byteLength cs := by
  induction cs with
  | nil => exact Nat.le_refl 0
  | cons c cs ih =>
      have positive := c.utf8Size_pos
      rw [List.length_cons, byteLength_cons]
      omega

/-- Every window is read at every level. -/
theorem agrees_sequence (reading : Reading) (levels : Nat) :
    Agrees text (sequence? reading text levels) (Tree.sequence reading levels) := by
  induction levels with
  | zero =>
      intro offset cs stop occurs stops
      simp only [sequence?, Tree.sequence, remainder?_eq occurs stops, Option.bind_eq_bind,
        Option.bind_some, collect?_eq _ occurs stops]
  | succ levels ih =>
      intro offset cs stop occurs stops
      have enough : cs.length < stop - offset + 1 := by
        have atLeast := length_le_byteLength cs
        omega
      simp only [sequence?, Tree.sequence, items?_eq ih (framed_sequence reading levels) enough occurs stops,
        Option.bind_eq_bind, Option.bind_some, collect?_eq _ occurs stops]

theorem readRange?_eq (settings : Settings) (text : String) (start stop : Nat)
    (limit : Option Nat) :
    readRange? settings text start stop limit = some (readRange settings text start stop limit) := by
  unfold readRange? readRange
  simp only [floorBoundary?_eq, Option.bind_eq_bind, Option.bind_some]
  obtain ⟨occurs, stops⟩ := occurs_window text.toList start stop
  exact agrees_sequence _ _ _ _ _ occurs stops

end ClassExpr.Checked
