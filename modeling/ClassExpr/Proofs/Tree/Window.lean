import ClassExpr.Proofs.Checked.Window
import ClassExpr.Proofs.Settings
import ClassExpr.Proofs.Tree.Shift

set_option autoImplicit false

/-! A window of a text is read as a text of its own. What stands in front of it moves the offsets of
its tree and nothing else, and what stands behind it has no influence at all: neither a look back
nor a look ahead leaves the window, and a limit counts from its start. -/

namespace ClassExpr.Tree

open Text

/-- A limit further on ends reading where the limit, moved back as far as it can be, ends it here.
-/
theorem moves_limited {separator : List Char} (nonempty : separator ≠ []) (distance : Nat)
    (limit : Option Nat) :
    Moves distance ⟨separator, limit.map (· - distance)⟩ ⟨separator, limit⟩ where
  separator := rfl
  nonempty := nonempty
  endsAt stop positive := by
    cases limit with
    | none => rfl
    | some limit =>
        simp only [Reading.endsAt, Option.map_some, Option.any_some, decide_eq_decide]
        omega

private theorem readRange_whole (settings : Settings) (cs : List Char) (limit : Option Nat) :
    readRange settings (String.ofList cs) 0 (byteLength cs) limit =
      sequence ⟨settings.separator.toList, limit⟩ (settings.maxDepth + 1) 0 cs := by
  have whole := read_eq settings (String.ofList cs) limit
  rw [read, utf8ByteSize_ofList, String.toList_ofList] at whole
  exact whole

private theorem readRange_occurs (settings : Settings) {text : String} {offset : Nat}
    {cs : List Char}
    (occurs : Occurs text.toList offset cs) (limit : Option Nat) :
    readRange settings text offset (offset + byteLength cs) limit =
      sequence ⟨settings.separator.toList, limit⟩ (settings.maxDepth + 1) offset cs := by
  unfold readRange
  simp only [floorBoundary_of_isBoundary occurs.start_isBoundary,
    floorBoundary_of_isBoundary occurs.stop_isBoundary, Nat.min_eq_left (Nat.le_add_right _ _),
    occurs.between_eq]

/-- The tree of a window is the tree of its characters alone, further on; the same holds where the
window is read by offsets in all of the text; and it is the same tree in any other surroundings. -/
theorem readRange_local (settings : Settings) (text : String) (start stop : Nat)
    (limit : Option Nat) (valid : settings.fault? = none) :
    let cs := text.toList
    let last := floorBoundary cs stop
    let first := min (floorBoundary cs start) last
    let window := between first last cs
    let alone := String.ofList window
    let nearer := limit.map (· - first)
    readRange settings text start stop limit =
        (readRange settings alone 0 (last - first) nearer).shift first ∧
      Checked.readRange? settings text start stop limit =
        (Checked.readRange? settings alone 0 (last - first) nearer).map (Node.shift first) ∧
      ∀ before after, byteLength before = first →
        readRange settings (String.ofList (before ++ window ++ after)) first last limit =
          readRange settings text start stop limit := by
  intro cs last first window alone nearer
  obtain ⟨occurs, stops⟩ := occurs_window cs start stop
  change Occurs cs first window at occurs
  change first + byteLength window = last at stops
  have size : last - first = byteLength window := by omega
  have here : readRange settings text start stop limit =
      sequence ⟨settings.separator.toList, limit⟩ (settings.maxDepth + 1) first window := rfl
  have same : readRange settings text start stop limit =
      (readRange settings alone 0 (last - first) nearer).shift first := by
    have moves := moves_limited (Settings.separator_sound valid).nonempty first limit
    have further := @sequence_shift _ _ first moves (settings.maxDepth + 1) _ window (Or.inl rfl) 0
    rw [Nat.zero_add] at further
    rw [here, size, readRange_whole, further]
  refine ⟨same, ?_, ?_⟩
  · rw [Checked.readRange?_eq, Checked.readRange?_eq, Option.map_some, same]
  · intro before after place
    have again : Occurs (String.ofList (before ++ window ++ after)).toList first window :=
      ⟨before, after, String.toList_ofList, place⟩
    rw [← stops, readRange_occurs settings again, here]

/-- A window that starts behind the name of a call and ends inside a character. -/
theorem readRange_local_clipped :
    ({} : Settings).fault? = none ∧
      readRange {} "url(a)b)é" 3 9 (some 7) = (readRange {} "(a)b)" 0 5 (some 4)).shift 3 ∧
      readRange {} "ab[(a)b)]" 3 8 (some 7) = readRange {} "url(a)b)é" 3 9 (some 7) := by
  have valid : ({} : Settings).fault? = none := by decide
  obtain ⟨alone, _, anywhere⟩ := readRange_local {} "url(a)b)é" 3 9 (some 7) valid
  exact ⟨valid, alone, anywhere "ab[".toList "]".toList rfl⟩

end ClassExpr.Tree
