import ClassExpr.Proofs.Text.Occurrence
import ClassExpr.Text.Place
import Mathlib.Data.List.Induction

set_option autoImplicit false

/-! Lines and columns lead back to the offsets that they are the places of, and stand in the order
of the offsets: what is further on in a text is in a later line, or further on in the same one. The
places that one can go to in a text and its boundaries are in one order. -/

namespace ClassExpr.Text

def lastLine (before : List Char) : List Char :=
  (before.reverse.takeWhile (· != '\n')).reverse

private theorem lastLine_newline (before : List Char) : lastLine (before ++ ['\n']) = [] := by
  simp [lastLine]

private theorem lastLine_concat (before : List Char) {c : Char} (other : c ≠ '\n') :
    lastLine (before ++ [c]) = lastLine before ++ [c] := by
  simp [lastLine, other]

private theorem newline_not_mem_lastLine (before : List Char) : '\n' ∉ lastLine before := by
  intro member
  rw [lastLine, List.mem_reverse] at member
  have kept := List.all_eq_true.1 List.all_takeWhile '\n' member
  cases kept

theorem endPlace_eq (before : List Char) :
    endPlace before = (before.count '\n' + 1, (lastLine before).length + 1) := by
  rw [endPlace, lastLine, List.length_reverse]

private theorem dropWhile_line {line : List Char} (within : '\n' ∉ line) (rest : List Char) :
    (line ++ '\n' :: rest).dropWhile (· != '\n') = '\n' :: rest := by
  have passed : ∀ c ∈ line, (c != '\n') = true := by
    intro c member
    exact bne_iff_ne.2 fun newline => within (newline ▸ member)
  rw [List.dropWhile_append_of_pos passed]
  rfl

def Precedes (first second : Nat × Nat) : Prop :=
  Prod.Lex (· < ·) (· < ·) first second

private theorem precedes_concat (before : List Char) (c : Char) :
    Precedes (endPlace before) (endPlace (before ++ [c])) := by
  rw [Precedes, Prod.lex_def, endPlace_eq, endPlace_eq]
  by_cases newline : c = '\n'
  · left
    subst newline
    rw [List.count_append, List.count_singleton_self]
    exact Nat.lt_succ_self _
  · right
    rw [List.count_append, List.count_singleton, beq_eq_false_iff_ne.2 newline,
      lastLine_concat before newline, List.length_append]
    exact ⟨rfl, Nat.lt_succ_self _⟩

theorem Precedes.trans {first second third : Nat × Nat} (before : Precedes first second)
    (later : Precedes second third) : Precedes first third := by
  rw [Precedes, Prod.lex_def] at *
  omega

private theorem precedes_append (before : List Char) {more : List Char} (further : more ≠ []) :
    Precedes (endPlace before) (endPlace (before ++ more)) := by
  induction more using List.reverseRecOn with
  | nil => exact absurd rfl further
  | append_singleton more c ih =>
      have last := precedes_concat (before ++ more) c
      rw [List.append_assoc] at last
      cases more with
      | nil => simpa using last
      | cons d more => exact (ih (by simp)).trans last

section

variable {cs : List Char} {first second offset : Nat}

theorem place_eq {before rest : List Char} (whole : cs = before ++ rest)
    (size : byteLength before = offset) : place cs offset = endPlace before := by
  rw [place, whole, ← size, splitBytes_byteLength]
  exact if_pos rfl

theorem precedes_place (ordered : first < second) (left : isBoundary cs first = true)
    (right : isBoundary cs second = true) : Precedes (place cs first) (place cs second) := by
  obtain ⟨before, rest, whole, start⟩ := exists_split_of_isBoundary left
  obtain ⟨front, after, parts, stop⟩ := exists_split_of_isBoundary right
  rw [place_eq whole start, place_eq parts stop]
  rcases List.append_eq_append_iff.1 (whole.symm.trans parts) with ⟨more, same, _⟩ | ⟨more, same, _⟩
  · rw [same]
    apply precedes_append
    rintro rfl
    rw [List.append_nil] at same
    subst same
    omega
  · rw [same, byteLength_append] at start
    omega

end

/-! ### From places to offsets -/

def nextLine? (cs : List Char) : Option (List Char) :=
  match cs.dropWhile (· != '\n') with
  | [] => none
  | _ :: rest => some rest

def skipLines? : Nat → List Char → Option (List Char)
  | 0, cs => some cs
  | lines + 1, cs => (nextLine? cs).bind (skipLines? lines)

def skipInLine? : Nat → List Char → Option (List Char)
  | 0, cs => some cs
  | _ + 1, [] => none
  | count + 1, c :: cs => if c == '\n' then none else skipInLine? count cs

/-- The offset that one comes to behind all earlier lines of a place and all earlier characters of
its line, if the text has as many. -/
def offsetAt? (cs : List Char) : Nat × Nat → Option Nat
  | (lines + 1, count + 1) => do
      let line ← skipLines? lines cs
      let rest ← skipInLine? count line
      some (byteLength cs - byteLength rest)
  | _ => none

private theorem nextLine?_eq_some_iff {cs rest : List Char} :
    nextLine? cs = some rest ↔ ∃ line, cs = line ++ '\n' :: rest ∧ '\n' ∉ line := by
  constructor
  · intro found
    have whole := List.takeWhile_append_dropWhile (p := (· != '\n')) (l := cs)
    have stopped := List.head?_dropWhile_not (· != '\n') cs
    unfold nextLine? at found
    generalize cs.dropWhile (· != '\n') = behind at found whole stopped
    cases behind with
    | nil => cases found
    | cons c behind =>
        cases found
        have newline : c = '\n' := by simpa using stopped
        subst newline
        refine ⟨_, whole.symm, fun member => ?_⟩
        have kept := List.all_eq_true.1 List.all_takeWhile '\n' member
        cases kept
  · rintro ⟨line, rfl, within⟩
    rw [nextLine?, dropWhile_line within]

private theorem lastLine_append_newline (before line : List Char) :
    lastLine (before ++ '\n' :: line) = lastLine line := by
  induction line using List.reverseRecOn with
  | nil => exact lastLine_newline before
  | append_singleton line c ih =>
      rw [← List.cons_append, ← List.append_assoc]
      by_cases newline : c = '\n'
      · subst newline
        rw [lastLine_newline, lastLine_newline]
      · rw [lastLine_concat _ newline, lastLine_concat _ newline, ih]

private theorem lastLine_append {part : List Char} (within : '\n' ∉ part) (before : List Char) :
    lastLine (before ++ part) = lastLine before ++ part := by
  induction part using List.reverseRecOn with
  | nil => simp
  | append_singleton part c ih =>
      obtain ⟨inPart, other⟩ : '\n' ∉ part ∧ c ≠ '\n' := by
        simpa [eq_comm] using within
      rw [← List.append_assoc, lastLine_concat _ other, ih inPart, List.append_assoc]

theorem exists_lines (before : List Char) :
    ∃ lines, before = lines ++ lastLine before ∧
      before.reverse.dropWhile (· != '\n') = lines.reverse ∧
      (lines = [] ∨ ∃ front, lines = front ++ ['\n']) := by
  refine ⟨(before.reverse.dropWhile (· != '\n')).reverse, ?_, (List.reverse_reverse _).symm, ?_⟩
  · rw [lastLine, ← List.reverse_append, List.takeWhile_append_dropWhile, List.reverse_reverse]
  · have stopped := List.head?_dropWhile_not (· != '\n') before.reverse
    generalize before.reverse.dropWhile (· != '\n') = front at stopped
    cases front with
    | nil => exact Or.inl rfl
    | cons c front =>
        have newline : c = '\n' := by simpa using stopped
        exact Or.inr ⟨front.reverse, by rw [List.reverse_cons, newline]⟩

private theorem skipLines?_eq_some_iff {lines : Nat} {cs rest : List Char} :
    skipLines? lines cs = some rest ↔
      ∃ before, cs = before ++ rest ∧ before.count '\n' = lines ∧ lastLine before = [] := by
  induction lines generalizing cs with
  | zero =>
      constructor
      · intro skipped
        cases skipped
        exact ⟨[], rfl, rfl, rfl⟩
      · rintro ⟨before, rfl, count, started⟩
        have oneLine := lastLine_append (List.count_eq_zero.1 count) []
        rw [List.nil_append, started] at oneLine
        have empty : before = [] := oneLine.symm
        rw [empty]
        rfl
  | succ lines ih =>
      rw [skipLines?, Option.bind_eq_some_iff]
      constructor
      · rintro ⟨behind, next, skipped⟩
        obtain ⟨line, rfl, within⟩ := nextLine?_eq_some_iff.1 next
        obtain ⟨before, rfl, count, started⟩ := ih.1 skipped
        refine ⟨line ++ '\n' :: before, by simp, ?_, ?_⟩
        · rw [List.count_append, List.count_cons_self, List.count_eq_zero.2 within, count, Nat.zero_add]
        · rw [lastLine_append_newline, started]
      · rintro ⟨before, rfl, count, started⟩
        have member : '\n' ∈ before := List.count_pos_iff.1 (by omega)
        obtain ⟨line, after, rfl, within⟩ := List.eq_append_cons_of_mem member
        rw [List.count_append, List.count_cons_self, List.count_eq_zero.2 within, Nat.zero_add] at count
        rw [lastLine_append_newline] at started
        refine ⟨after ++ rest, nextLine?_eq_some_iff.2 ⟨line, by simp, within⟩, ?_⟩
        exact ih.2 ⟨after, rfl, Nat.succ.inj count, started⟩

private theorem skipInLine?_eq_some_iff {count : Nat} {cs rest : List Char} :
    skipInLine? count cs = some rest ↔
      ∃ part, cs = part ++ rest ∧ part.length = count ∧ '\n' ∉ part := by
  induction count generalizing cs with
  | zero =>
      constructor
      · intro skipped
        cases skipped
        exact ⟨[], rfl, rfl, List.not_mem_nil⟩
      · rintro ⟨part, rfl, size, _⟩
        rw [List.length_eq_zero_iff.1 size]
        rfl
  | succ count ih =>
      cases cs with
      | nil =>
          constructor
          · intro skipped
            cases skipped
          · rintro ⟨part, whole, size, _⟩
            rw [(List.append_eq_nil_iff.1 whole.symm).1] at size
            cases size
      | cons c cs =>
          rw [skipInLine?]
          constructor
          · intro skipped
            split at skipped
            · cases skipped
            next other =>
              obtain ⟨part, rfl, size, within⟩ := ih.1 skipped
              refine ⟨c :: part, rfl, by rw [List.length_cons, size], ?_⟩
              rw [List.mem_cons, not_or]
              exact ⟨fun newline => other (beq_iff_eq.2 newline.symm), within⟩
          · rintro ⟨part, whole, size, within⟩
            cases part with
            | nil => cases size
            | cons d part =>
                cases whole
                have other : ¬(c == '\n') = true := fun newline =>
                  List.ne_of_not_mem_cons within (beq_iff_eq.1 newline).symm
                rw [if_neg other]
                exact ih.2 ⟨part, rfl, Nat.succ.inj size, List.not_mem_of_not_mem_cons within⟩

/-- The places of a text are those where some front of it ends. -/
theorem offsetAt?_eq_some_iff {cs : List Char} {place : Nat × Nat} {offset : Nat} :
    offsetAt? cs place = some offset ↔
      ∃ before rest, cs = before ++ rest ∧ byteLength before = offset ∧
        endPlace before = place := by
  constructor
  · intro found
    match place, found with
    | (lines + 1, count + 1), found =>
        simp only [offsetAt?, Option.bind_eq_bind, Option.bind_eq_some_iff] at found
        obtain ⟨line, skipped, rest, within, start⟩ := found
        obtain ⟨before, rfl, isLine, started⟩ := skipLines?_eq_some_iff.1 skipped
        obtain ⟨part, rfl, size, sameLine⟩ := skipInLine?_eq_some_iff.1 within
        refine ⟨before ++ part, rest, by rw [List.append_assoc], ?_, ?_⟩
        · rw [← Option.some.inj start]
          simp only [byteLength_append]
          omega
        · rw [endPlace_eq, lastLine_append sameLine, started, List.count_append,
            List.count_eq_zero.2 sameLine, isLine, List.nil_append, size, Nat.add_zero]
  · rintro ⟨before, rest, rfl, rfl, rfl⟩
    obtain ⟨lines, whole, _, ended⟩ := exists_lines before
    have started : lastLine lines = [] := by
      rcases ended with rfl | ⟨front, rfl⟩
      · rfl
      · exact lastLine_newline front
    have within := newline_not_mem_lastLine before
    have count : lines.count '\n' = before.count '\n' := by
      conv => rhs; rw [whole]
      rw [List.count_append, List.count_eq_zero.2 within, Nat.add_zero]
    have skipped : skipLines? (before.count '\n') (before ++ rest) =
        some (lastLine before ++ rest) :=
      skipLines?_eq_some_iff.2 ⟨lines, by rw [← List.append_assoc, ← whole], count, started⟩
    have inLine : skipInLine? (lastLine before).length (lastLine before ++ rest) = some rest :=
      skipInLine?_eq_some_iff.2 ⟨_, rfl, rfl, within⟩
    rw [endPlace_eq, offsetAt?]
    simp only [skipped, inLine, Option.bind_eq_bind, Option.bind_some, byteLength_append]
    congr 1
    omega

section

variable {cs : List Char} {first second : Nat}

private theorem Precedes.irrefl (place : Nat × Nat) : ¬Precedes place place := by
  rw [Precedes, Prod.lex_def]
  omega

private theorem precedes_place_iff (left : isBoundary cs first = true)
    (right : isBoundary cs second = true) :
    Precedes (place cs first) (place cs second) ↔ first < second := by
  constructor
  · intro precedes
    rcases Nat.lt_trichotomy first second with before | same | behind
    · exact before
    · rw [same] at precedes
      exact absurd precedes (Precedes.irrefl _)
    · exact absurd (precedes.trans (precedes_place behind right left)) (Precedes.irrefl _)
  · intro before
    exact precedes_place before left right

/-- A line and a column lead to an offset exactly if that is a boundary whose place they are. -/
theorem offsetAt?_eq_some_iff_place {place' : Nat × Nat} {offset : Nat} :
    offsetAt? cs place' = some offset ↔ isBoundary cs offset = true ∧ place cs offset = place' := by
  rw [offsetAt?_eq_some_iff]
  constructor
  · rintro ⟨before, rest, rfl, rfl, rfl⟩
    exact ⟨isBoundary_byteLength before rest, place_eq rfl rfl⟩
  · rintro ⟨boundary, rfl⟩
    obtain ⟨before, rest, whole, size⟩ := exists_split_of_isBoundary boundary
    exact ⟨before, rest, whole, size, (place_eq whole size).symm⟩

end

/-- Boundaries and places of a text are in one order, and each leads back to the other: behind the
earlier lines and the earlier characters of its line a place has exactly the offset that it is the
place of, and no other line and column lead anywhere. -/
theorem place_orderIso (cs : List Char) :
    (∀ first second, isBoundary cs first = true → isBoundary cs second = true →
      (Precedes (place cs first) (place cs second) ↔ first < second)) ∧
    (∀ offset, isBoundary cs offset = true → offsetAt? cs (place cs offset) = some offset) ∧
    ∀ place' offset, offsetAt? cs place' = some offset →
      isBoundary cs offset = true ∧ place cs offset = place' := by
  refine ⟨fun first second left right => precedes_place_iff left right, ?_, ?_⟩
  · intro offset boundary
    exact offsetAt?_eq_some_iff_place.2 ⟨boundary, rfl⟩
  · intro place' offset found
    exact offsetAt?_eq_some_iff_place.1 found

/-- The last line of a text of two lines, in front of and behind a character of two bytes. -/
theorem place_orderIso_wide :
    Precedes (place ['a', '\n', 'é', 'b'] 2) (place ['a', '\n', 'é', 'b'] 4) ∧
    offsetAt? ['a', '\n', 'é', 'b'] (place ['a', '\n', 'é', 'b'] 4) = some 4 ∧
    place ['a', '\n', 'é', 'b'] 4 = (2, 2) := by
  obtain ⟨ordered, leads, back⟩ := place_orderIso ['a', '\n', 'é', 'b']
  exact ⟨(ordered 2 4 (by decide) (by decide)).2 (by decide), leads 4 (by decide),
    (back (2, 2) 4 (by decide)).2⟩

end ClassExpr.Text
