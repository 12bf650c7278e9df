import ClassExpr.Proofs.Checked.Window
import ClassExpr.Proofs.Lexeme
import ClassExpr.Proofs.Tree.Items
import ClassExpr.Proofs.Typing.Lookahead

set_option autoImplicit false

/-! Lexing a text: over white space to the next lexeme, over the lexeme, and on from its end. Each
lexeme takes something, so this ends, and the lexemes with the white space between them are the
text. -/

namespace ClassExpr

namespace Lexeme

open Text ClassExpr.Tree

/-- Lexing from an offset on: where the lexemes start, and the lexemes. -/
inductive Lexing (separator text : String) (stop : Nat) : Nat → List (Nat × Lexeme) → Prop
  | done {position start : Nat} (skipped : skipBlankRange? text position stop = some start)
      (ended : scanRange? separator text start stop = some none) :
      Lexing separator text stop position []
  | next {position start : Nat} {lexeme : Lexeme} {later : List (Nat × Lexeme)}
      (skipped : skipBlankRange? text position stop = some start)
      (scanned : scanRange? separator text start stop = some (some lexeme))
      (more : Lexing separator text stop lexeme.stop later) :
      Lexing separator text stop position ((start, lexeme) :: later)

def markerToken (start stop : Nat) : Token :=
  .ofChars start (if start < stop then ['!'] else [])

/-- The tokens that a lexeme consists of, with its markers and the bracket or parenthesis that it
opens. -/
def parts : Lexeme → List Token
  | .lineComment token => [token]
  | .blockComment opener => [opener]
  | .variant identifier separator => [identifier, separator]
  | .bracket start important stem =>
      [markerToken start (start + important.toNat), stem, .ofChars stem.stop ['[']]
  | .className range body _ =>
      [markerToken range.start body.start, body, markerToken body.stop range.stop]
  | .group start important =>
      [markerToken start (start + important.toNat), .ofChars (start + important.toNat) ['(']]
  | .unhandled token => [token]

inductive Chained : Nat → List Token → Nat → Prop
  | nil {stop : Nat} : Chained stop [] stop
  | cons {token : Token} {later : List Token} {stop : Nat} (more : Chained token.stop later stop) :
      Chained token.start (token :: later) stop

/-- The lexeme stands at an offset and spells a text, part by part and as a whole. -/
structure Spells (lexeme : Lexeme) (offset : Nat) (taken : List Char) : Prop where
  chained : Chained offset lexeme.parts lexeme.stop
  spelled : lexeme.parts.flatMap (·.text.toList) = taken
  ranged : ∀ range body important, lexeme = .className range body important →
    range = .ofChars offset taken ∧
      important = (decide (range.start < body.start) || decide (body.stop < range.stop))

/-- Lexemes and white space from an offset on, up to the end. -/
inductive Tiles (text : List Char) (stop : Nat) : Nat → List (Nat × Lexeme) → Prop
  | done {position : Nat} (ordered : position ≤ stop)
      (blank : ∀ c ∈ between position stop text, isBlank c = true) : Tiles text stop position []
  | next {position start : Nat} {lexeme : Lexeme} {later : List (Nat × Lexeme)}
      (ordered : position ≤ start) (blank : ∀ c ∈ between position start text, isBlank c = true)
      (progress : start < lexeme.stop) (within : lexeme.stop ≤ stop)
      (boundary : isBoundary text start = true ∧ isBoundary text lexeme.stop = true)
      (spells : Spells lexeme start (between start lexeme.stop text))
      (more : Tiles text stop lexeme.stop later) :
      Tiles text stop position ((start, lexeme) :: later)

variable {separator text : String}

theorem Lexing.unique {position stop : Nat} {one two : List (Nat × Lexeme)}
    (first : Lexing separator text stop position one)
    (second : Lexing separator text stop position two) : one = two := by
  induction first generalizing two with
  | done skipped ended =>
      cases second with
      | done _ _ => rfl
      | next again scanned _ =>
          cases skipped.symm.trans again
          cases ended.symm.trans scanned
  | next skipped scanned _ ih =>
      cases second with
      | done again ended =>
          cases skipped.symm.trans again
          cases scanned.symm.trans ended
      | next again other more =>
          cases skipped.symm.trans again
          cases scanned.symm.trans other
          rw [ih more]

private theorem chained_ofChars {offset stop : Nat} {cs : List Char} {later : List Token}
    (more : Chained (offset + byteLength cs) later stop) :
    Chained offset (.ofChars offset cs :: later) stop := by
  rw [← Token.stop_ofChars] at more
  exact .cons more

private theorem markerToken_eq {lead following : List Char} (marked : IsMarker lead following)
    (offset : Nat) :
    markerToken offset (offset + byteLength lead) = .ofChars offset lead := by
  rcases marked with rfl | ⟨rfl, _⟩
  · have longer : offset < offset + byteLength ['!'] := by
      have size : byteLength ['!'] = 1 := by decide
      omega
    rw [markerToken, if_pos longer]
  · rw [markerToken, if_neg (by simp)]

private theorem isEmpty_eq {lead following : List Char} (marked : IsMarker lead following) :
    (!lead.isEmpty) = decide (0 < byteLength lead) := by
  rcases marked with rfl | ⟨rfl, _⟩
  · decide
  · rfl

private theorem spells_single {lexeme : Lexeme} {offset : Nat} {taken : List Char}
    (single : lexeme.parts = [.ofChars offset taken])
    (stops : lexeme.stop = offset + byteLength taken)
    (unranged : ∀ range body important, lexeme ≠ .className range body important) :
    Spells lexeme offset taken where
  chained := by
    rw [single, stops]
    exact chained_ofChars .nil
  spelled := by rw [single, List.flatMap_singleton, Token.toList_ofChars]
  ranged range body important same := absurd same (unranged range body important)

private theorem spells_of_scans {separator : List Char} {offset : Nat} {taken rest : List Char}
    {lexeme : Lexeme} (scans : Scans separator offset taken rest lexeme) :
    lexeme.stop = offset + byteLength taken ∧ Spells lexeme offset taken := by
  cases scans with
  | lineComment _ _ =>
      have stops := Token.stop_ofChars offset taken
      exact ⟨stops, spells_single rfl stops (by simp)⟩
  | blockComment =>
      have stops := Token.stop_ofChars offset ['/', '*']
      exact ⟨stops, spells_single rfl stops (by simp)⟩
  | unhandled _ =>
      have stops := Token.stop_ofChars offset taken
      exact ⟨stops, spells_single rfl stops (by simp)⟩
  | @variant name _ _ _ =>
      refine ⟨by simp [stop, Nat.add_assoc], ⟨?_, by simp [parts], by simp⟩⟩
      rw [stop, Token.stop_ofChars]
      exact chained_ofChars (chained_ofChars .nil)
  | @bracket lead stem _ marked _ =>
      have size : byteLength ['['] = 1 := by decide
      have front := markerToken_eq marked offset
      rw [← marker_size marked] at front
      refine ⟨by simp [stop, size, Nat.add_assoc], ⟨?_, ?_, by simp⟩⟩
      · rw [parts, front, stop, Token.stop_ofChars]
        exact chained_ofChars (chained_ofChars (chained_ofChars .nil))
      · rw [parts, front]
        simp
  | @className lead body trail _ marked _ _ trailing =>
      have stops : offset + byteLength (lead ++ body ++ trail) =
          offset + byteLength lead + byteLength body + byteLength trail := by
        simp [Nat.add_assoc]
      have front := markerToken_eq marked offset
      have back := markerToken_eq trailing (offset + byteLength lead + byteLength body)
      refine ⟨Token.stop_ofChars offset _, ⟨?_, ?_, ?_⟩⟩
      · simp only [parts, stop, Token.start_ofChars, Token.stop_ofChars, stops, front, back]
        exact chained_ofChars (chained_ofChars (chained_ofChars .nil))
      · simp only [parts, Token.start_ofChars, Token.stop_ofChars, stops, front, back]
        simp
      · rintro _ _ _ ⟨⟩
        simp only [Token.start_ofChars, Token.stop_ofChars, stops, isEmpty_eq marked,
          isEmpty_eq trailing, Nat.lt_add_right_iff_pos, true_and]
  | @group lead _ marked =>
      have size : byteLength ['('] = 1 := by decide
      have front := markerToken_eq marked offset
      rw [← marker_size marked] at front
      refine ⟨by simp [stop, size, marker_size marked, Nat.add_assoc], ⟨?_, ?_, by simp⟩⟩
      · rw [parts, front, stop, marker_size marked]
        exact chained_ofChars (chained_ofChars .nil)
      · rw [parts, front]
        simp

section Scan

variable {separator : List Char} {offset : Nat} {done : List Lexeme}

private theorem scanAll_blanks {front rest : List Char} (blank : ∀ c ∈ front, isBlank c = true) :
    scanAll separator offset 0 (front ++ rest) done =
      scanAll separator (offset + byteLength front) 0 rest done := by
  induction front generalizing offset with
  | nil => rfl
  | cons c front ih =>
      have white := blank c List.mem_cons_self
      rw [List.cons_append, scanAll, if_pos (by rw [white, Bool.or_true]), Nat.zero_sub,
        ih fun d member => blank d (List.mem_cons_of_mem c member), byteLength_cons, Nat.add_assoc]

private theorem scanAll_pass (taken rest : List Char) :
    scanAll separator offset (byteLength taken) (taken ++ rest) done =
      scanAll separator (offset + byteLength taken) 0 rest done := by
  induction taken generalizing offset with
  | nil => rfl
  | cons c taken ih =>
      have passing : 0 < c.utf8Size + byteLength taken :=
        Nat.add_pos_left c.utf8Size_pos (byteLength taken)
      rw [List.cons_append, byteLength_cons, scanAll,
        if_pos (by rw [decide_eq_true passing, Bool.true_or]),
        Nat.add_sub_cancel_left, ih, Nat.add_assoc]

private theorem scanAll_scan {taken rest : List Char} {lexeme : Lexeme}
    (scanned : scan? separator offset (taken ++ rest) = some (lexeme, rest))
    (nonempty : taken ≠ []) (solid : (taken ++ rest).head?.all (fun c => !isBlank c) = true)
    (stops : lexeme.stop = offset + byteLength taken) :
    scanAll separator offset 0 (taken ++ rest) done =
      scanAll separator lexeme.stop 0 rest (lexeme :: done) := by
  cases taken with
  | nil => exact absurd rfl nonempty
  | cons c taken =>
      have visible : isBlank c = false := by simpa using solid
      rw [List.cons_append] at scanned ⊢
      rw [scanAll, if_neg (by simp [visible]), scanned]
      simp only [stops, byteLength_cons]
      rw [show offset + (c.utf8Size + byteLength taken) - (offset + c.utf8Size) =
          byteLength taken by omega, scanAll_pass, Nat.add_assoc]

end Scan

private theorem turn_cases (separator : List Char) (position : Nat) (cs : List Char) :
    (∀ c ∈ cs, isBlank c = true) ∧ skipBlank position cs = (position + byteLength cs, []) ∨
      ∃ front taken after lexeme, cs = front ++ (taken ++ after) ∧
        (∀ c ∈ front, isBlank c = true) ∧
        (taken ++ after).head?.all (fun c => !isBlank c) = true ∧
        skipBlank position cs = (position + byteLength front, taken ++ after) ∧
        scan? separator (position + byteLength front) (taken ++ after) = some (lexeme, after) ∧
        Scans separator (position + byteLength front) taken after lexeme := by
  obtain ⟨front, rest, rfl, blank, solid, skip⟩ := skipBlank_eq position cs
  cases rest with
  | nil =>
      rw [List.append_nil] at skip ⊢
      exact Or.inl ⟨blank, skip⟩
  | cons c rest =>
      have visible : isBlank c = false := by simpa using solid
      obtain ⟨⟨lexeme, after⟩, scanned⟩ := Option.isSome_iff_exists.1
        (@scan?_isSome separator c rest (position + byteLength front) visible)
      obtain ⟨taken, whole, scans⟩ := scans_of_scan? scanned
      rw [whole] at scanned solid skip ⊢
      exact Or.inr ⟨front, taken, after, lexeme, rfl, blank, solid, skip, scanned, scans⟩

private theorem tiles_done {text : List Char} {position stop : Nat} {cs : List Char}
    (occurs : Occurs text position cs) (ends : position + byteLength cs = stop)
    (blank : ∀ c ∈ cs, isBlank c = true) : Tiles text stop position [] := by
  have window := occurs.between_eq
  rw [ends] at window
  refine .done ?_ ?_
  · rw [← ends]
    exact Nat.le_add_right position (byteLength cs)
  · rwa [window]

private theorem tiles_next {text separator front taken after : List Char} {position stop : Nat}
    {lexeme : Lexeme} {later : List (Nat × Lexeme)}
    (occurs : Occurs text position (front ++ (taken ++ after)))
    (ends : position + byteLength (front ++ (taken ++ after)) = stop)
    (blank : ∀ c ∈ front, isBlank c = true)
    (scans : Scans separator (position + byteLength front) taken after lexeme)
    (more : Tiles text stop lexeme.stop later) :
    Tiles text stop position ((position + byteLength front, lexeme) :: later) := by
  obtain ⟨stops, spells⟩ := spells_of_scans scans
  have atStart := occurs.right.left
  have gap := occurs.left.between_eq
  have window := atStart.between_eq
  have boundary := atStart.stop_isBoundary
  rw [← stops] at window boundary
  have positive := byteLength_pos scans.ne_nil
  rw [byteLength_append, byteLength_append] at ends
  refine .next (Nat.le_add_right _ _) ?_ ?_ ?_ ⟨atStart.start_isBoundary, boundary⟩ ?_ more
  · rwa [gap]
  · omega
  · omega
  · rwa [window]

/-- What lexing a window makes of it, by induction on its length: each lexeme takes something. -/
theorem exists_lexing {position stop : Nat} {cs : List Char}
    (occurs : Occurs text.toList position cs) (ends : position + byteLength cs = stop) :
    ∃ entries, Lexing separator text stop position entries ∧
      (∀ done, scanAll separator.toList position 0 cs done =
        done.reverse ++ entries.map (·.2)) ∧
      entries.length ≤ byteLength cs ∧ Tiles text.toList stop position entries := by
  generalize sizeAt : cs.length = size
  induction size using Nat.strongRecOn generalizing position cs with
  | ind size ih =>
      have skipped := Checked.skipBlankRange?_eq occurs ends
      rcases turn_cases separator.toList position cs with
        ⟨blank, skip⟩ | ⟨front, taken, after, lexeme, rfl, blank, solid, skip, scanned, scans⟩
      · rw [skip, ends] at skipped
        have ended : scanRange? separator text stop stop = some none :=
          if_pos (Nat.le_refl stop)
        refine ⟨[], .done skipped ended, ?_, Nat.zero_le _, tiles_done occurs ends blank⟩
        intro done
        have passed := @scanAll_blanks separator.toList position done cs [] blank
        rw [List.append_nil] at passed
        rw [passed, scanAll, List.map_nil, List.append_nil]
      · rw [skip] at skipped
        have stops := (spells_of_scans scans).1
        have atRest := occurs.right
        have restEnds : position + byteLength front + byteLength (taken ++ after) = stop := by
          rw [← ends, byteLength_append front, Nat.add_assoc]
        have scanAt := @scanRange?_eq separator text _ _ _ atRest restEnds
        rw [scanned] at scanAt
        have further := atRest.right
        rw [← stops] at further
        have behind : lexeme.stop + byteLength after = stop := by
          rw [stops, ← restEnds, byteLength_append, Nat.add_assoc]
        have shorter : after.length < size := by
          have taking := List.length_pos_iff.2 scans.ne_nil
          rw [List.length_append, List.length_append] at sizeAt
          omega
        obtain ⟨entries, lexing, all, few, tiles⟩ := ih after.length shorter further behind rfl
        refine ⟨(position + byteLength front, lexeme) :: entries, .next skipped scanAt lexing, ?_,
          ?_, tiles_next occurs ends blank scans tiles⟩
        · intro done
          rw [scanAll_blanks blank, scanAll_scan scanned scans.ne_nil solid stops, all,
            List.reverse_cons, List.append_assoc]
          rfl
        · have positive := byteLength_pos scans.ne_nil
          rw [List.length_cons, byteLength_append, byteLength_append]
          omega

/-- Lexing between two boundaries ends, in one way only. It comes past each character: those that
are not in a lexeme are white space. -/
theorem exists_lexing_tiles (separator text : String) {position stop : Nat}
    (ordered : position ≤ stop) (starts : isBoundary text.toList position = true)
    (stops : isBoundary text.toList stop = true) :
    ∃ entries, Lexing separator text stop position entries ∧
      (∀ others, Lexing separator text stop position others → others = entries) ∧
      scanAllRange? separator text position stop = some (entries.map (·.2)) ∧
      entries.length ≤ stop - position ∧ Tiles text.toList stop position entries := by
  have ⟨occurs, ends⟩ := occurs_between ordered starts stops
  generalize between position stop text.toList = window at occurs ends
  obtain ⟨entries, lexing, all, few, tiles⟩ := @exists_lexing separator text _ _ _ occurs ends
  refine ⟨entries, lexing, fun others other => other.unique lexing, ?_, by omega, tiles⟩
  have whole := all []
  rw [List.reverse_nil, List.nil_append] at whole
  unfold scanAllRange?
  split
  next reached =>
    have empty : byteLength window = 0 := by omega
    rw [List.length_eq_zero_iff.1 (by omega : entries.length = 0), List.map_nil]
  next =>
    rw [← ends, occurs.slice?_eq, Option.map_some, whole]

/-- A separator that takes nothing makes a variant of each letter. -/
theorem exists_lexing_tiles_unseparated :
    Tiles "é b//c ".toList 8 2
      [(3, .variant (.ofChars 3 ['b']) (.ofChars 4 [])),
        (4, .lineComment (.ofChars 4 ['/', '/', 'c', ' ']))] := by
  obtain ⟨entries, _, unique, _, _, tiles⟩ :=
    @exists_lexing_tiles "" "é b//c " 2 8 (by decide) (by decide) (by decide)
  have lexing : Lexing "" "é b//c " 8 2
      [(3, .variant (.ofChars 3 ['b']) (.ofChars 4 [])),
        (4, .lineComment (.ofChars 4 ['/', '/', 'c', ' ']))] :=
    .next (by decide) (by decide) (.next (by decide) (by decide)
      (@Lexing.done _ _ _ _ 8 (by decide) (by decide)))
  rw [unique _ lexing]
  exact tiles

end Lexeme

end ClassExpr
