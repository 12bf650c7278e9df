import ClassExpr.Proofs.Comment
import ClassExpr.Proofs.Text.Occurrence
import ClassExpr.Tree

set_option autoImplicit false

/-! What each lexeme takes from the start of a window. A lexeme is never empty, and there is one
wherever a window starts with anything but white space. -/

namespace ClassExpr

namespace Tree

/-- The characters are all of the marker in front of what follows. -/
def IsMarker (lead following : List Char) : Prop :=
  lead = ['!'] ∨ lead = [] ∧ following.head? ≠ some '!'

theorem marker_append {lead following : List Char} (marked : IsMarker lead following) :
    marker (lead ++ following) = lead := by
  rcases marked with rfl | ⟨rfl, unmarked⟩
  · rfl
  · rw [marker, List.nil_append, beq_eq_false_iff_ne.2 unmarked]
    rfl

theorem marker_size {lead following : List Char} (marked : IsMarker lead following) :
    (!lead.isEmpty).toNat = Text.byteLength lead := by
  rcases marked with rfl | ⟨rfl, _⟩
  · rfl
  · rfl

theorem exists_marker (cs : List Char) :
    ∃ following, cs = marker cs ++ following ∧ IsMarker (marker cs) following ∧
      cs.drop (marker cs).length = following := by
  cases cs with
  | nil => exact ⟨[], rfl, Or.inr ⟨rfl, by simp⟩, rfl⟩
  | cons c cs =>
      by_cases bang : c = '!'
      · subst bang
        exact ⟨cs, rfl, Or.inl rfl, rfl⟩
      · have unmarked : marker (c :: cs) = [] := by
          rw [marker, List.head?_cons, beq_eq_false_iff_ne.2 (by simpa using bang)]
          rfl
        rw [unmarked]
        exact ⟨c :: cs, rfl, Or.inr ⟨rfl, by simpa using bang⟩, rfl⟩

end Tree

namespace Lexeme

open Text ClassExpr.Tree

/-- The characters of a class name, where each slash stands in front of such a character. -/
inductive IsBodyRun : List Char → Prop
  | nil : IsBodyRun []
  | char {c : Char} {cs : List Char} (body : isBody c = true) (more : IsBodyRun cs) :
      IsBodyRun (c :: cs)
  | slash {c : Char} {cs : List Char} (body : isBody c = true) (more : IsBodyRun cs) :
      IsBodyRun ('/' :: c :: cs)

/-- What may stand in front of a bracket: such characters, and a slash behind them. -/
def IsStem (stem : List Char) : Prop :=
  ∃ body, IsBodyRun body ∧ (stem = body ∨ stem = body ++ ['/'])

/-- The text that a lexeme takes, the rest of its window, and the lexeme. -/
inductive Scans (separator : List Char) (offset : Nat) :
    List Char → List Char → Lexeme → Prop
  | lineComment {taken rest : List Char} (spans : Comment.Spans taken rest)
      (starts : Comment.startsLine taken = true) :
      Scans separator offset taken rest (.lineComment (.ofChars offset taken))
  | blockComment {rest : List Char} :
      Scans separator offset ['/', '*'] rest (.blockComment (.ofChars offset ['/', '*']))
  | variant {name rest : List Char} (nonempty : name ≠ []) (named : ∀ c ∈ name, isName c = true) :
      Scans separator offset (name ++ separator) rest
        (.variant (.ofChars offset name) (.ofChars (offset + byteLength name) separator))
  | bracket {lead stem rest : List Char} (marked : IsMarker lead (stem ++ '[' :: rest))
      (isStem : IsStem stem) :
      Scans separator offset (lead ++ stem ++ ['[']) rest
        (.bracket offset (!lead.isEmpty) (.ofChars (offset + byteLength lead) stem))
  | className {lead body trail rest : List Char} (marked : IsMarker lead (body ++ trail ++ rest))
      (nonempty : body ≠ []) (run : IsBodyRun body) (trailing : IsMarker trail rest) :
      Scans separator offset (lead ++ body ++ trail) rest
        (.className (.ofChars offset (lead ++ body ++ trail))
          (.ofChars (offset + byteLength lead) body) (!lead.isEmpty || !trail.isEmpty))
  | group {lead rest : List Char} (marked : IsMarker lead ('(' :: rest)) :
      Scans separator offset (lead ++ ['(']) rest (.group offset (!lead.isEmpty))
  | unhandled {run rest : List Char} (nonempty : run ≠ []) :
      Scans separator offset run rest (.unhandled (.ofChars offset run))

theorem Scans.ne_nil {separator : List Char} {offset : Nat} {taken rest : List Char}
    {lexeme : Lexeme} (scans : Scans separator offset taken rest lexeme) : taken ≠ [] := by
  cases scans with
  | lineComment spans _ => exact spans.ne_nil
  | variant nonempty _ => simp [nonempty]
  | className _ nonempty _ _ => simp [nonempty]
  | unhandled nonempty => exact nonempty
  | blockComment => simp
  | bracket _ _ => simp
  | group _ => simp

theorem splitBody_cons (c : Char) (cs : List Char) :
    splitBody (c :: cs) =
      if isBody c || (c == '/' && cs.head?.any isBody) then
        (c :: (splitBody cs).1, (splitBody cs).2)
      else ([], c :: cs) :=
  splitRun_cons _ c cs

theorem splitBody_append (cs : List Char) : (splitBody cs).1 ++ (splitBody cs).2 = cs :=
  splitRun_append _ cs

theorem isBodyRun_splitBody (cs : List Char) : IsBodyRun (splitBody cs).1 := by
  induction cs with
  | nil => exact .nil
  | cons c cs ih =>
      rw [splitBody_cons]
      split
      next accepted =>
        by_cases body : isBody c = true
        · exact .char body ih
        · simp only [body, Bool.false_or, Bool.and_eq_true, beq_iff_eq] at accepted
          obtain ⟨rfl, followed⟩ := accepted
          cases cs with
          | nil => cases followed
          | cons d cs =>
              have inside : isBody d = true := followed
              rw [splitBody_cons, if_pos (by rw [inside, Bool.true_or])] at ih ⊢
              generalize (splitBody cs).1 = more at ih ⊢
              cases ih with
              | char _ more => exact .slash inside more
              | slash _ _ => exact absurd inside (by decide)
      · exact .nil

theorem splitRun_forall (accepts : Char → Bool) (cs : List Char) :
    (∀ c ∈ (splitRun (fun c _ => accepts c) cs).1, accepts c = true) ∧
      (splitRun (fun c _ => accepts c) cs).2.head?.all (fun c => !accepts c) = true := by
  induction cs with
  | nil => simp
  | cons c cs ih =>
      rw [splitRun_cons]
      by_cases accepted : accepts c = true
      · rw [if_pos accepted]
        refine ⟨?_, ih.2⟩
        intro d member
        rcases List.mem_cons.1 member with rfl | later
        · exact accepted
        · exact ih.1 d later
      · rw [if_neg accepted]
        simpa using accepted

theorem spans_of_lineComment {cs taken rest : List Char} (starts : Comment.startsLine cs = true)
    (split : splitRun (fun c _ => c != '\n') cs = (taken, rest)) :
    cs = taken ++ rest ∧ Comment.Spans taken rest ∧ Comment.startsLine taken = true := by
  obtain ⟨inside, rfl⟩ := Comment.startsLine_iff.1 starts
  have whole := splitRun_append (fun c _ => c != '\n') ('/' :: '/' :: inside)
  have ⟨accepted, maximal⟩ := splitRun_forall (· != '\n') ('/' :: '/' :: inside)
  rw [split] at whole accepted maximal
  rw [splitRun_cons, if_pos (by decide), splitRun_cons, if_pos (by decide)] at split
  obtain ⟨rfl, rfl⟩ := Prod.mk.inj split
  refine ⟨whole.symm, Comment.Spans.line ?_ (by simpa [bne] using maximal),
    Comment.startsLine_iff.2 ⟨_, rfl⟩⟩
  intro newline
  have refused := accepted '\n' (by simp [newline])
  cases refused

theorem splitVariant?_eq_some {separator cs name rest : List Char}
    (found : splitVariant? separator cs = some (name, rest)) :
    cs = name ++ separator ++ rest ∧ name ≠ [] ∧ ∀ c ∈ name, isName c = true := by
  unfold splitVariant? at found
  generalize acceptsAt : (fun c rest => isName c && !separator.isPrefixOf rest) = accepts at found
  have whole := splitRun_append accepts cs
  have names : ∀ c ∈ (splitRun accepts cs).1, isName c = true := by
    clear whole found
    induction cs with
    | nil => simp
    | cons c cs ih =>
        rw [splitRun_cons]
        split
        next accepted =>
          intro d member
          rcases List.mem_cons.1 member with rfl | later
          · rw [← acceptsAt] at accepted
            exact (Bool.and_eq_true_iff.1 accepted).1
          · exact ih d later
        · simp
  have maximal := splitRun_maximal accepts cs
  cases splitAt : splitRun accepts cs with
  | mk front stopped =>
      rw [splitAt] at found whole names maximal
      match stopped, found with
      | c :: after, found =>
          by_cases last : isName c = true
          · simp only [if_pos last, Option.some.injEq, Prod.mk.injEq] at found
            obtain ⟨rfl, rfl⟩ := found
            have refused := maximal c after rfl
            rw [← acceptsAt] at refused
            simp only [last, Bool.true_and, Bool.not_eq_false', List.isPrefixOf_iff_prefix]
              at refused
            obtain ⟨rest, rfl⟩ := refused
            refine ⟨by simp [← whole], by simp, ?_⟩
            intro d member
            rcases List.mem_append.1 member with earlier | same
            · exact names d earlier
            · rw [List.mem_singleton.1 same]
              exact last
          · simp [if_neg last] at found

theorem scanItem?_marked {lead following : List Char} (offset : Nat)
    (marked : IsMarker lead following) :
    scanItem? offset (lead ++ following) =
      let (body, rest) := splitBody following
      let (stem, opened) :=
        if rest.head? == some '/' then (body ++ ['/'], rest.tail) else (body, rest)
      if opened.head? == some '[' then
        some (.bracket offset (!lead.isEmpty) (.ofChars (offset + byteLength lead) stem),
          opened.tail)
      else if !body.isEmpty then
        some (.className (.ofChars offset (lead ++ body ++ marker rest))
          (.ofChars (offset + byteLength lead) body) (!lead.isEmpty || !(marker rest).isEmpty),
          rest.drop (marker rest).length)
      else if rest.head? == some '(' then some (.group offset (!lead.isEmpty), rest.tail)
      else
        match splitRun (fun c _ => !isBlank c) (lead ++ following) with
        | ([], _) => none
        | (run, rest) => some (.unhandled (.ofChars offset run), rest) := by
  rcases marked with rfl | ⟨rfl, unmarked⟩
  · rfl
  · rw [scanItem?, List.nil_append, beq_eq_false_iff_ne.2 unmarked]
    rfl

private theorem scans_of_scanItem? {separator cs rest : List Char} {offset : Nat} {lexeme : Lexeme}
    (scanned : scanItem? offset cs = some (lexeme, rest)) :
    ∃ taken, cs = taken ++ rest ∧ Scans separator offset taken rest lexeme := by
  obtain ⟨following, whole, marked, _⟩ := exists_marker cs
  generalize marker cs = lead at whole marked
  subst whole
  rw [scanItem?_marked offset marked] at scanned
  have parts := splitBody_append following
  have run := isBodyRun_splitBody following
  cases bodyAt : splitBody following with
  | mk body after =>
      rw [bodyAt] at scanned parts run
      subst parts
      -- the stem is the body with the slash that may stand between it and the bracket
      obtain ⟨stem, opened, stemAt, joined, isStem⟩ : ∃ stem opened,
          (if after.head? == some '/' then (body ++ ['/'], after.tail) else (body, after)) =
            (stem, opened) ∧ body ++ after = stem ++ opened ∧ IsStem stem := by
        by_cases slash : after.head? = some '/'
        · obtain ⟨later, rfl⟩ := List.head?_eq_some_iff.1 slash
          exact ⟨body ++ ['/'], later, by simp, by simp, body, run, Or.inr rfl⟩
        · exact ⟨body, after, by simp [slash], rfl, body, run, Or.inl rfl⟩
      simp only [stemAt] at scanned
      split at scanned
      next bracket =>
        obtain ⟨later, rfl⟩ := List.head?_eq_some_iff.1 (beq_iff_eq.1 bracket)
        cases scanned
        rw [joined] at marked ⊢
        exact ⟨lead ++ stem ++ ['['], by simp, Scans.bracket marked isStem⟩
      next =>
        split at scanned
        next nonempty =>
          obtain ⟨later, tail, trailing, dropped⟩ := exists_marker after
          rw [dropped] at scanned
          cases scanned
          generalize marker after = trail at tail trailing
          subst tail
          exact ⟨lead ++ body ++ trail, by simp,
            Scans.className (by simpa using marked) (by simpa using nonempty) run trailing⟩
        next empty =>
          have none : body = [] := by simpa using empty
          subst none
          split at scanned
          next group =>
            obtain ⟨later, rfl⟩ := List.head?_eq_some_iff.1 (beq_iff_eq.1 group)
            cases scanned
            exact ⟨lead ++ ['('], by simp, Scans.group marked⟩
          next =>
            have whole := splitRun_append (fun c _ => !isBlank c) (lead ++ ([] ++ after))
            split at scanned
            · cases scanned
            next run later nonempty split =>
              rw [split] at whole
              cases scanned
              exact ⟨run, whole.symm, Scans.unhandled nonempty⟩

theorem scans_of_scan? {separator cs rest : List Char} {offset : Nat} {lexeme : Lexeme}
    (scanned : scan? separator offset cs = some (lexeme, rest)) :
    ∃ taken, cs = taken ++ rest ∧ Scans separator offset taken rest lexeme := by
  unfold scan? at scanned
  split at scanned
  next line =>
    cases split : splitRun (fun c _ => c != '\n') cs with
    | mk comment later =>
        rw [split] at scanned
        cases scanned
        obtain ⟨whole, spans, starts⟩ := spans_of_lineComment line split
        exact ⟨comment, whole, Scans.lineComment spans starts⟩
  next =>
    split at scanned
    next block =>
      obtain ⟨inside, rfl⟩ := Comment.startsBlock_iff.1 block
      cases scanned
      exact ⟨['/', '*'], rfl, Scans.blockComment⟩
    next =>
      split at scanned
      next name later found =>
        obtain ⟨whole, nonempty, named⟩ := splitVariant?_eq_some found
        cases scanned
        rw [Token.stop_ofChars]
        exact ⟨name ++ separator, whole, Scans.variant nonempty named⟩
      next => exact scans_of_scanItem? scanned

def word? : Lexeme → Option Token
  | .variant identifier _ => some identifier
  | .bracket _ _ stem => some stem
  | .className _ body _ => some body
  | _ => none

theorem splitBody_forall (cs : List Char) :
    ∀ c ∈ (splitBody cs).1, isBody c = true ∨ c = '/' := by
  unfold splitBody
  induction cs with
  | nil => simp
  | cons c cs ih =>
      rw [splitRun_cons]
      split
      next accepted =>
        intro d member
        rcases List.mem_cons.1 member with rfl | later
        · rcases Bool.or_eq_true_iff.1 accepted with body | slash
          · exact Or.inl body
          · exact Or.inr (eq_of_beq (Bool.and_eq_true_iff.1 slash).1)
        · exact ih d later
      · simp

private theorem word_of_scanItem? {cs rest : List Char} {offset : Nat} {lexeme : Lexeme}
    (scanned : scanItem? offset cs = some (lexeme, rest)) :
    ∀ word ∈ lexeme.word?, ∀ c ∈ word.text.toList, isBody c = true ∨ c = '/' := by
  simp only [scanItem?] at scanned
  have legal := splitBody_forall (cs.drop (cs.head? == some '!').toNat)
  generalize splitBody (cs.drop (cs.head? == some '!').toNat) = parts at scanned legal
  have legalStem : ∀ c ∈ (if parts.2.head? == some '/' then (parts.1 ++ ['/'], parts.2.tail) else
      (parts.1, parts.2)).1, isBody c = true ∨ c = '/' := by
    intro c member
    split at member
    · rcases List.mem_append.1 member with inBody | last
      · exact legal c inBody
      · exact Or.inr (List.mem_singleton.1 last)
    · exact legal c member
  generalize (if parts.2.head? == some '/' then (parts.1 ++ ['/'], parts.2.tail) else
    (parts.1, parts.2)) = opened at scanned legalStem
  split at scanned
  · cases scanned
    rintro word ⟨⟩ c member
    rw [Token.ofChars, String.toList_ofList] at member
    exact legalStem c member
  · split at scanned
    · cases scanned
      rintro word ⟨⟩ c member
      rw [Token.ofChars, String.toList_ofList] at member
      exact legal c member
    · split at scanned
      · cases scanned
        rintro word ⟨⟩
      · split at scanned <;> cases scanned
        rintro word ⟨⟩

theorem word_of_scan? {separator cs rest : List Char} {offset : Nat} {lexeme : Lexeme}
    (scanned : scan? separator offset cs = some (lexeme, rest)) :
    ∀ word ∈ lexeme.word?, ∀ c ∈ word.text.toList, isBody c = true ∨ c = '/' := by
  unfold scan? at scanned
  split at scanned
  · cases scanned
    rintro word ⟨⟩
  · split at scanned
    · cases scanned
      rintro word ⟨⟩
    · split at scanned
      next name later found =>
        cases scanned
        rintro word ⟨⟩ c member
        rw [Token.ofChars, String.toList_ofList] at member
        have named := (splitVariant?_eq_some found).2.2 c member
        exact Or.inl (by rw [isBody, ← isName, named, Bool.true_or])
      · exact word_of_scanItem? scanned

theorem scanItem?_isSome {c : Char} {cs : List Char} {offset : Nat} (solid : isBlank c = false) :
    (scanItem? offset (c :: cs)).isSome = true := by
  have run : splitRun (fun c _ => !isBlank c) (c :: cs) =
      (c :: (splitRun (fun c _ => !isBlank c) cs).1, (splitRun (fun c _ => !isBlank c) cs).2) := by
    rw [splitRun_cons, if_pos (by simp [solid])]
  unfold scanItem?
  simp only [apply_ite Option.isSome, run, Option.isSome_some, ite_self]

theorem scan?_isSome {separator : List Char} {c : Char} {cs : List Char} {offset : Nat}
    (solid : isBlank c = false) : (scan? separator offset (c :: cs)).isSome = true := by
  unfold scan?
  split
  · rfl
  · split
    · rfl
    · split
      · rfl
      · exact scanItem?_isSome solid

/-- A window by its offsets is read as the text that stands in it. -/
theorem scanRange?_eq {separator text : String} {position stop : Nat} {cs : List Char}
    (occurs : Occurs text.toList position cs) (stops : position + byteLength cs = stop) :
    scanRange? separator text position stop =
      some ((scan? separator.toList position cs).map (·.1)) := by
  unfold scanRange?
  cases cs with
  | nil =>
      rw [byteLength_nil, Nat.add_zero] at stops
      rw [if_pos (Nat.le_of_eq stops.symm)]
      rfl
  | cons c cs =>
      have positive := c.utf8Size_pos
      have longer := stops
      rw [byteLength_cons] at longer
      rw [if_neg (by omega), ← stops, occurs.slice?_eq, Option.map_some]

end Lexeme

end ClassExpr
