import ClassExpr.Proofs.Body
import ClassExpr.Proofs.Bracket
import ClassExpr.Proofs.Lexeme
import ClassExpr.Proofs.Settings
import ClassExpr.Proofs.Spacing.Relation

set_option autoImplicit false

/-! Reading two texts that differ in white space only, as long as there are no comments, brackets
and quotes in them. Lexemes and the closers of groups are found at the same characters. The bodies
of variants are not, as white space that is not of ASCII does not end them; but a body that has no
such white space outside of groups is found in both texts. -/

namespace ClassExpr

open Text

def isFree (c : Char) : Bool :=
  !(c == '[' || c == ']' || c == '/' || c == '\\' || c == '\'' || c == '"')

def Free (cs : List Char) : Prop :=
  ∀ c ∈ cs, isFree c = true

theorem Free.ne {c d : Char} (free : isFree c = true) (special : isFree d = false) : c ≠ d := by
  rintro rfl
  rw [free] at special
  cases special

private theorem Free.head?_ne {cs : List Char} (free : Free cs) {d : Char}
    (special : isFree d = false) :
    (cs.head? == some d) = false := by
  cases cs with
  | nil => rfl
  | cons c cs => simpa using Free.ne (free c List.mem_cons_self) special

theorem Free.of_append {cs others : List Char} (free : Free (cs ++ others)) :
    Free cs ∧ Free others :=
  ⟨fun c member => free c (List.mem_append_left _ member),
    fun c member => free c (List.mem_append_right _ member)⟩

theorem Free.no_comment {cs : List Char} (free : Free cs) :
    Comment.startsLine cs = false ∧ Comment.startsBlock cs = false := by
  refine Comment.no_start fun slash => ?_
  have none := free.head?_ne (d := '/') rfl
  rw [slash] at none
  cases none

theorem Free.spaced {cs others : List Char} (free : Free cs) (later : Spaced cs others) :
    Free others := by
  intro c member
  rcases later.mem_of_mem c member with rfl | same
  · rfl
  · exact free c same

/-! ### Lexemes -/

namespace Lexeme

/-- One lexeme that is read at two offsets, and the text it takes. -/
inductive Alike (separator : List Char) (offset offset' : Nat) : List Char → Lexeme → Lexeme → Prop
  | variant (name : List Char) :
      Alike separator offset offset' (name ++ separator)
        (.variant (.ofChars offset name) (.ofChars (offset + byteLength name) separator))
        (.variant (.ofChars offset' name) (.ofChars (offset' + byteLength name) separator))
  | className {lead body trail : List Char} (solid : ∀ c ∈ body, isBlank c = false)
      (important : Bool) :
      Alike separator offset offset' (lead ++ body ++ trail)
        (.className (.ofChars offset (lead ++ body ++ trail))
          (.ofChars (offset + byteLength lead) body) important)
        (.className (.ofChars offset' (lead ++ body ++ trail))
          (.ofChars (offset' + byteLength lead) body) important)
  | group {lead rest : List Char} (marked : Tree.IsMarker lead ('(' :: rest)) :
      Alike separator offset offset' (lead ++ ['(']) (.group offset (!lead.isEmpty))
        (.group offset' (!lead.isEmpty))
  | unhandled {run : List Char} (solid : ∀ c ∈ run, isBlank c = false) :
      Alike separator offset offset' run (.unhandled (.ofChars offset run))
        (.unhandled (.ofChars offset' run))

variable {separator cs others : List Char}

def wideBlanks : List Nat :=
  [0x85, 0xA0, 0x1680, 0x2000, 0x2001, 0x2002, 0x2003, 0x2004, 0x2005, 0x2006, 0x2007, 0x2008,
    0x2009, 0x200A, 0x2028, 0x2029, 0x202F, 0x205F, 0x3000]

private theorem isWord_blank {c : Char} (blank : isBlank c = true) : isWord c = false := by
  have known : (0x9 ≤ c.toNat ∧ c.toNat ≤ 0xD ∨ c.toNat = 0x20) ∨ c.toNat ∈ wideBlanks := by
    simp only [isBlank, Bool.or_eq_true, Bool.and_eq_true, decide_eq_true_eq, beq_iff_eq] at blank
    simp only [wideBlanks, List.mem_cons, List.not_mem_nil, or_false]
    omega
  rw [isWord]
  split
  next ascii =>
    rw [Bool.eq_false_iff]
    intro word
    have bounds := toNat_of_isAsciiWord word
    rcases known with narrow | wide
    · omega
    · simp only [wideBlanks, List.mem_cons, List.not_mem_nil, or_false] at wide
      omega
  next wide =>
    have apart : ∀ n ∈ wideBlanks, inRanges wordRanges n = false := by decide +kernel
    exact apart c.toNat (known.resolve_left (by omega))

private theorem isName_blank {c : Char} (blank : isBlank c = true) : isName c = false := by
  rw [isName, isWord_blank blank, Bool.false_or]
  exact beq_of_blank rfl blank

private theorem isBody_blank {c : Char} (blank : isBlank c = true) : isBody c = false := by
  rw [isBody, isWord_blank blank, Bool.false_or, Bool.or_eq_false_iff]
  exact ⟨beq_of_blank rfl blank, beq_of_blank rfl blank⟩

private theorem splitVariant?_of_run {front rest : List Char} {c : Char}
    (run : splitRun (fun c rest => isName c && !separator.isPrefixOf rest) cs = (front, c :: rest)) :
    splitVariant? separator cs =
      if isName c then some (front ++ [c], rest.drop separator.length) else none := by
  unfold splitVariant?
  rw [run]

private theorem splitVariant?_blank {front rest : List Char} (blank : ∀ c ∈ rest, isBlank c = true)
    (run : splitRun (fun c rest => isName c && !separator.isPrefixOf rest) cs = (front, rest)) :
    splitVariant? separator cs = none := by
  cases rest with
  | nil =>
      unfold splitVariant?
      rw [run]
  | cons c rest =>
      rw [splitVariant?_of_run run, isName_blank (blank c List.mem_cons_self),
        if_neg Bool.false_ne_true]

private theorem splitVariant?_spaced (sound : Settings.SoundSeparator separator)
    (later : Spaced cs others) :
    (splitVariant? separator cs = none ∧ splitVariant? separator others = none) ∨
      ∃ name rest rest', splitVariant? separator cs = some (name, rest) ∧
        splitVariant? separator others = some (name, rest') ∧ Spaced rest rest' := by
  have runs := later.splitRun (fun c rest => isName c && !separator.isPrefixOf rest)
    (fun c cs blank => by rw [isName_blank blank, Bool.false_and])
    (fun c cs others later => by rw [later.isPrefixOf sound.solid])
  have maximal := splitRun_maximal (fun c rest => isName c && !separator.isPrefixOf rest) cs
  generalize run : splitRun (fun c rest => isName c && !separator.isPrefixOf rest) cs = parts at *
  generalize run' : splitRun (fun c rest => isName c && !separator.isPrefixOf rest) others = parts'
    at *
  obtain ⟨front, stopped⟩ := parts
  obtain ⟨front', stopped'⟩ := parts'
  obtain ⟨rfl, stops⟩ : front' = front ∧ Spaced stopped stopped' := runs
  cases stops with
  | ended blank spaces =>
      exact Or.inl ⟨splitVariant?_blank blank run,
        splitVariant?_blank (blank_of_spaces spaces) run'⟩
  | @cons c cs others later =>
      rw [splitVariant?_of_run run, splitVariant?_of_run run',
        accepts_spaced isName fun _ => isName_blank]
      cases named : isName c with
      | false => exact Or.inl ⟨rfl, rfl⟩
      | true =>
          have solid : isBlank c = false := by
            rw [Bool.eq_false_iff]
            intro blank
            rw [isName_blank blank] at named
            cases named
          -- the name ends where the separator follows
          have follows := maximal c cs rfl
          simp only [named, Bool.true_and, Bool.not_eq_false', List.isPrefixOf_iff_prefix]
            at follows
          obtain ⟨rest, rfl⟩ := follows
          have noBlank : separator.map spaced = separator := map_spaced sound.solid
          obtain ⟨rest', rfl, spaced⟩ := later.exists_rest separator fun d isLast =>
            sound.solid d (List.mem_of_getLast? isLast)
          rw [spaced_solid solid, noBlank, List.drop_left, List.drop_left]
          exact Or.inr ⟨front' ++ [c], rest, rest', rfl, rfl, spaced⟩

private theorem splitBody_spaced (later : Spaced cs others) :
    ∃ body rest rest', splitBody cs = (body, rest) ∧ splitBody others = (body, rest') ∧
      cs = body ++ rest ∧ others = body ++ rest' ∧ (∀ c ∈ body, isBlank c = false) ∧
      Spaced rest rest' := by
  obtain ⟨same, rests⟩ := later.splitRun
    (fun c rest => isBody c || (c == '/' && rest.head?.any isBody))
    (fun c cs blank => by
      rw [isBody_blank blank, beq_of_blank rfl blank, Bool.false_and, Bool.or_false])
    (fun c cs others later => by rw [later.head?_any isBody fun _ => isBody_blank])
  change (splitBody others).1 = (splitBody cs).1 at same
  have whole : (splitBody cs).1 ++ (splitBody cs).2 = cs := splitRun_append _ cs
  have whole' : (splitBody others).1 ++ (splitBody others).2 = others := splitRun_append _ others
  rw [same] at whole'
  refine ⟨(splitBody cs).1, _, _, rfl, by rw [← same], whole.symm, whole'.symm, ?_, rests⟩
  intro c member
  rcases splitBody_forall cs c member with body | rfl
  · cases blank : isBlank c with
    | false => rfl
    | true =>
        rw [isBody_blank blank] at body
        cases body
  · rfl

theorem marker_spaced (later : Spaced cs others) :
    Tree.marker others = Tree.marker cs ∧ ∃ rest rest', cs = Tree.marker cs ++ rest ∧
      others = Tree.marker cs ++ rest' ∧ Tree.IsMarker (Tree.marker cs) rest ∧
      Tree.IsMarker (Tree.marker cs) rest' ∧ Spaced rest rest' := by
  have same : Tree.marker others = Tree.marker cs := by
    have first := later.head?_beq (d := '!') rfl
    cases bang : cs.head? == some '!' with
    | false =>
        rw [Tree.marker, Tree.marker, first, bang, Bool.toNat_false, List.take_zero, List.take_zero]
    | true =>
        rw [bang] at first
        obtain ⟨_, rfl⟩ := List.head?_eq_some_iff.1 (beq_iff_eq.1 bang)
        obtain ⟨_, rfl⟩ := List.head?_eq_some_iff.1 (beq_iff_eq.1 first)
        rfl
  obtain ⟨rest, whole, marked, _⟩ := Tree.exists_marker cs
  obtain ⟨rest', whole', marked', _⟩ := Tree.exists_marker others
  rw [same] at whole' marked'
  refine ⟨same, rest, rest', whole, whole', marked, marked', ?_⟩
  rw [whole, whole'] at later
  rcases marked with bang | ⟨none, _⟩
  · rw [bang] at later
    exact later.of_cons rfl
  · rw [none] at later
    exact later

private theorem scanItem?_free {lead following body rest : List Char} (offset : Nat)
    (marked : Tree.IsMarker lead following) (parts : splitBody following = (body, rest))
    (free : Free rest) :
    scanItem? offset (lead ++ following) =
      if !body.isEmpty then
        some (.className (.ofChars offset (lead ++ body ++ Tree.marker rest))
          (.ofChars (offset + byteLength lead) body)
          (!lead.isEmpty || !(Tree.marker rest).isEmpty), rest.drop (Tree.marker rest).length)
      else if rest.head? == some '(' then some (.group offset (!lead.isEmpty), rest.tail)
      else
        match splitRun (fun c _ => !isBlank c) (lead ++ following) with
        | ([], _) => none
        | (run, rest) => some (.unhandled (.ofChars offset run), rest) := by
  have noSlash : (rest.head? == some '/') = false := free.head?_ne rfl
  have noBracket : (rest.head? == some '[') = false := free.head?_ne rfl
  rw [scanItem?_marked offset marked, parts]
  dsimp only
  rw [noSlash, if_neg Bool.false_ne_true]
  dsimp only
  rw [noBracket]
  rfl

private theorem scanItem?_spaced (free : Free cs) (later : Spaced cs others)
    (offset offset' : Nat) :
    (scanItem? offset cs = none ∧ scanItem? offset' others = none) ∨
      ∃ text lexeme lexeme' rest rest', cs = text ++ rest ∧ others = text ++ rest' ∧
        scanItem? offset cs = some (lexeme, rest) ∧
        scanItem? offset' others = some (lexeme', rest') ∧
        Alike separator offset offset' text lexeme lexeme' ∧ Spaced rest rest' := by
  have runs := later.splitRun (fun c _ => !isBlank c) (by simp) (by simp)
  have solidRun := (splitRun_forall (fun c => !isBlank c) cs).1
  have wholeRun := splitRun_append (fun c _ => !isBlank c) cs
  have wholeRun' := splitRun_append (fun c _ => !isBlank c) others
  obtain ⟨_, text, text', whole, whole', marked, marked', following⟩ := marker_spaced later
  generalize Tree.marker cs = lead at *
  subst whole whole'
  obtain ⟨body, rest, rest', parts, parts', ends, ends', solid, rests⟩ := splitBody_spaced following
  have freeRest : Free rest := (ends ▸ free.of_append.2).of_append.2
  rw [scanItem?_free offset marked parts freeRest,
    scanItem?_free offset' marked' parts' (freeRest.spaced rests)]
  subst ends ends'
  cases empty : body.isEmpty with
  | false =>
      obtain ⟨sameTrail, behind, behind', parts, parts', _, _, spaced⟩ := marker_spaced rests
      rw [sameTrail]
      generalize Tree.marker rest = trail at *
      subst parts parts'
      rw [List.drop_left, List.drop_left]
      exact Or.inr ⟨lead ++ body ++ trail, _, _, behind, behind', by simp, by simp, rfl, rfl,
        Alike.className solid _, spaced⟩
  | true =>
      obtain rfl : body = [] := List.isEmpty_iff.1 empty
      simp only [Bool.not_true, Bool.false_eq_true, if_false, List.nil_append] at *
      rw [rests.head?_beq (d := '(') rfl]
      cases opens : rest.head? == some '(' with
      | true =>
          obtain ⟨inner, rfl⟩ := List.head?_eq_some_iff.1 (beq_iff_eq.1 opens)
          obtain ⟨inner', rfl, spaced⟩ := rests.exists_rest ['('] (by simp; decide)
          exact Or.inr ⟨lead ++ ['('], _, _, inner, inner', by simp, by simp; rfl, rfl, rfl,
            Alike.group marked, spaced⟩
      | false =>
          simp only [Bool.false_eq_true, if_false]
          generalize splitRun (fun c _ => !isBlank c) (lead ++ rest) = found at *
          generalize splitRun (fun c _ => !isBlank c) (lead ++ rest') = found' at *
          obtain ⟨run, left⟩ := found
          obtain ⟨run', left'⟩ := found'
          obtain ⟨rfl, spaced⟩ : run' = run ∧ Spaced left left' := runs
          cases run' with
          | nil => exact Or.inl ⟨rfl, rfl⟩
          | cons c run =>
              exact Or.inr ⟨c :: run, _, _, left, left', wholeRun.symm, wholeRun'.symm, rfl, rfl,
                Alike.unhandled (by simpa using solidRun), spaced⟩

theorem scan?_spaced (sound : Settings.SoundSeparator separator) (free : Free cs)
    (later : Spaced cs others) (offset offset' : Nat) :
    (scan? separator offset cs = none ∧ scan? separator offset' others = none) ∨
      ∃ text lexeme lexeme' rest rest', cs = text ++ rest ∧ others = text ++ rest' ∧
        scan? separator offset cs = some (lexeme, rest) ∧
        scan? separator offset' others = some (lexeme', rest') ∧
        Alike separator offset offset' text lexeme lexeme' ∧ Spaced rest rest' := by
  obtain ⟨noLine, noBlock⟩ := free.no_comment
  obtain ⟨noLine', noBlock'⟩ := (free.spaced later).no_comment
  rw [scan?, scan?, noLine, noBlock, noLine', noBlock']
  simp only [Bool.false_eq_true, if_false]
  rcases splitVariant?_spaced sound later with ⟨none, none'⟩ | ⟨name, rest, rest', found, found', spaced⟩
  · rw [none, none']
    exact scanItem?_spaced free later offset offset'
  · rw [found, found']
    simp only [Token.stop_ofChars]
    exact Or.inr ⟨name ++ separator, _, _, rest, rest', (splitVariant?_eq_some found).1,
      (splitVariant?_eq_some found').1, rfl, rfl, Alike.variant name, spaced⟩

end Lexeme

end ClassExpr
