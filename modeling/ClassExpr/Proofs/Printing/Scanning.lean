import ClassExpr.Proofs.Printing.Extent
import ClassExpr.Proofs.Printing.Flatten
import ClassExpr.Proofs.Tree.Reading

set_option autoImplicit false

/-! How printed text is scanned. A printed name is a variant only in front of a separator; every
other phrase starts with the lexeme of its own kind, and that lexeme begins the node it should. -/

namespace ClassExpr.Printing

open Text ClassExpr.Tree Lexeme

def reading : Reading :=
  ⟨[':'], none⟩

private theorem isBody_of_isWordChar {c : Char} (word : isWordChar c = true) : isBody c = true := by
  simp only [isWordChar, isNameChar, Bool.or_eq_true, beq_iff_eq] at word
  rcases word with (ascii | rfl) | rfl
  · have bounds := toNat_of_isAsciiWord ascii
    rw [isBody, isWord_of_ascii (by omega), ascii]
    rfl
  · rfl
  · rfl

theorem isName_of_isNameChar {c : Char} (name : isNameChar c = true) : isName c = true := by
  simp only [isNameChar, Bool.or_eq_true, beq_iff_eq] at name
  rcases name with ascii | rfl
  · have bounds := toNat_of_isAsciiWord ascii
    rw [isName, isWord_of_ascii (by omega), ascii]
    rfl
  · rfl

theorem splitRun_append_of_forall {accepts : Char → List Char → Bool} {run : List Char}
    (taken : ∀ c ∈ run, ∀ cs, accepts c cs = true) (rest : List Char) :
    splitRun accepts (run ++ rest) =
      (run ++ (splitRun accepts rest).1, (splitRun accepts rest).2) := by
  induction run with
  | nil => rfl
  | cons c run ih =>
      rw [List.cons_append, splitRun_cons, if_pos (taken c List.mem_cons_self _),
        ih fun d member => taken d (List.mem_cons_of_mem c member)]
      rfl

/-- The shortest name is looked for, so its last character is left to the separator. -/
theorem splitRun_name {front : List Char} {last : Char}
    (named : ∀ c ∈ front ++ [last], isNameChar c = true) (rest : List Char) :
    splitRun (fun c rest => isName c && !([':'] : List Char).isPrefixOf rest)
      (front ++ last :: ':' :: rest) = (front, last :: ':' :: rest) := by
  induction front with
  | nil => rw [List.nil_append, splitRun_cons, if_neg (by simp)]
  | cons c front ih =>
      have ahead : (([':'] : List Char).isPrefixOf (front ++ last :: ':' :: rest)) = false := by
        cases front with
        | nil =>
            have other : last ≠ ':' := ne_of_accepts (named last (by simp)) rfl
            simp [List.isPrefixOf, Ne.symm other]
        | cons d front =>
            have other : d ≠ ':' := ne_of_accepts (named d (by simp)) rfl
            simp [List.isPrefixOf, Ne.symm other]
      have accepted : (isName c && !([':'] : List Char).isPrefixOf (front ++ last :: ':' :: rest)) =
          true := by
        rw [ahead, isName_of_isNameChar (named c (by simp))]
        rfl
      rw [List.cons_append, splitRun_cons, if_pos accepted,
        ih fun d member => named d (List.mem_cons_of_mem c member)]

private theorem splitVariant?_name (name : Name) (rest : List Char) :
    splitVariant? [':'] (name.chars ++ ':' :: rest) = some (name.chars, rest) := by
  have accepted := name.accepted
  rcases List.eq_nil_or_concat name.chars with empty | ⟨front, last, chars⟩
  · exact absurd empty name.nonempty
  · rw [List.concat_eq_append] at chars
    rw [chars] at accepted ⊢
    rw [List.append_assoc, List.singleton_append, splitVariant?, splitRun_name accepted]
    simp only [isName_of_isNameChar (accepted last (by simp)), if_true]
    rfl

private theorem splitVariant?_none {front rest : List Char} (noColon : ':' ∉ front)
    (stopped : ∀ c ∈ rest.head?, isName c = false ∧ c ≠ ':') :
    splitVariant? [':'] (front ++ rest) = none := by
  cases found : splitVariant? [':'] (front ++ rest) with
  | none => rfl
  | some parts =>
      obtain ⟨name, after⟩ := parts
      -- the separator would stand in the front, or behind it at a character that stops the name
      obtain ⟨whole, _, named⟩ := splitVariant?_eq_some found
      rw [List.append_assoc] at whole
      exfalso
      have atHead : ∀ middle others, rest = middle ++ ':' :: others →
          (∀ c ∈ middle, isName c = true) → False := by
        intro middle others same inName
        cases middle with
        | nil => exact (stopped ':' (by simp [same])).2 rfl
        | cons c middle =>
            have refused := (stopped c (by simp [same])).1
            rw [inName c List.mem_cons_self] at refused
            cases refused
      rcases List.append_eq_append_iff.1 whole with ⟨middle, nameIs, restIs⟩ | ⟨middle, frontIs, afterIs⟩
      · exact atHead middle after restIs fun c member => named c (by simp [nameIs, member])
      · cases middle with
        | nil => exact atHead [] after (by simpa using afterIs.symm) (by simp)
        | cons c middle =>
            rw [List.singleton_append, List.cons_append, List.cons.injEq] at afterIs
            exact noColon (by simp [frontIs, ← afterIs.1])

private theorem scan?_item {front rest : List Char} (offset : Nat) (noColon : ':' ∉ front)
    (stopped : ∀ c ∈ rest.head?, isName c = false ∧ c ≠ ':')
    (noSlash : (front ++ rest).head? ≠ some '/') :
    scan? [':'] offset (front ++ rest) = scanItem? offset (front ++ rest) := by
  obtain ⟨noLine, noBlock⟩ := Comment.no_start noSlash
  rw [scan?, noLine, noBlock, splitVariant?_none noColon stopped]
  rfl

theorem isEmpty_mark (important : Bool) : (!(mark important).isEmpty) = important := by
  cases important <;> rfl

theorem isMarker_mark (important : Bool) {following : List Char}
    (unmarked : following.head? ≠ some '!') : IsMarker (mark important) following := by
  cases important with
  | false => exact Or.inr ⟨rfl, unmarked⟩
  | true => exact Or.inl rfl

theorem Follows.unmarked {rest : List Char} (follows : Follows rest) : rest.head? ≠ some '!' := by
  intro bang
  rw [Follows, bang] at follows
  cases follows

/-- With this character no name, no class name and no opacity goes on, and no bracket begins. -/
structure IsStop (c : Char) : Prop where
  body : isBody c = false
  name : isName c = false
  digit : c.isDigit = false
  colon : c ≠ ':'
  slash : c ≠ '/'
  opener : c ≠ '['

private theorem isStop_of_isAsciiBlank {c : Char} (blank : isAsciiBlank c = true) : IsStop c := by
  simp only [isAsciiBlank, Bool.or_eq_true, beq_iff_eq] at blank
  rcases blank with (((rfl | rfl) | rfl) | rfl) | rfl <;> constructor <;> decide

theorem Follows.isStop {rest : List Char} (follows : Follows rest) (important : Bool) :
    ∀ c ∈ (mark important ++ rest).head?, IsStop c := by
  intro c ahead
  cases important with
  | true =>
      obtain rfl : '!' = c := by simpa [mark] using ahead
      constructor <;> decide
  | false =>
      have inRest : rest.head? = some c := by simpa [mark] using ahead
      rw [Follows, inRest] at follows
      exact isStop_of_isAsciiBlank follows

theorem ClassName.accepted (name : ClassName) :
    ∀ c ∈ name.print, isWordChar c = true ∨ c = '/' := by
  intro c member
  rcases List.mem_append.1 member with inFirst | inOthers
  · exact Or.inl (name.first.accepted c inFirst)
  · obtain ⟨word, _, inWord⟩ := List.mem_flatMap.1 inOthers
    rcases List.mem_cons.1 inWord with slash | inWord
    · exact Or.inr slash
    · exact Or.inl (word.accepted c inWord)

theorem splitBody_word (word : Word) (rest : List Char) :
    splitBody (word.chars ++ rest) = (word.chars ++ (splitBody rest).1, (splitBody rest).2) := by
  refine splitRun_append_of_forall ?_ rest
  intro c member cs
  rw [isBody_of_isWordChar (word.accepted c member)]
  rfl

private theorem splitBody_className (name : ClassName) {rest : List Char}
    (stopped : ∀ c ∈ rest.head?, isBody c = false ∧ c ≠ '/') :
    splitBody (name.print ++ rest) = (name.print, rest) := by
  have ended : splitBody rest = ([], rest) := by
    cases rest with
    | nil => rfl
    | cons c rest =>
        obtain ⟨notBody, notSlash⟩ := stopped c rfl
        rw [splitBody, splitRun_cons, if_neg (by simp [notBody, notSlash])]
  have others : ∀ words : List Word,
      splitBody (words.flatMap (fun word => '/' :: word.chars) ++ rest) =
        (words.flatMap fun word => '/' :: word.chars, rest) := by
    intro words
    induction words with
    | nil => exact ended
    | cons first words ih =>
        obtain ⟨c, cs, chars, accepted⟩ := first.exists_cons
        have slash : splitBody ('/' :: (first.chars ++
            (words.flatMap (fun word => '/' :: word.chars) ++ rest))) =
            ('/' :: first.chars ++ words.flatMap (fun word => '/' :: word.chars), rest) := by
          have inner := splitBody_word first (words.flatMap (fun word => '/' :: word.chars) ++ rest)
          rw [ih] at inner
          have ahead : (first.chars ++ (words.flatMap (fun word => '/' :: word.chars) ++ rest)).head?.any
              isBody = true := by
            rw [chars]
            exact isBody_of_isWordChar accepted
          unfold splitBody at inner ⊢
          rw [splitRun_cons, if_pos (by rw [ahead]; simp), inner]
          rfl
        rw [List.flatMap_cons, List.append_assoc, List.cons_append]
        exact slash
  rw [ClassName.print, List.append_assoc, splitBody_word, others]

inductive Stem : List Char → Prop
  | none : Stem []
  | word (word : Word) : Stem word.chars
  | hyphen (word : Word) : Stem (word.chars ++ ['-'])
  | slash (word : Word) : Stem (word.chars ++ ['/'])

theorem Stem.splitBody {stem : List Char} (shape : Stem stem) (rest : List Char) :
    ∃ body after, Lexeme.splitBody (stem ++ '[' :: rest) = (body, after) ∧
      (if after.head? == some '/' then (body ++ ['/'], after.tail) else (body, after)) =
        (stem, '[' :: rest) := by
  have bracket : Lexeme.splitBody ('[' :: rest) = ([], '[' :: rest) := rfl
  cases shape with
  | none => exact ⟨[], '[' :: rest, bracket, rfl⟩
  | word word =>
      refine ⟨word.chars, '[' :: rest, ?_, rfl⟩
      rw [splitBody_word, bracket, List.append_nil]
  | hyphen word =>
      refine ⟨word.chars ++ ['-'], '[' :: rest, ?_, rfl⟩
      have hyphen : Lexeme.splitBody ('-' :: '[' :: rest) = (['-'], '[' :: rest) := rfl
      rw [List.append_assoc, List.singleton_append, splitBody_word, hyphen]
  | slash word =>
      refine ⟨word.chars, '/' :: '[' :: rest, ?_, rfl⟩
      have slash : Lexeme.splitBody ('/' :: '[' :: rest) = ([], '/' :: '[' :: rest) := rfl
      rw [List.append_assoc, List.singleton_append, splitBody_word, slash, List.append_nil]

theorem Stem.accepted {stem : List Char} (shape : Stem stem) {c : Char} (member : c ∈ stem) :
    isWordChar c = true ∨ c = '/' := by
  cases shape with
  | none => cases member
  | word word => exact Or.inl (word.accepted c member)
  | hyphen word =>
      rcases List.mem_append.1 member with inWord | last
      · exact Or.inl (word.accepted c inWord)
      · obtain rfl := List.mem_singleton.1 last
        exact Or.inl (by decide)
  | slash word =>
      rcases List.mem_append.1 member with inWord | last
      · exact Or.inl (word.accepted c inWord)
      · exact Or.inr (List.mem_singleton.1 last)

def isStart (c : Char) : Bool :=
  isWordChar c || c == '['

theorem Run.exists_start {accepts : Char → Bool} (run : Run accepts)
    (words : ∀ c, accepts c = true → isWordChar c = true) (rest : List Char) :
    ∃ c cs, run.chars ++ rest = c :: cs ∧ isStart c = true := by
  obtain ⟨c, cs, chars, accepted⟩ := run.exists_cons
  refine ⟨c, cs ++ rest, by rw [chars, List.cons_append], ?_⟩
  rw [isStart, words c accepted, Bool.true_or]

theorem Stem.exists_start {stem : List Char} (shape : Stem stem) (rest : List Char) :
    ∃ c cs, stem ++ '[' :: rest = c :: cs ∧ isStart c = true := by
  cases shape with
  | none => exact ⟨'[', rest, rfl, by decide⟩
  | word word => exact Run.exists_start word (fun _ accepted => accepted) _
  | hyphen word =>
      rw [List.append_assoc]
      exact Run.exists_start word (fun _ accepted => accepted) _
  | slash word =>
      rw [List.append_assoc]
      exact Run.exists_start word (fun _ accepted => accepted) _

theorem ClassName.exists_start (name : ClassName) (rest : List Char) :
    ∃ c cs, name.print ++ rest = c :: cs ∧ isStart c = true := by
  rw [ClassName.print, List.append_assoc]
  exact Run.exists_start name.first (fun _ accepted => accepted) _

private theorem marked_of_start {c : Char} {cs : List Char} (start : isStart c = true)
    (important : Bool) :
    IsMarker (mark important) (c :: cs) ∧ (mark important ++ c :: cs).head? ≠ some '/' := by
  have notBang : c ≠ '!' := ne_of_accepts start rfl
  have notSlash : c ≠ '/' := ne_of_accepts start rfl
  refine ⟨isMarker_mark important (by simpa using notBang), ?_⟩
  cases important with
  | false => simpa [mark] using notSlash
  | true => simp [mark]

theorem Stem.isMarker {stem : List Char} (shape : Stem stem) (important : Bool) (value : Value)
    (rest : List Char) :
    IsMarker (mark important) (stem ++ '[' :: (value.chars ++ ']' :: rest)) := by
  obtain ⟨c, cs, start, accepted⟩ := shape.exists_start (value.chars ++ ']' :: rest)
  rw [start]
  exact (marked_of_start accepted important).1

private theorem colon_not_mem {front : List Char}
    (accepted : ∀ c ∈ front, isWordChar c = true ∨ c = '/') (important : Bool) :
    ':' ∉ mark important ++ front := by
  intro member
  rcases List.mem_append.1 member with inMark | inFront
  · cases important with
    | false => cases inMark
    | true => simp [mark] at inMark
  · rcases accepted ':' inFront with word | slash
    · exact absurd word (by decide)
    · exact absurd slash (by decide)

theorem scan?_bracket {stem : List Char} (shape : Stem stem) (leading : Bool) (offset : Nat)
    (rest : List Char) :
    scan? [':'] offset (mark leading ++ stem ++ '[' :: rest) =
      some (.bracket offset leading (.ofChars (offset + byteLength (mark leading)) stem), rest) := by
  obtain ⟨c, cs, start, accepted⟩ := shape.exists_start rest
  obtain ⟨marked, noSlash⟩ := @marked_of_start c cs accepted leading
  obtain ⟨body, after, bodyAt, stemAt⟩ := shape.splitBody rest
  rw [← start] at marked noSlash
  rw [scan?_item offset (colon_not_mem (fun _ member => shape.accepted member) leading)
      (by simp; decide) (by rwa [List.append_assoc]), List.append_assoc,
    scanItem?_marked offset marked]
  simp only [bodyAt, stemAt, isEmpty_mark, List.head?_cons, beq_self_eq_true, if_true,
    List.tail_cons]

theorem scan?_className (name : ClassName) (leading trailing : Bool) (offset : Nat)
    {rest : List Char} (follows : Follows rest) :
    scan? [':'] offset (mark leading ++ name.print ++ (mark trailing ++ rest)) =
      some (.className (.ofChars offset (mark leading ++ name.print ++ mark trailing))
        (.ofChars (offset + byteLength (mark leading)) name.print) (leading || trailing), rest) := by
  have stops := follows.isStop trailing
  obtain ⟨c, cs, start, accepted⟩ := name.exists_start (mark trailing ++ rest)
  obtain ⟨marked, noSlash⟩ := @marked_of_start c cs accepted leading
  have bodyAt : splitBody (name.print ++ (mark trailing ++ rest)) =
      (name.print, mark trailing ++ rest) :=
    splitBody_className name fun c ahead => ⟨(stops c ahead).body, (stops c ahead).slash⟩
  have closing : marker (mark trailing ++ rest) = mark trailing :=
    marker_append (isMarker_mark trailing follows.unmarked)
  have notAhead : ∀ d, (d = '/' ∨ d = '[') → ((mark trailing ++ rest).head? == some d) = false := by
    intro d special
    rw [beq_eq_false_iff_ne]
    intro ahead
    rcases special with rfl | rfl
    · exact (stops '/' ahead).slash rfl
    · exact (stops '[' ahead).opener rfl
  have nonempty : name.print.isEmpty = false := by
    obtain ⟨d, ds, chars, _⟩ := name.first.exists_cons
    rw [ClassName.print, chars]
    rfl
  rw [← start] at marked noSlash
  rw [scan?_item offset (colon_not_mem name.accepted leading)
      (fun c ahead => ⟨(stops c ahead).name, (stops c ahead).colon⟩) (by rwa [List.append_assoc]),
    List.append_assoc, scanItem?_marked offset marked]
  simp only [bodyAt, notAhead '/' (Or.inl rfl), notAhead '[' (Or.inr rfl), nonempty, closing,
    isEmpty_mark, Bool.false_eq_true, if_false, Bool.not_false, if_true, List.drop_left]

theorem scan?_group (leading : Bool) (offset : Nat) (rest : List Char) :
    scan? [':'] offset (mark leading ++ '(' :: rest) = some (.group offset leading, rest) := by
  have noColon : ':' ∉ mark leading := by cases leading <;> simp [mark]
  have noSlash : (mark leading ++ '(' :: rest).head? ≠ some '/' := by
    cases leading <;> simp [mark]
  rw [scan?_item offset noColon (by simp; decide) noSlash,
    scanItem?_marked offset (isMarker_mark leading (by simp))]
  cases leading <;> rfl

theorem scan?_named (name : Name) (offset : Nat) (rest : List Char) :
    scan? [':'] offset (name.chars ++ ':' :: rest) =
      some (.variant (.ofChars offset name.chars)
        (.ofChars (offset + byteLength name.chars) [':']), rest) := by
  obtain ⟨c, cs, start, accepted⟩ :=
    Run.exists_start name (fun _ => isWordChar_of_isNameChar) (':' :: rest)
  have notSlash : c ≠ '/' := ne_of_accepts accepted rfl
  obtain ⟨noLine, noBlock⟩ : Comment.startsLine (c :: cs) = false ∧
      Comment.startsBlock (c :: cs) = false := Comment.no_start (by simpa using notSlash)
  have found := splitVariant?_name name rest
  rw [start] at found ⊢
  rw [scan?, noLine, noBlock, found]
  simp only [Bool.false_eq_true, if_false, Token.stop_ofChars]

end ClassExpr.Printing
