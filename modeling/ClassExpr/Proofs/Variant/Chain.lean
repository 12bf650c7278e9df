import ClassExpr.Proofs.Nesting
import ClassExpr.Proofs.Printing.Nodes
import ClassExpr.Proofs.Settings
import ClassExpr.Proofs.Tree.Items
import ClassExpr.Proofs.Tree.Origin

set_option autoImplicit false

/-! Variants one behind the other in front of a class name, with any separator that settings may
have. Every variant takes the next one and all that follows, unless the separators behind it open a
line comment: a body ends there, though the separator is read as such where a lexeme starts. -/

namespace ClassExpr

open Text

namespace Comment

/-- Whether a text ends inside a block comment, if it starts inside one or not. There is no answer
if a line comment starts in it. -/
def inside? : Bool → List Char → Option Bool
  | inside, [] => some inside
  | inside, [_] => some inside
  | true, c :: d :: cs =>
      if c == '*' && d == '/' then inside? false cs else inside? true (d :: cs)
  | false, c :: d :: cs =>
      if c == '/' && d == '/' then none
      else if c == '/' && d == '*' then inside? true cs
      else inside? false (d :: cs)

/-- A character that no comment starts or ends with. -/
def IsPlain (c : Char) : Prop :=
  c ≠ '/' ∧ c ≠ '*'

private theorem inside?_cons {c : Char} (plain : IsPlain c) (inside : Bool) (cs : List Char) :
    inside? inside (c :: cs) = inside? inside cs := by
  cases cs with
  | nil => cases inside <;> rfl
  | cons d cs => cases inside <;> simp [inside?, plain.1, plain.2]

private theorem inside?_word {run : List Char} (plain : ∀ c ∈ run, IsPlain c) (inside : Bool)
    (rest : List Char) : inside? inside (run ++ rest) = inside? inside rest := by
  induction run with
  | nil => rfl
  | cons c run ih =>
      rw [List.cons_append, inside?_cons (plain c List.mem_cons_self),
        ih fun d member => plain d (List.mem_cons_of_mem c member)]

private theorem inside?_append {c : Char} (plain : IsPlain c) (inside : Bool)
    (front rest : List Char) :
    inside? inside (front ++ c :: rest) =
      (inside? inside front).bind fun inside => inside? inside (c :: rest) := by
  fun_induction inside? inside front with
  | case1 inside => rfl
  | case2 inside d => cases inside <;> simp [inside?, plain.1, plain.2]
  | case3 d e cs closes ih => simp only [List.cons_append, inside?, closes, if_true, ih]
  | case4 d e cs goesOn ih =>
      simp only [List.cons_append] at ih
      simp [List.cons_append, inside?, goesOn, ih]
  | case5 d e cs opens => simp [inside?, opens]
  | case6 d e cs noLine opens ih => simp [inside?, noLine, opens, ih]
  | case7 d e cs noLine noBlock ih =>
      simp only [List.cons_append] at ih
      simp [inside?, noLine, noBlock, ih]

theorem infix_of_inside? {inside : Bool} {cs : List Char} (opens : inside? inside cs = none) :
    ['/', '/'] <:+: cs := by
  fun_induction inside? inside cs with
  | case1 => cases opens
  | case2 => cases opens
  | case3 d e cs closes ih => exact (ih opens).trans (List.suffix_append [d, e] cs).isInfix
  | case4 d e cs goesOn ih => exact (ih opens).trans (List.suffix_cons d (e :: cs)).isInfix
  | case5 d e cs line =>
      obtain ⟨rfl, rfl⟩ : d = '/' ∧ e = '/' := by simpa using line
      exact (List.prefix_append ['/', '/'] cs).isInfix
  | case6 d e cs noLine opens' ih => exact (ih opens).trans (List.suffix_append [d, e] cs).isInfix
  | case7 d e cs noLine noBlock ih => exact (ih opens).trans (List.suffix_cons d (e :: cs)).isInfix

end Comment

namespace Body

open Printing (isPlain)

private theorem movePlain_quiet (rule : Rule) (before : List Char) {c : Char}
    (quiet : isPlain c = true)
    (ahead : Option Char) :
    movePlain rule before c ahead =
      if c == '/' && ahead == some '/' then .halt
      else if c == '/' && ahead == some '*' then .skip .comment
      else .advance .plain := by
  simp only [isPlain, Bool.not_eq_true', Bool.or_eq_false_iff] at quiet
  obtain ⟨⟨solid, noBracket⟩, noGroup⟩ := quiet
  rw [movePlain, solid, noBracket, noGroup]
  rfl

/-- A body of plain characters goes on to the end of the text exactly if no line comment starts. -/
theorem sweep_rest_iff (rule : Rule) (inside : Bool) (before : List Char) {cs : List Char}
    (quiet : ∀ c ∈ cs, isPlain c = true) :
    (sweep (move rule) (if inside then .comment else .plain) before cs).rest = [] ↔
      (Comment.inside? inside cs).isSome = true := by
  fun_induction Comment.inside? inside cs generalizing before with
  | case1 inside => exact ⟨fun _ => rfl, fun _ => rfl⟩
  | case2 inside c =>
      refine ⟨fun _ => rfl, fun _ => ?_⟩
      cases inside with
      | true =>
          have moved : move rule .comment before c none = .advance .comment := by
            rw [move, if_neg (by simp)]
          rw [if_pos rfl, sweep_cons, List.head?_nil, moved]
          rfl
      | false =>
          have moved : move rule .plain before c none = .advance .plain := by
            rw [move, movePlain_quiet rule before (quiet c (by simp))]
            simp
          rw [if_neg Bool.false_ne_true, sweep_cons, List.head?_nil, moved]
          rfl
  | case3 c d cs closes ih =>
      obtain ⟨rfl, rfl⟩ : c = '*' ∧ d = '/' := by simpa using closes
      have moved : move rule .comment before '*' (some '/') = .skip .plain := rfl
      rw [if_pos rfl, sweep_cons_skip (move rule) moved]
      exact ih _ fun c member => quiet c (by simp [member])
  | case4 c d cs goesOn ih =>
      have moved : move rule .comment before c (some d) = .advance .comment := by
        rw [move, if_neg (by simpa using goesOn)]
      rw [if_pos rfl, sweep_cons, List.head?_cons, moved]
      exact ih _ fun c member => quiet c (List.mem_cons_of_mem _ member)
  | case5 c d cs line =>
      have moved : move rule .plain before c (some d) = .halt := by
        rw [move, movePlain_quiet rule before (quiet c (by simp)), if_pos (by simpa using line)]
      rw [if_neg Bool.false_ne_true, sweep_cons, List.head?_cons, moved]
      simp
  | case6 c d cs noLine opens ih =>
      have moved : move rule .plain before c (some d) = .skip .comment := by
        rw [move, movePlain_quiet rule before (quiet c (by simp)), if_neg (by simpa using noLine),
          if_pos (by simpa using opens)]
      rw [if_neg Bool.false_ne_true, sweep_cons_skip (move rule) moved]
      exact ih _ fun c member => quiet c (by simp [member])
  | case7 c d cs noLine noBlock ih =>
      have moved : move rule .plain before c (some d) = .advance .plain := by
        rw [move, movePlain_quiet rule before (quiet c (by simp)), if_neg (by simpa using noLine),
          if_neg (by simpa using noBlock)]
      rw [if_neg Bool.false_ne_true, sweep_cons, List.head?_cons, moved]
      exact ih _ fun c member => quiet c (List.mem_cons_of_mem _ member)

private theorem split_eq_iff (separator : List Char) {cs : List Char}
    (quiet : ∀ c ∈ cs, isPlain c = true) :
    split separator cs = (cs, []) ↔ (Comment.inside? false cs).isSome = true := by
  have swept := sweep_rest_iff ⟨separator, true⟩ false [] quiet
  have whole := split_append separator cs
  rw [← swept]
  constructor
  · intro all
    exact (Prod.mk.inj all).2
  · intro ended
    have rest : (split separator cs).2 = [] := ended
    rw [rest, List.append_nil] at whole
    exact Prod.ext whole rest

end Body

namespace Chain

open Printing ClassExpr.Tree Lexeme

abbrev Plain := Run Char.isAlphanum

/-- A separator that is accepted, without letters and digits. -/
structure Bare (separator : List Char) : Prop where
  sound : Settings.SoundSeparator separator
  bare : ∀ c ∈ separator, c.isAlphanum = false

def print (separator : List Char) (word : Plain) : List Plain → List Char
  | [] => word.chars
  | name :: names => name.chars ++ separator ++ print separator word names

variable {separator : List Char} {word : Plain}

theorem isWordChar_of_isAlphanum {c : Char} (plain : c.isAlphanum = true) : isWordChar c = true := by
  simp [isWordChar, isNameChar, isAsciiWord, plain]

theorem Bare.exists_cons (bare : Bare separator) :
    ∃ c cs, separator = c :: cs ∧ c.isAlphanum = false := by
  cases separator with
  | nil => exact absurd rfl bare.sound.nonempty
  | cons c cs => exact ⟨c, cs, rfl, bare.bare c List.mem_cons_self⟩

theorem Bare.isPrefixOf (bare : Bare separator) {c : Char} (plain : c.isAlphanum = true)
    (cs : List Char) : separator.isPrefixOf (c :: cs) = false := by
  obtain ⟨first, others, rfl, other⟩ := bare.exists_cons
  have differs : (first == c) = false := beq_false_of_ne (ne_of_accepts plain other).symm
  rw [List.isPrefixOf, differs, Bool.false_and]

theorem exists_start (separator : List Char) (word : Plain) (names : List Plain) :
    ∃ c cs, print separator word names = c :: cs ∧ c.isAlphanum = true := by
  cases names with
  | nil => exact word.exists_cons
  | cons name names =>
      obtain ⟨c, cs, chars, plain⟩ := name.exists_cons
      exact ⟨c, _, by rw [print, chars]; rfl, plain⟩

/-! ### Scanning -/

private theorem splitRun_plain (bare : Bare separator) {front : List Char} {last : Char}
    (plain : ∀ c ∈ front ++ [last], c.isAlphanum = true) (rest : List Char) :
    splitRun (fun c rest => isName c && !separator.isPrefixOf rest)
      (front ++ last :: (separator ++ rest)) = (front, last :: (separator ++ rest)) := by
  induction front with
  | nil =>
      have stops : separator.isPrefixOf (separator ++ rest) = true :=
        List.isPrefixOf_iff_prefix.2 (List.prefix_append separator rest)
      rw [List.nil_append, splitRun_cons, if_neg (by rw [stops]; simp)]
  | cons c front ih =>
      have ahead : separator.isPrefixOf (front ++ last :: (separator ++ rest)) = false := by
        cases front with
        | nil => exact bare.isPrefixOf (plain last (by simp)) _
        | cons d front => exact bare.isPrefixOf (plain d (by simp)) _
      have named : isName c = true :=
        isName_of_isNameChar (by simp [isNameChar, isAsciiWord, plain c (by simp)])
      rw [List.cons_append, splitRun_cons, if_pos (by rw [ahead, named]; rfl),
        ih fun d member => plain d (List.mem_cons_of_mem c member)]

private theorem splitVariant?_plain (bare : Bare separator) (name : Plain) (rest : List Char) :
    splitVariant? separator (name.chars ++ separator ++ rest) = some (name.chars, rest) := by
  have plain := name.accepted
  rcases List.eq_nil_or_concat name.chars with empty | ⟨front, last, chars⟩
  · exact absurd empty name.nonempty
  · rw [List.concat_eq_append] at chars
    rw [chars] at plain ⊢
    have named : isName last = true :=
      isName_of_isNameChar (by simp [isNameChar, isAsciiWord, plain last (by simp)])
    rw [List.append_assoc, List.append_assoc, List.singleton_append, splitVariant?,
      splitRun_plain bare plain]
    simp only [named, if_true, List.drop_left]

theorem scan?_name (bare : Bare separator) (offset : Nat) (name : Plain) (rest : List Char) :
    scan? separator offset (name.chars ++ separator ++ rest) =
      some (.variant (.ofChars offset name.chars)
        (.ofChars (offset + byteLength name.chars) separator), rest) := by
  obtain ⟨c, cs, chars, plain⟩ := name.exists_cons
  obtain ⟨noLine, noBlock⟩ : Comment.startsLine (name.chars ++ separator ++ rest) = false ∧
      Comment.startsBlock (name.chars ++ separator ++ rest) = false := by
    apply Comment.no_start
    rw [chars, List.cons_append, List.cons_append, List.head?_cons, ne_eq, Option.some.injEq]
    exact ne_of_accepts plain rfl
  rw [scan?, noLine, noBlock, splitVariant?_plain bare]
  simp only [Bool.false_eq_true, if_false, Token.stop_ofChars]

private theorem scan?_word (bare : Bare separator) (offset : Nat) (word : Plain) :
    scan? separator offset word.chars =
      some (.className (.ofChars offset word.chars) (.ofChars offset word.chars) false, []) := by
  obtain ⟨c, cs, chars, plain⟩ := word.exists_cons
  have noMark : c ≠ '!' := ne_of_accepts plain rfl
  obtain ⟨noLine, noBlock⟩ : Comment.startsLine word.chars = false ∧
      Comment.startsBlock word.chars = false := by
    apply Comment.no_start
    rw [chars, List.head?_cons, ne_eq, Option.some.injEq]
    exact ne_of_accepts plain rfl
  have noVariant : splitVariant? separator word.chars = none := by
    cases found : splitVariant? separator word.chars with
    | none => rfl
    | some parts =>
        obtain ⟨name, rest⟩ := parts
        obtain ⟨whole, -, -⟩ := splitVariant?_eq_some found
        obtain ⟨first, others, same, other⟩ := bare.exists_cons
        have accepted := word.accepted first (by rw [whole, same]; simp)
        rw [other] at accepted
        cases accepted
  have body : splitBody word.chars = (word.chars, []) := by
    have words : ∀ d ∈ word.chars, isWordChar d = true :=
      fun d member => isWordChar_of_isAlphanum (word.accepted d member)
    have split := splitBody_word ⟨word.chars, word.nonempty, words⟩ []
    have ended : splitBody [] = ([], []) := rfl
    simpa [ended] using split
  have marked : IsMarker [] word.chars := Or.inr ⟨rfl, by rw [chars]; simpa using noMark⟩
  have item := scanItem?_marked offset marked
  rw [List.nil_append, body] at item
  rw [scan?, noLine, noBlock, noVariant]
  simp only [Bool.false_eq_true, if_false, item]
  simp [word.nonempty, marker]

/-! ### Reading -/

abbrev reading (separator : List Char) : Reading :=
  ⟨separator, none⟩

def variant (separator : List Char) (offset : Nat) (name : Plain) : Variant :=
  .named ⟨.ofChars offset (name.chars ++ separator), .ofChars offset name.chars,
    .ofChars (offset + byteLength name.chars) separator⟩

def node (separator : List Char) (word : Plain) (offset : Nat) : List Plain → Node
  | [] => .leaf (.className (.ofChars offset word.chars) (.ofChars offset word.chars) false)
  | name :: names =>
      .variantSpan (.ofChars offset (print separator word (name :: names)))
        (variant separator offset name)
        (some (node separator word (offset + byteLength (name.chars ++ separator)) names))

theorem range_node (offset : Nat) (names : List Plain) :
    (node separator word offset names).range = .ofChars offset (print separator word names) := by
  cases names <;> rfl

theorem isEmptyBody_print (separator : List Char) (word : Plain) (names : List Plain) :
    isEmptyBody (print separator word names) = false := by
  obtain ⟨c, cs, start, plain⟩ := exists_start separator word names
  rw [start]
  exact isEmptyBody_solid ⟨isBlank_of_isWordChar (isWordChar_of_isAlphanum plain),
    ne_of_accepts plain rfl⟩ cs

private theorem quiet_print (bare : Bare separator) (word : Plain) (names : List Plain) :
    ∀ c ∈ print separator word names, isPlain c = true := by
  have plain : ∀ c, c.isAlphanum = true → isPlain c = true := by
    intro c accepted
    have solid := isBlank_of_isWordChar (isWordChar_of_isAlphanum accepted)
    have ascii : isAsciiBlank c = false := by
      rw [Bool.eq_false_iff] at solid ⊢
      exact fun blank => solid (isBlank_of_isAsciiBlank blank)
    have noBracket : c ≠ '[' := ne_of_accepts accepted rfl
    have noGroup : c ≠ '(' := ne_of_accepts accepted rfl
    simp [isPlain, ascii, noBracket, noGroup]
  have separated : ∀ c ∈ separator, isPlain c = true := by
    intro c member
    have solid := bare.sound.solid c member
    have free := bare.sound.free c member
    have ascii : isAsciiBlank c = false := by
      rw [Bool.eq_false_iff] at solid ⊢
      exact fun blank => solid (isBlank_of_isAsciiBlank blank)
    simp only [Settings.isReserved, Bool.or_eq_false_iff] at free
    simp [isPlain, ascii, free]
  induction names with
  | nil => exact fun c member => plain c (word.accepted c member)
  | cons name names ih =>
      intro c member
      rw [print, List.mem_append, List.mem_append] at member
      rcases member with (inName | inSeparator) | later
      · exact plain c (name.accepted c inName)
      · exact separated c inSeparator
      · exact ih c later

/-- Whether so many separators end inside a block comment. -/
def opened (separator : List Char) : Nat → Bool → Option Bool
  | 0, inside => some inside
  | count + 1, inside => (Comment.inside? inside separator).bind (opened separator count)

/-- Only the separators of a chain count, as no comment starts or ends in a word. -/
theorem inside?_print (inside : Bool) (names : List Plain) :
    Comment.inside? inside (print separator word names) =
      opened separator names.length inside := by
  have plain : ∀ c, c.isAlphanum = true → Comment.IsPlain c :=
    fun c accepted => ⟨ne_of_accepts accepted rfl, ne_of_accepts accepted rfl⟩
  induction names generalizing inside with
  | nil =>
      have ended := Comment.inside?_word
        (fun c member => plain c (word.accepted c member)) inside []
      rw [List.append_nil] at ended
      rw [print, ended]
      cases inside <;> rfl
  | cons name names ih =>
      obtain ⟨c, cs, start, accepted⟩ := exists_start separator word names
      rw [print, List.append_assoc,
        Comment.inside?_word fun c member => plain c (name.accepted c member), start,
        Comment.inside?_append (plain c accepted), List.length_cons, opened]
      simp only [← start, ih]

private theorem opened_of_succ {count : Nat} {inside : Bool}
    (more : (opened separator (count + 1) inside).isSome = true) :
    (opened separator count inside).isSome = true := by
  induction count generalizing inside with
  | zero => rfl
  | succ count ih =>
      rw [opened] at more ⊢
      cases first : Comment.inside? inside separator with
      | none =>
          rw [first] at more
          cases more
      | some later =>
          rw [first] at more
          exact ih more

/-- The separators behind the first name open no line comment. -/
def Clear (separator : List Char) (word : Plain) (names : List Plain) : Prop :=
  (Comment.inside? false (print separator word names.tail)).isSome = true

theorem Clear.tail {name : Plain} {names : List Plain}
    (clear : Clear separator word (name :: names)) : Clear separator word names := by
  rw [Clear, inside?_print] at clear ⊢
  cases names with
  | nil => rfl
  | cons next names => exact opened_of_succ clear

/-- A body takes all that is left of a chain if no line comment is opened in it. -/
theorem split_print (bare : Bare separator) {name : Plain} {names : List Plain} :
    Body.split separator (print separator word names) = (print separator word names, []) ↔
      Clear separator word (name :: names) :=
  Body.split_eq_iff separator (quiet_print bare word names)

theorem attached_names (interior : Interior) (offset : Nat) (names : List Plain) :
    attached (reading separator) interior offset (print separator word names) =
      interior offset (Body.split separator (print separator word names)).1 := by
  obtain ⟨c, cs, start, plain⟩ := exists_start separator word names
  have noMark : c ≠ '!' := ne_of_accepts plain rfl
  have noGroup : c ≠ '(' := ne_of_accepts plain rfl
  have unmarked : marker (c :: cs) = [] := marker_append (Or.inr ⟨rfl, by simpa using noMark⟩)
  rw [start, attached, unmarked, if_neg (by simpa using noGroup)]

/-- A first name, and all that follows for its body, are the node of a chain. -/
theorem variantSpan_print (bare : Bare separator) {name : Plain} {names : List Plain}
    {interior : Interior} (clear : Clear separator word (name :: names)) (offset : Nat)
    (read : interior (offset + byteLength (name.chars ++ separator)) (print separator word names) =
      node separator word (offset + byteLength (name.chars ++ separator)) names) :
    variantSpan (reading separator) interior (variant separator offset name)
        (print separator word names) =
      node separator word offset (name :: names) := by
  have range : (variant separator offset name).range = .ofChars offset (name.chars ++ separator) :=
    rfl
  have built : attached (reading separator) interior (variant separator offset name).range.stop
      (print separator word names) =
        node separator word (offset + byteLength (name.chars ++ separator)) names := by
    rw [attached_names, (split_print bare).2 clear, range, Token.stop_ofChars, read]
  rw [variantSpan_of_child (isEmptyBody_print separator word names) built
    (by rw [range_node, range, Token.stop_ofChars]) (List.append_nil _).symm, range,
    Token.toList_ofChars, Token.start_ofChars]
  rfl

theorem sequence_print (bare : Bare separator) {names : List Plain} {levels : Nat}
    (few : names.length ≤ levels) (clear : Clear separator word names) (offset : Nat) :
    sequence (reading separator) (levels + 1) offset (print separator word names) =
      node separator word offset names := by
  induction names generalizing levels offset with
  | nil =>
      obtain ⟨c, cs, chars, plain⟩ := word.exists_cons
      have scanned := scan?_word bare offset word
      rw [print]
      rw [chars] at scanned ⊢
      refine sequence_of_node? rfl (isBlank_of_isWordChar (isWordChar_of_isAlphanum plain)) scanned
        ?_ ?_
      · rw [node, chars]
        rfl
      · rw [range_node, print, chars]
  | cons name names ih =>
      obtain ⟨levels, rfl⟩ : ∃ inner, levels = inner + 1 :=
        ⟨levels - 1, by rw [List.length_cons] at few; omega⟩
      obtain ⟨c, cs, start, plain⟩ := exists_start separator word (name :: names)
      have scanned := scan?_name bare offset name (print separator word names)
      have below := ih (Nat.le_of_succ_le_succ few) clear.tail
        (offset + byteLength (name.chars ++ separator))
      have spans := variantSpan_print bare clear offset below
      have whole : name.chars ++ separator ++ print separator word names = c :: cs := start
      rw [whole] at scanned
      rw [start]
      refine sequence_of_node? rfl (isBlank_of_isWordChar (isWordChar_of_isAlphanum plain)) scanned
        ?_ ?_
      · rw [node?, Token.toList_ofChars, Token.toList_ofChars]
        exact congrArg some spans
      · rw [range_node, start]

end Chain

end ClassExpr
