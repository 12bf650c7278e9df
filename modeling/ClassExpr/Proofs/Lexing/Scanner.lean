import ClassExpr.Proofs.Lexeme
import ClassExpr.Proofs.Lexing.Pattern

set_option autoImplicit false

/-! The lexemes as one regular expression. Its alternatives stand in the order of the kinds, and
what the groups of its first match say is the lexeme that the scanner reads. -/

namespace ClassExpr

namespace Lexeme

open Text Pattern ClassExpr.Tree

inductive Part where
  | lineComment
  | blockComment
  | variantName
  | variantSeparator
  | bracketMarker
  | bracketStem
  | classLead
  | classBody
  | classTrail
  | groupMarker
  | unhandled
deriving Repr, DecidableEq

/-- `[\w\-.]|/[\w\-.]` -/
def unit : Pattern Part :=
  .either (.char isBody) (.seq (.literal ['/']) (.char isBody))

def mark : Pattern Part :=
  optional (.literal ['!'])

/-- `(//[^\n]*)` -/
def lineCommentPattern : Pattern Part :=
  .group .lineComment (.seq (.literal ['/', '/']) (.many true (.char (· != '\n'))))

/-- `(/\*)` -/
def blockCommentPattern : Pattern Part :=
  .group .blockComment (.literal ['/', '*'])

/-- `([\w-]+?)(separator)` -/
def variantPattern (separator : List Char) : Pattern Part :=
  .seq (.group .variantName (atLeastOne false (.char isName)))
    (.group .variantSeparator (.literal separator))

def stemPattern : Pattern Part :=
  .seq (.many true unit) (optional (.literal ['/']))

/-- `(!?)(stem)\[` -/
def bracketPattern : Pattern Part :=
  .seq (.group .bracketMarker mark) (.seq (.group .bracketStem stemPattern) (.literal ['[']))

/-- `(!?)(unit+)(!?)` -/
def classNamePattern : Pattern Part :=
  .seq (.group .classLead mark)
    (.seq (.group .classBody (atLeastOne true unit)) (.group .classTrail mark))

/-- `(!?)\(` -/
def groupPattern : Pattern Part :=
  .seq (.group .groupMarker mark) (.literal ['('])

/-- `(\S+)` -/
def unhandledPattern : Pattern Part :=
  .group .unhandled (atLeastOne true (.char fun c => !isBlank c))

def pattern (separator : List Char) : Pattern Part :=
  .either lineCommentPattern <| .either blockCommentPattern <| .either (variantPattern separator) <|
    .either bracketPattern <| .either classNamePattern <| .either groupPattern unhandledPattern

def ofRun? (offset : Nat) (run : Run Part) : Option Lexeme :=
  let token? := fun part => run.groups.lookup part
  if let some comment := token? .lineComment then some (.lineComment comment)
  else if let some opener := token? .blockComment then some (.blockComment opener)
  else if let (some name, some separator) := (token? .variantName, token? .variantSeparator) then
    some (.variant name separator)
  else if let (some mark, some stem) := (token? .bracketMarker, token? .bracketStem) then
    some (.bracket mark.start (!mark.isEmpty) stem)
  else if let some body := token? .classBody then
    some (.className (.ofChars offset run.taken) body
      ((token? .classLead).any (!·.isEmpty) || (token? .classTrail).any (!·.isEmpty)))
  else if let some mark := token? .groupMarker then some (.group mark.start (!mark.isEmpty))
  else (token? .unhandled).map .unhandled

def readRun? (offset : Nat) (run : Run Part) : Option (Lexeme × List Char) :=
  (ofRun? offset run).map fun lexeme => (lexeme, run.rest)

private theorem readRun?_bracket (offset : Nat) (taken rest : List Char) (mark stem : Token) :
    readRun? offset ⟨taken, rest, [(.bracketMarker, mark), (.bracketStem, stem)]⟩ =
      some (.bracket mark.start (!mark.isEmpty) stem, rest) :=
  rfl

private theorem readRun?_className (offset : Nat) (taken rest : List Char)
    (lead body trail : Token) :
    readRun? offset ⟨taken, rest, [(.classLead, lead), (.classBody, body), (.classTrail, trail)]⟩ =
      some (.className (.ofChars offset taken) body (!lead.isEmpty || !trail.isEmpty), rest) :=
  rfl

private theorem readRun?_group (offset : Nat) (taken rest : List Char) (mark : Token) :
    readRun? offset ⟨taken, rest, [(.groupMarker, mark)]⟩ =
      some (.group mark.start (!mark.isEmpty), rest) :=
  rfl

section Units

variable {offset : Nat} {cs : List Char}

private theorem runs_unit (offset : Nat) (c : Char) (cs : List Char) :
    runs unit offset (c :: cs) =
      if isBody c then [⟨[c], cs, []⟩]
      else if c = '/' then
        match cs with
        | [] => []
        | d :: cs => if isBody d then [⟨['/', d], cs, []⟩] else []
      else [] := by
  by_cases body : isBody c = true
  · have noSlash : c ≠ '/' := by
      rintro rfl
      exact absurd body (by decide)
    rw [unit, runs_either, runs_char_cons, if_pos body, if_pos body, runs_seq, runs_literal,
      if_neg (by simpa using Ne.symm noSlash)]
    rfl
  · rw [unit, runs_either, runs_char_cons, if_neg body, if_neg body, runs_seq, runs_literal]
    by_cases slash : c = '/'
    · subst slash
      rw [if_pos (by simp), if_pos rfl]
      cases cs with
      | nil => rfl
      | cons d cs =>
          by_cases inside : isBody d = true
          · simp [runs_char_cons, inside, Run.andThen]
          · simp [runs_char_cons, inside]
    · rw [if_neg (by simpa using Ne.symm slash), if_neg slash]
      rfl

private theorem cuts_unit : Cuts unit splitBody where
  ends offset cs failed := by
    cases cs with
    | nil => rfl
    | cons c cs =>
        have nothing := runs_eq_nil_iff.2 failed
        rw [runs_unit] at nothing
        rw [splitBody_cons, if_neg]
        intro accepted
        by_cases body : isBody c = true
        · simp [body] at nothing
        · simp only [body, Bool.false_or, Bool.and_eq_true, beq_iff_eq] at accepted
          obtain ⟨rfl, followed⟩ := accepted
          cases cs with
          | nil => cases followed
          | cons d cs =>
              have inside : isBody d = true := followed
              simp [body, inside] at nothing
  goes offset cs run begins := by
    cases cs with
    | nil => cases begins
    | cons c cs =>
        rw [← head?_runs, runs_unit] at begins
        rw [runs_unit]
        by_cases body : isBody c = true
        · rw [if_pos body] at begins ⊢
          cases begins
          refine ⟨rfl, by simp, rfl, rfl, ?_⟩
          rw [splitBody_cons, if_pos (by rw [body, Bool.true_or])]
          rfl
        · rw [if_neg body] at begins ⊢
          by_cases slash : c = '/'
          · subst slash
            cases cs with
            | nil => cases begins
            | cons d cs =>
                by_cases inside : isBody d = true
                · simp only [if_pos inside, if_true, List.head?_cons, Option.some.injEq]
                    at begins ⊢
                  subst begins
                  refine ⟨rfl, by simp, rfl, rfl, ?_⟩
                  rw [splitBody_cons, if_pos (by simp [inside]), splitBody_cons,
                    if_pos (by rw [inside, Bool.true_or])]
                  rfl
                · simp [inside] at begins
          · simp [slash] at begins

private theorem unit_ne_bracket {place : Nat} {run : Run Part}
    (starts : (first? unit place cs).isSome = true)
    (member : run ∈ runs (optional (literal ['/'])) offset cs) : run.rest.head? ≠ some '[' := by
  cases cs with
  | nil => cases starts
  | cons c cs =>
      rw [← head?_runs, runs_unit] at starts
      rw [runs_optional_cons] at member
      by_cases body : isBody c = true
      · have noSlash : c ≠ '/' := by
          rintro rfl
          exact absurd body (by decide)
        rw [if_neg noSlash, List.mem_singleton] at member
        subst member
        simp only [List.head?_cons, ne_eq, Option.some.injEq]
        rintro rfl
        exact absurd body (by decide)
      · rw [if_neg body] at starts
        by_cases slash : c = '/'
        · subst slash
          cases cs with
          | nil => cases starts
          | cons d cs =>
              have inside : isBody d = true := by
                by_cases inside : isBody d = true
                · exact inside
                · simp [inside] at starts
              rw [if_pos rfl] at member
              rcases List.mem_cons.1 member with rfl | member
              · simp only [List.head?_cons, ne_eq, Option.some.injEq]
                rintro rfl
                exact absurd inside (by decide)
              · cases List.mem_singleton.1 member
                simp
        · rw [if_neg slash] at starts
          cases starts

end Units

section Alternatives

variable {offset : Nat} {cs : List Char}

private theorem first?_lineComment :
    first? lineCommentPattern offset cs =
      if Comment.startsLine cs then
        some ⟨(splitRun (fun c _ => c != '\n') cs).1, (splitRun (fun c _ => c != '\n') cs).2,
          [(.lineComment, .ofChars offset (splitRun (fun c _ => c != '\n') cs).1)]⟩
      else none := by
  by_cases starts : Comment.startsLine cs = true
  · obtain ⟨inside, rfl⟩ := Comment.startsLine_iff.1 starts
    have opens : runs (.literal ['/', '/'] : Pattern Part) offset ('/' :: '/' :: inside) =
        [⟨['/', '/'], inside, []⟩] := rfl
    rw [if_pos starts, lineCommentPattern, first?_group, first?_seq opens (Or.inr (by simp)),
      (cuts_char _).first?_many, splitRun_cons, if_pos (by decide), splitRun_cons,
      if_pos (by decide)]
    rfl
  · have absent : first? (.literal ['/', '/'] : Pattern Part) offset cs = none := by
      rw [first?_literal]
      exact if_neg starts
    rw [if_neg starts, lineCommentPattern, first?_group, first?_seq_of_none absent]
    rfl

private theorem first?_blockComment :
    first? blockCommentPattern offset cs =
      if Comment.startsBlock cs then
        some ⟨['/', '*'], cs.drop 2, [(.blockComment, .ofChars offset ['/', '*'])]⟩
      else none := by
  rw [blockCommentPattern, first?_group, first?_literal, Comment.startsBlock,
    apply_ite (Option.map _)]
  rfl

theorem splitVariant?_cons (separator : List Char) (c : Char) (cs : List Char) :
    splitVariant? separator (c :: cs) =
      if isName c then
        if separator.isPrefixOf cs then some ([c], cs.drop separator.length)
        else (splitVariant? separator cs).map fun found => (c :: found.1, found.2)
      else none := by
  unfold splitVariant?
  rw [splitRun_cons]
  by_cases named : isName c = true
  · by_cases follows : separator.isPrefixOf cs = true
    · simp [named, follows]
    · rw [if_pos (by simp [named, follows]), if_pos named, if_neg follows]
      generalize splitRun (fun c rest => isName c && !separator.isPrefixOf rest) cs = parts
      obtain ⟨name, rest⟩ := parts
      cases rest with
      | nil => rfl
      | cons d rest =>
          by_cases last : isName d = true
          · simp [last]
          · simp [last]
  · simp [named]

private theorem find?_map_andThen {separator : List Char} {c : Char} (named : isName c = true)
    {ways : List (Run Part)}
    (found : ways.find? (fun run => separator.isPrefixOf run.rest) =
      if separator.isPrefixOf cs then some ⟨[], cs, []⟩
      else (splitVariant? separator cs).map fun found => ⟨found.1, separator ++ found.2, []⟩) :
    (ways.map (Run.andThen ⟨[c], cs, []⟩)).find? (fun run => separator.isPrefixOf run.rest) =
      (splitVariant? separator (c :: cs)).map fun found =>
        ⟨found.1, separator ++ found.2, []⟩ := by
  rw [List.find?_map]
  change Option.map _ (ways.find? fun run => separator.isPrefixOf run.rest) = _
  rw [found, splitVariant?_cons, if_pos named]
  by_cases next : separator.isPrefixOf cs = true
  · rw [if_pos next, if_pos next]
    obtain ⟨rest, rfl⟩ := List.isPrefixOf_iff_prefix.1 next
    rw [List.drop_left]
    rfl
  · rw [if_neg next, if_neg next, Option.map_map, Option.map_map]
    rfl

/-- Of the names that get longer and longer, the first one that the separator follows. -/
theorem find?_repeats (separator : List Char) {turns : Nat} (enough : cs.length ≤ turns) :
    (repeats false (runs (.char isName : Pattern Part)) turns offset cs).find?
        (fun run => separator.isPrefixOf run.rest) =
      if separator.isPrefixOf cs then some ⟨[], cs, []⟩
      else (splitVariant? separator cs).map fun found => ⟨found.1, separator ++ found.2, []⟩ := by
  induction turns generalizing offset cs with
  | zero =>
      cases List.length_eq_zero_iff.1 (Nat.le_zero.1 enough)
      rw [repeats, List.find?_cons]
      cases separator.isPrefixOf [] <;> rfl
  | succ turns ih =>
      rw [repeats, if_neg (by simp), List.find?_cons]
      by_cases here : separator.isPrefixOf cs = true
      · rw [here, if_pos rfl]
      · rw [if_neg here]
        simp only [here]
        cases cs with
        | nil => rfl
        | cons c cs =>
            by_cases named : isName c = true
            · rw [runs_char_cons, if_pos named, List.filter_cons_of_pos (by simp), List.filter_nil,
                List.flatMap_singleton]
              exact find?_map_andThen named (ih (Nat.le_of_succ_le_succ enough))
            · rw [runs_char_cons, if_neg named, splitVariant?_cons, if_neg named]
              rfl

private theorem find?_name (separator : List Char) :
    (runs (atLeastOne false (.char isName) : Pattern Part) offset cs).find?
        (fun run => separator.isPrefixOf run.rest) =
      (splitVariant? separator cs).map fun found => ⟨found.1, separator ++ found.2, []⟩ := by
  cases cs with
  | nil => rfl
  | cons c cs =>
      by_cases named : isName c = true
      · rw [atLeastOne, runs_seq, runs_char_cons, if_pos named, List.flatMap_singleton]
        exact find?_map_andThen named (find?_repeats separator (Nat.le_refl _))
      · rw [atLeastOne, runs_seq, runs_char_cons, if_neg named, splitVariant?_cons, if_neg named]
        rfl

private theorem first?_variant (separator : List Char) :
    first? (variantPattern separator) offset cs =
      (splitVariant? separator cs).map fun found =>
        ⟨found.1 ++ separator, found.2, [(.variantName, .ofChars offset found.1),
          (.variantSeparator, .ofChars (offset + byteLength found.1) separator)]⟩ := by
  have follows (place : Nat) (rest : List Char) :
      (first? (.group Part.variantSeparator (.literal separator)) place rest).isSome =
        separator.isPrefixOf rest := by
    rw [first?_group, first?_literal]
    cases separator.isPrefixOf rest <;> rfl
  rw [variantPattern, first?_seq_eq_find? follows, runs_group, List.find?_map]
  change (Option.map _
    (List.find? (fun run : Run Part => separator.isPrefixOf run.rest) _)).bind _ = _
  rw [find?_name, Option.map_map]
  cases splitVariant? separator cs with
  | none => rfl
  | some found =>
      simp [first?_group, first?_literal, Run.andThen]

private theorem runs_mark (offset : Nat) {lead following : List Char}
    (marked : IsMarker lead following) :
    ∃ others, runs mark offset (lead ++ following) = ⟨lead, following, []⟩ :: others ∧
      ∀ other ∈ others, other.rest.head? = some '!' := by
  obtain ⟨others, begins, unmarked⟩ := runs_optional '!' offset (lead ++ following)
  refine ⟨others, ?_, unmarked⟩
  rw [mark, begins]
  rcases marked with rfl | ⟨rfl, unmarked⟩
  · rfl
  · rw [List.nil_append, beq_eq_false_iff_ne.2 unmarked]
    rfl

private theorem first?_marked {name : Part} {q : Pattern Part} {lead following : List Char}
    (fails : ∀ place rest, first? q place ('!' :: rest) = none)
    (marked : IsMarker lead following) :
    first? (.seq (.group name mark) q) offset (lead ++ following) =
      (first? q (offset + byteLength lead) following).map
        (Run.andThen ⟨lead, following, [(name, .ofChars offset lead)]⟩) := by
  obtain ⟨others, begins, unmarked⟩ := runs_mark offset marked
  rw [first?_group_seq begins]
  intro other member place
  obtain ⟨rest, whole⟩ := List.head?_eq_some_iff.1 (unmarked other member)
  rw [whole, fails]

/-- The stem of a bracket, with the slash that may stand between it and the bracket, and the
rest. -/
def splitStem (cs : List Char) : List Char × List Char :=
  let slash := ((splitBody cs).2.head? == some '/').toNat
  ((splitBody cs).1 ++ (splitBody cs).2.take slash, (splitBody cs).2.drop slash)

private theorem runs_stem (offset : Nat) (cs : List Char) :
    ∃ others, runs stemPattern offset cs = ⟨(splitStem cs).1, (splitStem cs).2, []⟩ :: others ∧
      ∀ other ∈ others, other.rest.head? ≠ some '[' := by
  obtain ⟨shorter, begins, going⟩ := cuts_unit.runs_many offset cs
  obtain ⟨slashless, follows, slashes⟩ :=
    @runs_optional Part '/' (offset + byteLength (splitBody cs).1) (splitBody cs).2
  rw [stemPattern, runs_seq_cons begins follows]
  refine ⟨_, rfl, fun other member => ?_⟩
  rcases List.mem_append.1 member with behind | earlier
  · obtain ⟨tail, among, rfl⟩ := List.mem_map.1 behind
    rw [Run.andThen, slashes tail among]
    decide
  · obtain ⟨front, among, behind⟩ := List.mem_flatMap.1 earlier
    obtain ⟨tail, further, rfl⟩ := List.mem_map.1 behind
    obtain ⟨place, starts⟩ := going front among
    have closed : tail.rest.head? ≠ some '[' := unit_ne_bracket starts further
    exact closed

private theorem first?_stem (offset : Nat) (cs : List Char) :
    first? (.seq (.group .bracketStem stemPattern) (.literal ['['])) offset cs =
      if (splitStem cs).2.head? == some '[' then
        some ⟨(splitStem cs).1 ++ ['['], (splitStem cs).2.tail,
          [(.bracketStem, .ofChars offset (splitStem cs).1)]⟩
      else none := by
  obtain ⟨others, begins, closed⟩ := runs_stem offset cs
  rw [first?_group_seq begins, first?_singleton, apply_ite (Option.map _)]
  · rfl
  · intro other member place
    rw [first?_singleton, if_neg (by simpa using closed other member)]

private theorem first?_bracket {lead following : List Char} (marked : IsMarker lead following) :
    first? bracketPattern offset (lead ++ following) =
      if (splitStem following).2.head? == some '[' then
        some ⟨lead ++ (splitStem following).1 ++ ['['], (splitStem following).2.tail,
          [(.bracketMarker, .ofChars offset lead),
            (.bracketStem, .ofChars (offset + byteLength lead) (splitStem following).1)]⟩
      else none := by
  rw [bracketPattern, first?_marked _ marked, first?_stem, apply_ite (Option.map _)]
  · simp [Run.andThen]
  · intro place rest
    rw [first?_stem]
    rfl

private theorem first?_body (offset : Nat) (cs : List Char) :
    first? (.seq (.group .classBody (atLeastOne true unit)) (.group .classTrail mark)) offset cs =
      if (splitBody cs).1.isEmpty then none
      else some ⟨(splitBody cs).1 ++ marker (splitBody cs).2,
        (splitBody cs).2.drop (marker (splitBody cs).2).length,
        [(.classBody, .ofChars offset (splitBody cs).1),
          (.classTrail, .ofChars (offset + byteLength (splitBody cs).1)
            (marker (splitBody cs).2))]⟩ := by
  have body : first? (.group .classBody (atLeastOne true unit)) offset cs =
      if (splitBody cs).1.isEmpty then none
      else some ⟨(splitBody cs).1, (splitBody cs).2,
        [(.classBody, .ofChars offset (splitBody cs).1)]⟩ := by
    rw [first?_group, cuts_unit.first?_atLeastOne, apply_ite (Option.map _)]
    rfl
  by_cases empty : (splitBody cs).1.isEmpty = true
  · rw [if_pos empty] at body ⊢
    exact first?_seq_of_none body
  · rw [if_neg empty] at body ⊢
    obtain ⟨others, begins⟩ := List.head?_eq_some_iff.1 body
    obtain ⟨following, whole, trailing, dropped⟩ := exists_marker (splitBody cs).2
    obtain ⟨unmarked, follows, _⟩ := runs_mark (offset + byteLength (splitBody cs).1) trailing
    rw [← whole] at follows
    have trail : first? (.group .classTrail mark) (offset + byteLength (splitBody cs).1)
        (splitBody cs).2 = some ⟨marker (splitBody cs).2, following,
          [(.classTrail, .ofChars (offset + byteLength (splitBody cs).1)
            (marker (splitBody cs).2))]⟩ := by
      rw [first?_group, ← head?_runs, follows]
      rfl
    rw [first?_seq begins (Or.inl (by rw [trail]; rfl)), trail, dropped]
    rfl

private theorem first?_className {lead following : List Char} (marked : IsMarker lead following) :
    first? classNamePattern offset (lead ++ following) =
      if (splitBody following).1.isEmpty then none
      else some ⟨lead ++ (splitBody following).1 ++ marker (splitBody following).2,
        (splitBody following).2.drop (marker (splitBody following).2).length,
        [(.classLead, .ofChars offset lead),
          (.classBody, .ofChars (offset + byteLength lead) (splitBody following).1),
          (.classTrail, .ofChars (offset + byteLength lead + byteLength (splitBody following).1)
            (marker (splitBody following).2))]⟩ := by
  rw [classNamePattern, first?_marked _ marked, first?_body, apply_ite (Option.map _)]
  · simp [Run.andThen]
  · intro place rest
    rw [first?_body]
    rfl

private theorem first?_groupPattern {lead following : List Char}
    (marked : IsMarker lead following) :
    first? groupPattern offset (lead ++ following) =
      if following.head? == some '(' then
        some ⟨lead ++ ['('], following.tail, [(.groupMarker, .ofChars offset lead)]⟩
      else none := by
  rw [groupPattern, first?_marked (fun _ _ => rfl) marked, first?_singleton,
    apply_ite (Option.map _)]
  rfl

private theorem first?_unhandled :
    first? unhandledPattern offset cs =
      if (splitRun (fun c _ => !isBlank c) cs).1.isEmpty then none
      else some ⟨(splitRun (fun c _ => !isBlank c) cs).1, (splitRun (fun c _ => !isBlank c) cs).2,
        [(.unhandled, .ofChars offset (splitRun (fun c _ => !isBlank c) cs).1)]⟩ := by
  rw [unhandledPattern, first?_group, (cuts_char _).first?_atLeastOne, apply_ite (Option.map _)]
  rfl

private theorem splitStem_eq (cs : List Char) :
    splitStem cs =
      if (splitBody cs).2.head? == some '/' then ((splitBody cs).1 ++ ['/'], (splitBody cs).2.tail)
      else ((splitBody cs).1, (splitBody cs).2) := by
  rw [splitStem]
  cases (splitBody cs).2 with
  | nil => simp
  | cons c rest =>
      by_cases slash : c = '/'
      · simp [slash]
      · simp [beq_eq_false_iff_ne.2 slash]

private theorem scanItem?_stem (offset : Nat) {lead following : List Char}
    (marked : IsMarker lead following) :
    scanItem? offset (lead ++ following) =
      if (splitStem following).2.head? == some '[' then
        some (.bracket offset (!lead.isEmpty)
          (.ofChars (offset + byteLength lead) (splitStem following).1),
          (splitStem following).2.tail)
      else if !(splitBody following).1.isEmpty then
        some (.className
          (.ofChars offset (lead ++ (splitBody following).1 ++ marker (splitBody following).2))
          (.ofChars (offset + byteLength lead) (splitBody following).1)
          (!lead.isEmpty || !(marker (splitBody following).2).isEmpty),
          (splitBody following).2.drop (marker (splitBody following).2).length)
      else if (splitBody following).2.head? == some '(' then
        some (.group offset (!lead.isEmpty), (splitBody following).2.tail)
      else
        match splitRun (fun c _ => !isBlank c) (lead ++ following) with
        | ([], _) => none
        | (run, rest) => some (.unhandled (.ofChars offset run), rest) := by
  have told := scanItem?_marked offset marked
  rw [splitStem_eq]
  exact told

private theorem scanItem?_eq_first? (offset : Nat) (cs : List Char) :
    scanItem? offset cs =
      (first? (.either bracketPattern <| .either classNamePattern <|
        .either groupPattern unhandledPattern) offset cs).bind (readRun? offset) := by
  obtain ⟨following, whole, marked, _⟩ := exists_marker cs
  generalize marker cs = lead at whole marked
  subst whole
  rw [scanItem?_stem offset marked, first?_either, first?_either, first?_either,
    first?_bracket marked, first?_className marked, first?_groupPattern marked, first?_unhandled]
  have parts := splitBody_append following
  split
  next =>
    rw [Option.some_or, Option.bind_some, readRun?_bracket, Token.isEmpty_ofChars]
    rfl
  next =>
    rw [Option.none_or]
    cases bodyAt : splitBody following with
    | mk body rest =>
        rw [bodyAt] at parts
        cases body with
        | cons c body =>
            simp [readRun?_className, Token.isEmpty_ofChars]
        | nil =>
            obtain rfl : rest = following := parts
            simp only [List.isEmpty_nil, Bool.not_true, Bool.false_eq_true, if_false, if_true,
              Option.none_or]
            split
            next =>
              rw [Option.some_or, Option.bind_some, readRun?_group, Token.isEmpty_ofChars]
              rfl
            next =>
              rw [Option.none_or]
              cases splitRun (fun c _ => !isBlank c) (lead ++ rest) with
              | mk run rest => cases run <;> rfl

/-- The scanner reads what the first match of the expression says. -/
theorem scan?_eq_first? (separator : List Char) (offset : Nat) (cs : List Char) :
    scan? separator offset cs = (first? (pattern separator) offset cs).bind (readRun? offset) := by
  rw [scan?, pattern, first?_either, first?_either, first?_either, first?_lineComment,
    first?_blockComment, first?_variant]
  cases Comment.startsLine cs with
  | true => rfl
  | false =>
      cases block : Comment.startsBlock cs with
      | true =>
          obtain ⟨inside, rfl⟩ := Comment.startsBlock_iff.1 block
          rfl
      | false =>
          cases splitVariant? separator cs with
          | some found =>
              simp only [Bool.false_eq_true, if_false, Token.stop_ofChars]
              rfl
          | none => exact scanItem?_eq_first? offset cs

end Alternatives

end Lexeme

end ClassExpr
