import ClassExpr.Proofs.Typing.Lookahead

set_option autoImplicit false

/-! Reading in front of a line feed. A line feed is white space and part of no lexeme, so a lexeme
at the start of a text is scanned alike whether the text ends there or a line feed with anything
else follows it. -/

namespace ClassExpr

open Text

variable {cs : List Char} (more : List Char)

namespace Text

theorem splitRun_lineFeed {accepts : Char → List Char → Bool} (refused : accepts '\n' more = false)
    (same : ∀ c rest, accepts c (rest ++ '\n' :: more) = accepts c rest) (cs : List Char) :
    splitRun accepts (cs ++ '\n' :: more) =
      ((splitRun accepts cs).1, (splitRun accepts cs).2 ++ '\n' :: more) := by
  induction cs with
  | nil => rw [List.nil_append, splitRun_cons, if_neg (by simp [refused]), splitRun_nil, List.nil_append]
  | cons c cs ih =>
      rw [List.cons_append, splitRun_cons, splitRun_cons, same, ih]
      split <;> rfl

theorem isPrefixOf_lineFeed {word : List Char} (free : '\n' ∉ word) (cs : List Char) :
    word.isPrefixOf (cs ++ '\n' :: more) = word.isPrefixOf cs := by
  rw [Bool.eq_iff_iff, List.isPrefixOf_iff_prefix, List.isPrefixOf_iff_prefix]
  constructor
  · intro starts
    obtain ⟨rest, whole⟩ := starts
    rcases List.append_eq_append_iff.1 whole with ⟨inside, rfl, _⟩ | ⟨beyond, rfl, following⟩
    · exact List.prefix_append word inside
    · cases beyond with
      | nil => simp
      | cons c beyond =>
          rw [List.cons_append, List.cons.injEq] at following
          rw [← following.1] at free
          exact absurd (by simp) free
  · exact fun starts => starts.trans (List.prefix_append cs _)

theorem head?_lineFeed {c : Char} (other : '\n' ≠ c) (cs : List Char) :
    (cs ++ '\n' :: more).head? = some c ↔ cs.head? = some c := by
  cases cs with
  | nil => simp [other]
  | cons d cs => rfl

end Text

namespace Tree

theorem IsMarker.lineFeed {lead following : List Char} (marked : IsMarker lead following) :
    IsMarker lead (following ++ '\n' :: more) := by
  apply marked.imp_right
  rintro ⟨rfl, unmarked⟩
  refine ⟨rfl, ?_⟩
  rwa [Ne, head?_lineFeed more (by decide)]

theorem marker_lineFeed (cs : List Char) : marker (cs ++ '\n' :: more) = marker cs := by
  obtain ⟨following, whole, marked, _⟩ := exists_marker cs
  generalize marker cs = lead at whole marked ⊢
  rw [whole, List.append_assoc, marker_append (marked.lineFeed more)]

private theorem drop_marker_lineFeed (cs : List Char) :
    (cs ++ '\n' :: more).drop (marker cs).length = cs.drop (marker cs).length ++ '\n' :: more :=
  List.drop_append_of_le_length (List.length_take_le' _ _)

end Tree

namespace Comment

theorem startsLine_lineFeed (cs : List Char) :
    startsLine (cs ++ '\n' :: more) = startsLine cs :=
  isPrefixOf_lineFeed more (by decide) cs

theorem startsBlock_lineFeed (cs : List Char) :
    startsBlock (cs ++ '\n' :: more) = startsBlock cs :=
  isPrefixOf_lineFeed more (by decide) cs

/-- A comment that is closed, unless it ends with its line, ends in front of a line feed. -/
theorem Spans.lineFeed {taken rest : List Char} (spans : Spans taken rest)
    (ended : ∀ body, taken = '/' :: '*' :: body → closer <:+: body) :
    Spans taken (rest ++ '\n' :: more) := by
  cases spans with
  | line oneLine maximal =>
      refine Spans.line oneLine ?_
      cases rest with
      | nil => rfl
      | cons c rest => exact maximal
  | block first => exact Spans.block first
  | openBlock absent => exact absurd (ended _ rfl) absent

end Comment

namespace Lexeme

open ClassExpr.Tree

private theorem splitBody_lineFeed (cs : List Char) :
    splitBody (cs ++ '\n' :: more) = ((splitBody cs).1, (splitBody cs).2 ++ '\n' :: more) := by
  apply splitRun_lineFeed more rfl
  intro c rest
  have lineFeed : isBody '\n' = false := by decide
  cases rest with
  | nil => simp [lineFeed]
  | cons d rest => rfl

private theorem splitVariant?_lineFeed {separator : List Char} (free : '\n' ∉ separator)
    (cs : List Char) :
    splitVariant? separator (cs ++ '\n' :: more) =
      (splitVariant? separator cs).map fun (name, rest) => (name, rest ++ '\n' :: more) := by
  have run := @splitRun_lineFeed more (fun c rest => isName c && !separator.isPrefixOf rest) rfl
    (fun c rest => by rw [isPrefixOf_lineFeed more free]) cs
  have maximal := splitRun_maximal (fun c rest => isName c && !separator.isPrefixOf rest) cs
  unfold splitVariant?
  rw [run]
  generalize splitRun (fun c rest => isName c && !separator.isPrefixOf rest) cs = parts at maximal
  obtain ⟨front, stopped⟩ := parts
  cases stopped with
  | nil => rfl
  | cons c rest =>
      dsimp only [List.cons_append]
      by_cases last : isName c = true
      · -- the run has stopped in front of a name's last character, since the separator follows
        have refused := maximal c rest rfl
        rw [last, Bool.true_and, Bool.not_eq_false', List.isPrefixOf_iff_prefix] at refused
        obtain ⟨later, rfl⟩ := refused
        simp [last, List.append_assoc]
      · simp [last]

private theorem opensBracket_lineFeed (after : List Char) :
    opensBracket (after ++ '\n' :: more) = opensBracket after := by
  match after with
  | [] => rfl
  | [c] =>
      by_cases slash : c = '/'
      · simp [opensBracket, slash]
      · simp [opensBracket, slash]
  | c :: d :: after => simp [opensBracket, apply_ite]

private theorem scanItem?_lineFeed {offset : Nat} {rest : List Char} {lexeme : Lexeme}
    (scanned : scanItem? offset cs = some (lexeme, rest)) :
    scanItem? offset (cs ++ '\n' :: more) = some (lexeme, rest ++ '\n' :: more) := by
  have scans := itemScans_of_scanItem? scanned
  cases scans with
  | @bracket lead body slash rest slashed marked split =>
      have marks := marked.lineFeed more
      have splits := splitBody_lineFeed more (body ++ (slash ++ '[' :: rest))
      rw [split] at splits
      simp only [List.append_assoc, List.cons_append] at marks splits ⊢
      exact scanItem?_bracket slashed marks splits
  | @className lead body after marked split nonempty noBracket =>
      have marks := marked.lineFeed more
      have splits := splitBody_lineFeed more (body ++ after)
      rw [split] at splits
      simp only [List.append_assoc] at marks splits ⊢
      rw [scanItem?_className marks splits nonempty (by rw [opensBracket_lineFeed, noBracket]),
        marker_lineFeed, drop_marker_lineFeed, List.append_assoc]
  | @group lead rest marked =>
      have marks := marked.lineFeed more
      simp only [List.append_assoc, List.cons_append] at marks ⊢
      exact scanItem?_group marks
  | @unhandled lead following run rest marked split noBracket noGroup nonempty taken =>
      have marks := marked.lineFeed more
      have splits := splitBody_lineFeed more following
      rw [split] at splits
      have run := @splitRun_lineFeed more (fun c _ => !isBlank c) rfl (fun _ _ => rfl)
        (lead ++ following)
      rw [taken] at run
      simp only [List.append_assoc] at run ⊢
      rw [scanItem?_unhandled marks splits (by rw [opensBracket_lineFeed, noBracket])
        (by rwa [Ne, head?_lineFeed more (by decide)]), run]
      split
      next same => cases same; exact absurd rfl nonempty
      next same => cases same; rfl

theorem scan?_lineFeed {separator : List Char} (free : '\n' ∉ separator) {offset : Nat}
    {rest : List Char} {lexeme : Lexeme}
    (scanned : scan? separator offset cs = some (lexeme, rest)) :
    scan? separator offset (cs ++ '\n' :: more) = some (lexeme, rest ++ '\n' :: more) := by
  unfold scan? at scanned ⊢
  rw [Comment.startsLine_lineFeed, Comment.startsBlock_lineFeed]
  split at scanned
  next line =>
    rw [if_pos line, splitRun_lineFeed more rfl fun _ _ => rfl]
    cases scanned
    rfl
  next noLine =>
    rw [if_neg noLine]
    split at scanned
    next block =>
      obtain ⟨inside, rfl⟩ := Comment.startsBlock_iff.1 block
      rw [if_pos block]
      cases scanned
      rfl
    next noBlock =>
      rw [if_neg noBlock, splitVariant?_lineFeed more free]
      split at scanned
      next name later found =>
        rw [found]
        cases scanned
        rfl
      next none =>
        rw [none]
        exact scanItem?_lineFeed more scanned

end Lexeme

end ClassExpr
