import ClassExpr.Proofs.Lexing.Scanner
import ClassExpr.Proofs.Typing.Lookahead

set_option autoImplicit false

/-! The lexical grammar, said without a scanner: what each kind of lexeme is at the start of a
window, which kinds may stand there together, and which one of them is read. -/

namespace ClassExpr

namespace Lexeme

open Text Pattern ClassExpr.Tree

def Only (accepts : Char → Bool) (cs : List Char) : Prop :=
  ∀ c ∈ cs, accepts c = true

structure Longest (IsRun : List Char → Prop) (taken rest : List Char) : Prop where
  run : IsRun taken
  maximal : ∀ longer after, longer ++ after = taken ++ rest → IsRun longer →
    longer.length ≤ taken.length

/-- The shortest name that the separator follows. A start of a name is a name too. -/
structure ShortestName (separator name rest : List Char) : Prop where
  nonempty : name ≠ []
  named : Only isName name
  minimal : ∀ shorter after, shorter ++ separator ++ after = name ++ separator ++ rest →
    shorter ≠ [] → name.length ≤ shorter.length

/-- The lexemes that may stand at the start of a window, whatever else may stand there. -/
inductive Fits (separator : List Char) (offset : Nat) : List Char → Lexeme → Prop
  | lineComment {taken rest : List Char} (starts : ['/', '/'] <+: taken)
      (longest : Longest (Only (· != '\n')) taken rest) :
      Fits separator offset (taken ++ rest) (.lineComment (.ofChars offset taken))
  | blockComment {rest : List Char} :
      Fits separator offset ('/' :: '*' :: rest) (.blockComment (.ofChars offset ['/', '*']))
  | variant {name rest : List Char} (shortest : ShortestName separator name rest) :
      Fits separator offset (name ++ separator ++ rest)
        (.variant (.ofChars offset name) (.ofChars (offset + byteLength name) separator))
  | bracket {lead body slash rest : List Char}
      (marked : IsMarker lead (body ++ (slash ++ '[' :: rest)))
      (longest : Longest IsBodyRun body (slash ++ '[' :: rest))
      (slashed : slash = [] ∨ slash = ['/']) :
      Fits separator offset (lead ++ (body ++ (slash ++ '[' :: rest)))
        (.bracket offset (!lead.isEmpty) (.ofChars (offset + byteLength lead) (body ++ slash)))
  | className {lead body trail rest : List Char}
      (marked : IsMarker lead (body ++ (trail ++ rest))) (nonempty : body ≠ [])
      (longest : Longest IsBodyRun body (trail ++ rest)) (trailing : IsMarker trail rest) :
      Fits separator offset (lead ++ (body ++ (trail ++ rest)))
        (.className (.ofChars offset (lead ++ body ++ trail))
          (.ofChars (offset + byteLength lead) body) (!lead.isEmpty || !trail.isEmpty))
  | group {lead rest : List Char} (marked : IsMarker lead ('(' :: rest)) :
      Fits separator offset (lead ++ '(' :: rest) (.group offset (!lead.isEmpty))
  | unhandled {run rest : List Char} (nonempty : run ≠ [])
      (longest : Longest (Only fun c => !isBlank c) run rest) :
      Fits separator offset (run ++ rest) (.unhandled (.ofChars offset run))

def rank : Lexeme → Nat
  | .lineComment _ => 0
  | .blockComment _ => 1
  | .variant _ _ => 2
  | .bracket _ _ _ => 3
  | .className _ _ _ => 4
  | .group _ _ => 5
  | .unhandled _ => 6

/-- A lexeme that no other one at its place comes before. -/
structure Wins (separator : List Char) (offset : Nat) (cs : List Char) (lexeme : Lexeme) :
    Prop where
  fits : Fits separator offset cs lexeme
  first : ∀ other, Fits separator offset cs other → lexeme.rank ≤ other.rank

variable {separator : List Char} {offset : Nat}

section Runs

theorem Longest.unique {IsRun : List Char → Prop} {taken rest other after : List Char}
    (one : Longest IsRun taken rest) (two : Longest IsRun other after)
    (same : taken ++ rest = other ++ after) : taken = other ∧ rest = after := by
  have shorter := one.maximal other after same.symm two.run
  have longer := two.maximal taken rest same one.run
  exact List.append_inj same (Nat.le_antisymm longer shorter)

private theorem longest_splitRun (accepts : Char → Bool) (cs : List Char) :
    Longest (Only accepts) (splitRun (fun c _ => accepts c) cs).1
      (splitRun (fun c _ => accepts c) cs).2 := by
  have ⟨accepted, stopped⟩ := splitRun_forall accepts cs
  refine ⟨accepted, fun longer after whole only => ?_⟩
  generalize (splitRun (fun c _ => accepts c) cs).1 = taken at accepted whole
  generalize (splitRun (fun c _ => accepts c) cs).2 = rest at stopped whole
  rcases List.append_eq_append_iff.1 whole with ⟨more, rfl, _⟩ | ⟨more, rfl, same⟩
  · simp
  · cases more with
    | nil => simp
    | cons c more =>
        rw [same] at stopped
        have refused : accepts c = false := by simpa using stopped
        have wanted := only c (by simp)
        rw [refused] at wanted
        cases wanted

theorem IsBodyRun.length_le {longer : List Char} (run : IsBodyRun longer) (after : List Char) :
    longer.length ≤ (splitBody (longer ++ after)).1.length := by
  induction run with
  | nil => exact Nat.zero_le _
  | char body _ ih =>
      rw [List.cons_append, splitBody_cons, if_pos (by rw [body, Bool.true_or])]
      exact Nat.succ_le_succ ih
  | slash body _ ih =>
      rw [List.cons_append, List.cons_append, splitBody_cons, if_pos (by simp [body]),
        splitBody_cons, if_pos (by rw [body, Bool.true_or])]
      exact Nat.succ_le_succ (Nat.succ_le_succ ih)

private theorem longest_splitBody (cs : List Char) :
    Longest IsBodyRun (splitBody cs).1 (splitBody cs).2 := by
  refine ⟨isBodyRun_splitBody cs, fun longer after whole run => ?_⟩
  have bound := run.length_le after
  rwa [whole, splitBody_append] at bound

private theorem shortestName_cons {c : Char} {name rest : List Char} (named : isName c = true)
    (unseparated : ¬separator <+: name ++ separator ++ rest) :
    ShortestName separator (c :: name) rest ↔ ShortestName separator name rest := by
  constructor
  · intro shortest
    refine ⟨?_, fun d member => shortest.named d (List.mem_cons_of_mem c member), ?_⟩
    · rintro rfl
      exact unseparated ⟨rest, rfl⟩
    · intro shorter after whole _
      have bound := shortest.minimal (c :: shorter) after (by simpa using whole) (by simp)
      exact Nat.le_of_succ_le_succ bound
  · intro shortest
    refine ⟨by simp, ?_, ?_⟩
    · intro d member
      rcases List.mem_cons.1 member with rfl | later
      · exact named
      · exact shortest.named d later
    · intro shorter after whole nonempty
      cases shorter with
      | nil => exact absurd rfl nonempty
      | cons d shorter =>
          have behind : shorter ++ separator ++ after = name ++ separator ++ rest := by
            simpa using (List.cons.inj whole).2
          have further : shorter ≠ [] := by
            rintro rfl
            exact unseparated ⟨after, behind⟩
          exact Nat.succ_le_succ (shortest.minimal shorter after behind further)

private theorem splitBody_of_longest {body rest : List Char}
    (longest : Longest IsBodyRun body rest) :
    splitBody (body ++ rest) = (body, rest) := by
  have ⟨same, after⟩ :=
    (longest_splitBody (body ++ rest)).unique longest (splitBody_append (body ++ rest))
  exact Prod.ext same after

private theorem longest_of_splitBody {body rest : List Char}
    (split : splitBody (body ++ rest) = (body, rest)) : Longest IsBodyRun body rest := by
  have longest := longest_splitBody (body ++ rest)
  rwa [split] at longest

private theorem splitVariant?_eq_some_iff {cs name rest : List Char} :
    splitVariant? separator cs = some (name, rest) ↔
      cs = name ++ separator ++ rest ∧ ShortestName separator name rest := by
  induction cs generalizing name with
  | nil =>
      refine ⟨fun found => (by cases found), ?_⟩
      rintro ⟨whole, shortest⟩
      have empty := List.append_eq_nil_iff.1 (List.append_eq_nil_iff.1 whole.symm).1
      exact absurd empty.1 shortest.nonempty
  | cons c cs ih =>
      rw [splitVariant?_cons]
      by_cases named : isName c = true
      · rw [if_pos named]
        by_cases next : separator <+: cs
        · rw [if_pos (List.isPrefixOf_iff_prefix.2 next)]
          obtain ⟨after, rfl⟩ := next
          rw [List.drop_left]
          constructor
          · intro found
            cases found
            refine ⟨rfl, by simp, by simpa [Only] using named, ?_⟩
            intro shorter _ _ nonempty
            exact List.length_pos_iff.2 nonempty
          · rintro ⟨whole, shortest⟩
            have single := shortest.minimal [c] after (by simpa using whole) (by simp)
            cases name with
            | nil => exact absurd rfl shortest.nonempty
            | cons d name =>
                cases List.length_eq_zero_iff.1 (Nat.le_zero.1 (Nat.le_of_succ_le_succ single))
                simp only [List.cons_append, List.nil_append, List.cons.injEq,
                  List.append_cancel_left_eq] at whole
                rw [whole.1, whole.2]
        · rw [if_neg (by rwa [List.isPrefixOf_iff_prefix]), Option.map_eq_some_iff]
          constructor
          · rintro ⟨⟨later, behind⟩, found, same⟩
            cases same
            obtain ⟨rfl, shortest⟩ := ih.1 found
            exact ⟨rfl, (shortestName_cons named next).2 shortest⟩
          · rintro ⟨whole, shortest⟩
            cases name with
            | nil => exact absurd rfl shortest.nonempty
            | cons d name =>
                obtain ⟨rfl, rfl⟩ : c = d ∧ cs = name ++ separator ++ rest := by simpa using whole
                exact ⟨(name, rest), ih.2 ⟨rfl, (shortestName_cons named next).1 shortest⟩, rfl⟩
      · rw [if_neg named]
        refine ⟨fun found => (by cases found), ?_⟩
        rintro ⟨whole, shortest⟩
        cases name with
        | nil => exact absurd rfl shortest.nonempty
        | cons d name =>
            obtain rfl : c = d := (List.cons.inj whole).1
            exact absurd (shortest.named c (List.mem_cons_self ..)) named

end Runs

private theorem fits_of_scanItem? {cs rest : List Char} {lexeme : Lexeme}
    (scanned : scanItem? offset cs = some (lexeme, rest)) : Fits separator offset cs lexeme := by
  cases itemScans_of_scanItem? scanned with
  | bracket slashed marked split => exact .bracket marked (longest_of_splitBody split) slashed
  | @className lead body after marked split nonempty _ =>
      have longest := longest_of_splitBody split
      obtain ⟨later, same, trailing, _⟩ := exists_marker after
      generalize marker after = trail at same trailing
      subst same
      exact .className marked nonempty longest trailing
  | group marked => exact .group marked
  | @unhandled lead following run _ _ _ _ _ nonempty taken =>
      have longest := longest_splitRun (fun c => !isBlank c) (lead ++ following)
      have whole := splitRun_append (fun c _ => !isBlank c) (lead ++ following)
      rw [taken] at longest whole
      rw [← whole]
      exact .unhandled nonempty longest

private theorem fits_of_scan? {cs rest : List Char} {lexeme : Lexeme}
    (scanned : scan? separator offset cs = some (lexeme, rest)) :
    Fits separator offset cs lexeme := by
  unfold scan? at scanned
  split at scanned
  next line =>
    have longest := longest_splitRun (· != '\n') cs
    cases split : splitRun (fun c _ => c != '\n') cs with
    | mk comment later =>
        rw [split] at scanned longest
        cases scanned
        obtain ⟨rfl, _, starts⟩ := spans_of_lineComment line split
        exact .lineComment (List.isPrefixOf_iff_prefix.1 starts) longest
  next =>
    split at scanned
    next block =>
      obtain ⟨inside, rfl⟩ := Comment.startsBlock_iff.1 block
      cases scanned
      exact .blockComment
    next =>
      split at scanned
      next name later found =>
        obtain ⟨rfl, shortest⟩ := splitVariant?_eq_some_iff.1 found
        cases scanned
        rw [Token.stop_ofChars]
        exact .variant shortest
      next => exact fits_of_scanItem? scanned

/-- What is read at the start of a window is a lexeme or comes before it. -/
def ReadsUpTo (separator : List Char) (offset : Nat) (cs : List Char) (lexeme : Lexeme) : Prop :=
  ∃ scanned rest, scan? separator offset cs = some (scanned, rest) ∧
    (scanned.rank < lexeme.rank ∨ scanned = lexeme)

private theorem readsUpTo_of_item {cs rest : List Char} {scanned lexeme : Lexeme}
    (item : scanItem? offset cs = some (scanned, rest)) (late : 2 < lexeme.rank)
    (upTo : scanned.rank < lexeme.rank ∨ scanned = lexeme) :
    ReadsUpTo separator offset cs lexeme := by
  unfold ReadsUpTo scan?
  split
  · exact ⟨_, _, rfl, Or.inl (Nat.lt_of_le_of_lt (Nat.zero_le 2) late)⟩
  · split
    · exact ⟨_, _, rfl, Or.inl (Nat.lt_of_le_of_lt (Nat.le_succ 1) late)⟩
    · split
      · exact ⟨_, _, rfl, Or.inl late⟩
      · exact ⟨scanned, rest, item, upTo⟩

private theorem splitRun_of_longest {accepts : Char → Bool} {taken rest : List Char}
    (longest : Longest (Only accepts) taken rest) :
    splitRun (fun c _ => accepts c) (taken ++ rest) = (taken, rest) := by
  have ⟨same, after⟩ :=
    (longest_splitRun accepts (taken ++ rest)).unique longest (splitRun_append _ (taken ++ rest))
  exact Prod.ext same after

private theorem readsUpTo_lineComment {taken rest : List Char} (starts : ['/', '/'] <+: taken)
    (longest : Longest (Only (· != '\n')) taken rest) :
    ReadsUpTo separator offset (taken ++ rest) (.lineComment (.ofChars offset taken)) := by
  have line : Comment.startsLine (taken ++ rest) = true :=
    List.isPrefixOf_iff_prefix.2 (starts.trans (List.prefix_append taken rest))
  refine ⟨_, rest, ?_, Or.inr rfl⟩
  rw [scan?, if_pos line, splitRun_of_longest longest]

private theorem readsUpTo_blockComment (rest : List Char) :
    ReadsUpTo separator offset ('/' :: '*' :: rest)
      (.blockComment (.ofChars offset ['/', '*'])) :=
  ⟨_, rest, rfl, Or.inr rfl⟩

private theorem readsUpTo_variant {name rest : List Char}
    (shortest : ShortestName separator name rest) :
    ReadsUpTo separator offset (name ++ separator ++ rest)
      (.variant (.ofChars offset name) (.ofChars (offset + byteLength name) separator)) := by
  unfold ReadsUpTo scan?
  split
  · exact ⟨_, _, rfl, Or.inl (by simp [rank])⟩
  · split
    · exact ⟨_, _, rfl, Or.inl (by simp [rank])⟩
    · rw [splitVariant?_eq_some_iff.2 ⟨rfl, shortest⟩]
      exact ⟨_, rest, rfl, Or.inr (by rw [Token.stop_ofChars])⟩

private theorem readsUpTo_bracket {lead body slash rest : List Char}
    (marked : IsMarker lead (body ++ (slash ++ '[' :: rest)))
    (longest : Longest IsBodyRun body (slash ++ '[' :: rest))
    (slashed : slash = [] ∨ slash = ['/']) :
    ReadsUpTo separator offset (lead ++ (body ++ (slash ++ '[' :: rest)))
      (.bracket offset (!lead.isEmpty) (.ofChars (offset + byteLength lead) (body ++ slash))) :=
  readsUpTo_of_item (scanItem?_bracket slashed marked (splitBody_of_longest longest))
    (by simp [rank]) (Or.inr rfl)

private theorem readsUpTo_className {lead body trail rest : List Char}
    (marked : IsMarker lead (body ++ (trail ++ rest))) (nonempty : body ≠ [])
    (longest : Longest IsBodyRun body (trail ++ rest)) (trailing : IsMarker trail rest) :
    ReadsUpTo separator offset (lead ++ (body ++ (trail ++ rest)))
      (.className (.ofChars offset (lead ++ body ++ trail))
        (.ofChars (offset + byteLength lead) body) (!lead.isEmpty || !trail.isEmpty)) := by
  have split := splitBody_of_longest longest
  cases opens : opensBracket (trail ++ rest) with
  | false =>
      have item := @scanItem?_className offset _ _ _ marked split nonempty opens
      rw [marker_append trailing] at item
      exact readsUpTo_of_item item (by simp [rank]) (Or.inr rfl)
  | true =>
      obtain ⟨slash, later, slashed, same⟩ := exists_of_opensBracket opens
      rw [same] at marked split ⊢
      exact readsUpTo_of_item (scanItem?_bracket slashed marked split) (by simp [rank])
        (Or.inl (by simp [rank]))

private theorem readsUpTo_group {lead rest : List Char} (marked : IsMarker lead ('(' :: rest)) :
    ReadsUpTo separator offset (lead ++ '(' :: rest) (.group offset (!lead.isEmpty)) :=
  readsUpTo_of_item (scanItem?_group marked) (by simp [rank]) (Or.inr rfl)

private theorem readsUpTo_unhandled {run rest : List Char} (nonempty : run ≠ [])
    (longest : Longest (Only fun c => !isBlank c) run rest) :
    ReadsUpTo separator offset (run ++ rest) (.unhandled (.ofChars offset run)) := by
  have split := splitRun_of_longest longest
  obtain ⟨c, tail, rfl⟩ := List.exists_cons_of_ne_nil nonempty
  have visible : isBlank c = false := by simpa using longest.run c List.mem_cons_self
  obtain ⟨⟨lexeme, after⟩, scanned⟩ := Option.isSome_iff_exists.1
    (@scanItem?_isSome c (tail ++ rest) offset visible)
  rw [List.cons_append] at split ⊢
  refine readsUpTo_of_item scanned (by simp [rank]) ?_
  generalize c :: (tail ++ rest) = cs at scanned split
  cases itemScans_of_scanItem? scanned with
  | bracket => exact Or.inl (by simp [rank])
  | className => exact Or.inl (by simp [rank])
  | group => exact Or.inl (by simp [rank])
  | unhandled _ _ _ _ _ taken =>
      rw [split] at taken
      cases taken
      exact Or.inr rfl

private theorem readsUpTo_of_fits {cs : List Char} {lexeme : Lexeme}
    (fits : Fits separator offset cs lexeme) : ReadsUpTo separator offset cs lexeme := by
  cases fits with
  | lineComment starts longest => exact readsUpTo_lineComment starts longest
  | blockComment => exact readsUpTo_blockComment _
  | variant shortest => exact readsUpTo_variant shortest
  | bracket marked longest slashed => exact readsUpTo_bracket marked longest slashed
  | className marked nonempty longest trailing =>
      exact readsUpTo_className marked nonempty longest trailing
  | group marked => exact readsUpTo_group marked
  | unhandled nonempty longest => exact readsUpTo_unhandled nonempty longest

/-- What is read comes before everything else that fits, and nothing else does. -/
theorem wins_of_scan? {cs rest : List Char} {lexeme : Lexeme}
    (scanned : scan? separator offset cs = some (lexeme, rest)) :
    Wins separator offset cs lexeme ∧
      ∀ other, Wins separator offset cs other → other = lexeme := by
  have before (other : Lexeme) (fits : Fits separator offset cs other) :
      lexeme.rank < other.rank ∨ lexeme = other := by
    obtain ⟨_, _, again, upTo⟩ := readsUpTo_of_fits fits
    rw [scanned] at again
    cases again
    exact upTo
  refine ⟨⟨fits_of_scan? scanned, fun other fits => ?_⟩, fun other wins => ?_⟩
  · rcases before other fits with earlier | rfl
    · exact Nat.le_of_lt earlier
    · exact Nat.le_refl _
  · rcases before other wins.fits with earlier | same
    · exact absurd (wins.first lexeme (fits_of_scan? scanned)) (Nat.not_le.2 earlier)
    · exact same.symm

/-- Where anything but white space stands at the start of a window, the lexeme that is read there is
the one that wins, and it is what the first match of the expression says. -/
theorem exists_scanRange?_wins (separator text : String) {position stop : Nat}
    (before : position < stop) (starts : isBoundary text.toList position = true)
    (stops : isBoundary text.toList stop = true)
    (solid : (between position stop text.toList).head?.any (!isBlank ·) = true) :
    ∃ lexeme, scanRange? separator text position stop = some (some lexeme) ∧
      Wins separator.toList position (between position stop text.toList) lexeme ∧
      (∀ other, Wins separator.toList position (between position stop text.toList) other →
        other = lexeme) ∧
      (first? (pattern separator.toList) position (between position stop text.toList)).bind
        (ofRun? position) = some lexeme := by
  have ⟨occurs, ends⟩ := occurs_between (Nat.le_of_lt before) starts stops
  generalize between position stop text.toList = window at solid occurs ends
  cases window with
  | nil => cases solid
  | cons c cs =>
      have visible : isBlank c = false := by simpa using solid
      obtain ⟨⟨lexeme, rest⟩, scanned⟩ :=
        Option.isSome_iff_exists.1 (@scan?_isSome separator.toList c cs position visible)
      have ⟨wins, unique⟩ := wins_of_scan? scanned
      refine ⟨lexeme, ?_, wins, unique, ?_⟩
      · rw [scanRange?_eq occurs ends, scanned]
        rfl
      · rw [scan?_eq_first?] at scanned
        obtain ⟨run, found, told⟩ := Option.bind_eq_some_iff.1 scanned
        obtain ⟨same, read, paired⟩ := Option.map_eq_some_iff.1 told
        cases paired
        rw [found]
        exact read

/-- A separator of a name's own characters, in front of what would be a bracket. -/
theorem exists_scanRange?_wins_dash :
    scanRange? "-" "é a-b[c]" 3 7 =
        some (some (.variant (.ofChars 3 ['a']) (.ofChars 4 ['-']))) ∧
      Wins ['-'] 3 ['a', '-', 'b', '['] (.variant (.ofChars 3 ['a']) (.ofChars 4 ['-'])) := by
  obtain ⟨lexeme, scanned, wins, _, _⟩ :=
    @exists_scanRange?_wins "-" "é a-b[c]" 3 7 (by decide) (by decide) (by decide) (by decide)
  have told : scanRange? "-" "é a-b[c]" 3 7 =
      some (some (.variant (.ofChars 3 ['a']) (.ofChars 4 ['-']))) := by decide
  refine ⟨told, ?_⟩
  rw [told] at scanned
  cases scanned
  exact wins

end Lexeme

end ClassExpr
