import ClassExpr.Proofs.Matching.Following
import ClassExpr.Proofs.Matching.Window

set_option autoImplicit false

/-! The search for a closer ends at the first closer that counts and balances the openers that
count. A call that has begun is settled by what comes next: where no call is spelled, none is
entered. -/

namespace ClassExpr.Bracket

open Text

variable {pair : Pair} {call : Call} {depth : Nat}

/-! ### The first closer that balances -/

/-- Where the depth comes back to zero if only the marked characters count. -/
def closing? (pair : Pair) : Nat → List Char → List Bool → Option Nat
  | depth, c :: cs, mark :: marks =>
      if mark && c == pair.opener then (closing? pair (depth + 1) cs marks).map (· + 1)
      else if mark && c == pair.closer then
        if depth ≤ 1 then some 0 else (closing? pair (depth - 1) cs marks).map (· + 1)
      else (closing? pair depth cs marks).map (· + 1)
  | _, _, _ => none

private theorem closing?_unmarked (depth : Nat) (taken rest : List Char) (marks : List Bool) :
    closing? pair depth (taken ++ rest) (List.replicate taken.length false ++ marks) =
      (closing? pair depth rest marks).map (· + taken.length) := by
  induction taken with
  | nil => simp
  | cons c taken ih =>
      rw [List.cons_append, List.length_cons, List.replicate_succ, List.cons_append, closing?]
      simp only [Bool.false_and, Bool.false_eq_true, if_false]
      rw [ih, Option.map_map]
      rfl

def restAt (cs : List Char) (place : Option Nat) : List Char :=
  place.elim [] cs.drop

private theorem restAt_append (taken rest : List Char) (place : Option Nat) :
    restAt (taken ++ rest) (place.map (· + taken.length)) = restAt rest place := by
  cases place with
  | none => rfl
  | some i =>
      rw [restAt, restAt, Option.map_some, Option.elim_some, Option.elim_some, Nat.add_comm,
        List.drop_append]
      simp

private theorem restAt_cons (c : Char) (cs : List Char) (place : Option Nat) :
    restAt (c :: cs) (place.map (· + 1)) = restAt cs place :=
  restAt_append [c] cs place

private theorem move_counted {before cs : List Char} {c : Char} (plain : isQuote c = false)
    (noLine : Comment.startsLine (c :: cs) = false)
    (noBlock : Comment.startsBlock (c :: cs) = false) (outside : call ≠ .argument)
    (still : call.next before c ≠ .argument) :
    move pair ⟨.code, call, depth⟩ before c cs.head? =
      if c == pair.opener then .advance ⟨.code, call.next before c, depth + 1⟩
      else if c == pair.closer then
        if depth ≤ 1 then .halt else .advance ⟨.code, call.next before c, depth - 1⟩
      else .advance ⟨.code, call.next before c, depth⟩ := by
  have line : (c == '/' && cs.head? == some '/') = false := by
    rw [← noLine]
    cases cs <;> simp [Comment.startsLine, List.isPrefixOf, Bool.beq_comm]
  have block : (c == '/' && cs.head? == some '*') = false := by
    rw [← noBlock]
    cases cs <;> simp [Comment.startsBlock, List.isPrefixOf, Bool.beq_comm]
  simp only [move, moveCode, outside, still, line, block, plain, if_false, Bool.false_eq_true]

private theorem move_quote (known : pair.IsKnown) (outside : call ≠ .argument) {mark : Char}
    (quote : isQuote mark = true) (before : List Char) (ahead : Option Char) :
    move pair ⟨.code, call, depth⟩ before mark ahead = .advance ⟨.quoted mark, .none, depth⟩ := by
  have quoted : mark = '\'' ∨ mark = '"' := by simpa [isQuote] using quote
  have next : call.next before mark = .none := by
    cases call with
    | argument => exact absurd rfl outside
    | none => rcases quoted with rfl | rfl <;> rfl
    | u => rcases quoted with rfl | rfl <;> rfl
    | ur => rcases quoted with rfl | rfl <;> rfl
    | url => rcases quoted with rfl | rfl <;> rfl
  rcases known with rfl | rfl
  · rcases quoted with rfl | rfl <;> simp [move, moveCode, outside, next, isQuote, Pair.parens]
  · rcases quoted with rfl | rfl <;> simp [move, moveCode, outside, next, isQuote, Pair.square]

/-- The search ends where the marked brackets are balanced. -/
theorem rest_reads (known : pair.IsKnown) {before cs : List Char} {marks : List Bool}
    (reads : Reads Commented before cs marks) (stalled : Stalled call cs) (depth : Nat) :
    (sweep (move pair) ⟨.code, call, depth⟩ before cs).rest =
      restAt cs (closing? pair depth cs marks) := by
  induction reads generalizing call depth with
  | done => rfl
  | @quoted before body rest mark marks quote spans _ ih =>
      rw [closing?_unmarked, restAt_append, ← ih (stalled_none rest) depth, List.cons_append,
        sweep_cons_advance (move pair) (move_quote known stalled.ne_argument quote before _),
        rest_quoted quote spans]
  | @comment before comment rest marks closed _ ih =>
      rw [closing?_unmarked, restAt_append, ← ih (stalled.behind closed) depth,
        sweep_closedComment closed stalled.ne_argument]
  | @openComment before comment opened =>
      have nothing := @closing?_unmarked pair depth comment [] []
      rw [List.append_nil, List.append_nil] at nothing
      rw [nothing, rest_openComment opened stalled.ne_argument]
      rfl
  | @call before taken argument rest marks starts spans _ ih =>
      rw [← List.append_assoc, closing?_unmarked, restAt_append, ← ih (stalled_none rest) depth,
        List.append_assoc, rest_call known starts spans stalled.ne_argument]
  | @char before cs c marks plain noLine noBlock noCall _ ih =>
      have later := stalled.next noCall
      have moved := @move_counted pair call depth before cs c plain noLine noBlock
        stalled.ne_argument later.ne_argument
      rw [closing?, Bool.true_and, Bool.true_and]
      by_cases opener : (c == pair.opener) = true
      · rw [if_pos opener] at moved ⊢
        rw [sweep_cons_advance (move pair) moved, ih later, restAt_cons]
      · rw [if_neg opener] at moved ⊢
        by_cases closer : (c == pair.closer) = true
        · rw [if_pos closer] at moved ⊢
          by_cases shallow : depth ≤ 1
          · rw [if_pos shallow] at moved ⊢
            rw [sweep_cons_halt (move pair) moved]
            rfl
          · rw [if_neg shallow] at moved ⊢
            rw [sweep_cons_advance (move pair) moved, ih later, restAt_cons]
        · rw [if_neg closer] at moved ⊢
          rw [sweep_cons_advance (move pair) moved, ih later, restAt_cons]

def counted (cs : List Char) (marks : List Bool) (size : Nat) : List Char :=
  ((cs.zip marks).take size).filterMap fun (c, mark) => if mark then some c else none

/-- A closer up to which openers and closers are balanced, if `depth` openers come before the text.
-/
structure Closes (pair : Pair) (depth : Nat) (cs : List Char) (marks : List Bool) (i : Nat) :
    Prop where
  closer : cs[i]? = some pair.closer
  balanced : depth + (counted cs marks (i + 1)).count pair.opener =
    (counted cs marks (i + 1)).count pair.closer

inductive Least (holds : Nat → Prop) : Option Nat → Prop
  | found {i : Nat} (here : holds i) (before : ∀ j, j < i → ¬holds j) : Least holds (some i)
  | absent (nowhere : ∀ i, ¬holds i) : Least holds none

theorem Least.succ {holds later : Nat → Prop} {place : Option Nat} (first : ¬holds 0)
    (same : ∀ i, holds (i + 1) ↔ later i) (least : Least later place) :
    Least holds (place.map (· + 1)) := by
  cases least with
  | @found i here before =>
      refine .found ((same i).2 here) fun j below => ?_
      cases j with
      | zero => exact first
      | succ j => exact fun found => before j (Nat.lt_of_succ_lt_succ below) ((same j).1 found)
  | absent nowhere =>
      refine .absent fun i => ?_
      cases i with
      | zero => exact first
      | succ i => exact fun found => nowhere i ((same i).1 found)

section

variable {c : Char} {mark : Bool} {cs : List Char} {marks : List Bool}

private theorem counted_cons (size : Nat) :
    counted (c :: cs) (mark :: marks) (size + 1) =
      if mark then c :: counted cs marks size else counted cs marks size := by
  cases mark <;> rfl

private theorem closes_succ {later : Nat}
    (leaves : ∀ rest : List Char, depth + (if mark then c :: rest else rest).count pair.opener =
      (if mark then c :: rest else rest).count pair.closer ↔
        later + rest.count pair.opener = rest.count pair.closer) (i : Nat) :
    Closes pair depth (c :: cs) (mark :: marks) (i + 1) ↔ Closes pair later cs marks i := by
  have balance := leaves (counted cs marks (i + 1))
  constructor
  · rintro ⟨closer, balanced⟩
    rw [counted_cons] at balanced
    exact ⟨closer, balance.1 balanced⟩
  · rintro ⟨closer, balanced⟩
    refine ⟨closer, ?_⟩
    rw [counted_cons]
    exact balance.2 balanced

private theorem closes_zero_iff (apart : pair.opener ≠ pair.closer) :
    Closes pair depth (c :: cs) (mark :: marks) 0 ↔
      c = pair.closer ∧ depth = if mark then 1 else 0 := by
  constructor
  · rintro ⟨closer, balanced⟩
    obtain rfl : c = pair.closer := by simpa using closer
    rw [counted_cons] at balanced
    refine ⟨rfl, ?_⟩
    cases mark with
    | false => simpa [counted] using balanced
    | true => simpa [counted, apart.symm] using balanced
  · rintro ⟨rfl, rfl⟩
    refine ⟨rfl, ?_⟩
    rw [counted_cons]
    cases mark with
    | false => simp [counted]
    | true => simp [counted, apart.symm]

end

/-- The depth first comes back to zero at the least closer that balances. -/
theorem least_closing? (apart : pair.opener ≠ pair.closer) (positive : 1 ≤ depth)
    (cs : List Char) (marks : List Bool) :
    Least (Closes pair depth cs marks) (closing? pair depth cs marks) := by
  fun_induction closing? pair depth cs marks with
  | case1 depth c cs mark marks opens ih =>
      obtain ⟨rfl, opener⟩ := Bool.and_eq_true_iff.1 opens
      refine (ih (by omega)).succ ?_ (closes_succ ?_)
      · rw [closes_zero_iff apart]
        exact fun found => apart (by rw [← eq_of_beq opener, found.1])
      · intro rest
        rw [if_pos rfl, eq_of_beq opener, List.count_cons_self, List.count_cons_of_ne apart]
        omega
  | case2 depth c cs mark marks notOpener closes shallow =>
      obtain ⟨rfl, closer⟩ := Bool.and_eq_true_iff.1 closes
      refine .found ((closes_zero_iff apart).2 ⟨eq_of_beq closer, ?_⟩) (by simp)
      simp only [if_true]
      omega
  | case3 depth c cs mark marks notOpener closes deep ih =>
      obtain ⟨rfl, closer⟩ := Bool.and_eq_true_iff.1 closes
      refine (ih (by omega)).succ ?_ (closes_succ ?_)
      · rw [closes_zero_iff apart]
        simp only [if_true]
        omega
      · intro rest
        rw [if_pos rfl, eq_of_beq closer, List.count_cons_self, List.count_cons_of_ne apart.symm]
        omega
  | case4 depth c cs mark marks notOpener notCloser ih =>
      refine (ih positive).succ ?_ (closes_succ ?_)
      · rw [closes_zero_iff apart]
        rintro ⟨rfl, balanced⟩
        cases mark with
        | true => simp at notCloser
        | false =>
            rw [if_neg (by simp)] at balanced
            omega
      · intro rest
        cases mark with
        | false => simp
        | true =>
            have other : c ≠ pair.opener ∧ c ≠ pair.closer := by
              simpa using And.intro notOpener notCloser
            simp [other.1, other.2]
  | case5 cs depth marks ended =>
      refine .absent fun i closes => ?_
      have nothing : counted cs marks (i + 1) = [] := by
        cases cs with
        | nil => simp [counted]
        | cons c cs =>
            cases marks with
            | nil => simp [counted]
            | cons mark marks => exact absurd rfl (ended c cs mark marks rfl)
      have balanced := closes.balanced
      rw [nothing, List.count_nil, List.count_nil] at balanced
      omega

/-! ### Matching by readings -/

/-- The search returns the first closer up to which the brackets that count are balanced, in every
reading of its window that lets `gap` stand between the letters of a call. There is such a reading.
-/
def GoesBy (gap : List Char → Prop) (pair : Pair) (text : String) (opener stop : Nat) : Prop :=
  let window := ((octets text.toList).take stop).drop opener
  (∃ marks, Reads gap [] window marks) ∧ ∀ marks, Reads gap [] window marks →
    ∃ place, Least (fun i => 0 < i ∧ Closes pair 0 window marks i) place ∧
      findMatch text opener stop pair = place.map (opener + ·)

/-- The letters of a call stand one right behind the other. -/
def Contiguous (between : List Char) : Prop :=
  between = []

/-- No comment starts right behind a letter of a call. -/
def Unbroken (cs : List Char) : Prop :=
  ∀ letter ∈ ['u', 'r', 'l'], ¬[letter, '/', '/'] <:+: cs ∧ ¬[letter, '/', '*'] <:+: cs

private theorem Unbroken.of_suffix {cs later : List Char} (unbroken : Unbroken cs)
    (suffix : later <:+ cs) :
    Unbroken later := by
  intro letter member
  obtain ⟨noLine, noBlock⟩ := unbroken letter member
  exact ⟨fun found => noLine (found.trans suffix.isInfix),
    fun found => noBlock (found.trans suffix.isInfix)⟩

/-- Behind a letter of a call stands no comment, so the next letter stands there. -/
theorem Unbroken.between_eq_nil {between rest : List Char} {letter : Char}
    (unbroken : Unbroken (letter :: (between ++ rest))) (member : letter ∈ ['u', 'r', 'l'])
    (commented : Commented between) : between = [] := by
  obtain ⟨comments, closed, rfl⟩ := commented
  cases comments with
  | nil => rfl
  | cons comment comments =>
      obtain ⟨noLine, noBlock⟩ := unbroken letter member
      have first := closed comment List.mem_cons_self
      cases first with
      | @line body _ =>
          refine absurd ⟨[], body ++ ['\n'] ++ comments.flatten ++ rest, ?_⟩ noLine
          simp
      | @block body _ =>
          refine absurd ⟨[], body ++ Comment.closer ++ comments.flatten ++ rest, ?_⟩ noBlock
          simp

private theorem Spelled.contiguous {letters taken : List Char}
    (spelled : Spelled Commented letters taken)
    {letter : Char} {rest : List Char} (unbroken : Unbroken (letter :: (taken ++ rest)))
    (named : ∀ c ∈ (letter :: letters).dropLast, c ∈ ['u', 'r', 'l']) :
    Spelled Contiguous letters taken := by
  induction spelled generalizing letter with
  | nil => exact .nil
  | @cons c letters between taken apart _ ih =>
      have here := named letter (by simp)
      rw [List.append_assoc] at unbroken
      obtain rfl := unbroken.between_eq_nil here apart
      refine .cons rfl (@ih c (unbroken.of_suffix ⟨[letter], rfl⟩) ?_)
      intro d member
      exact named d (by simp [List.dropLast_cons_of_ne_nil, member])

theorem Spelled.commented {letters taken : List Char} (spelled : Spelled Contiguous letters taken) :
    Spelled Commented letters taken := by
  induction spelled with
  | nil => exact .nil
  | cons apart _ ih =>
      obtain rfl := apart
      exact .cons commented_nil ih

/-- Where no comment starts right behind a letter of a call, it makes no difference whether comments
may stand between the letters. -/
theorem Reads.commented {before cs : List Char} {marks : List Bool}
    (reads : Reads Contiguous before cs marks) (unbroken : Unbroken cs) :
    Reads Commented before cs marks := by
  induction reads with
  | done => exact .done
  | @quoted before body rest mark marks quote spans _ ih =>
      exact .quoted quote spans (ih (unbroken.of_suffix ⟨mark :: body, rfl⟩))
  | @comment before comment rest marks closed _ ih =>
      exact .comment closed (ih (unbroken.of_suffix ⟨comment, rfl⟩))
  | openComment opened => exact .openComment opened
  | @call before call argument rest marks starts spans _ ih =>
      have later := ih (unbroken.of_suffix ⟨call ++ argument, by simp⟩)
      cases starts with
      | intro fresh spelled => exact .call (.intro fresh spelled.commented) spans later
  | @char before cs c marks plain noLine noBlock noCall _ ih =>
      refine .char plain noLine noBlock ?_ (ih (unbroken.of_suffix ⟨[c], rfl⟩))
      intro call rest parts starts
      cases starts with
      | @intro taken fresh spelled =>
          rw [parts, List.cons_append] at unbroken
          exact noCall _ rest parts (.intro fresh (spelled.contiguous unbroken (by simp)))

private theorem Reads.marks_cons {gap : List Char → Prop} {before cs : List Char} {c : Char}
    {marks : List Bool} (reads : Reads gap before (c :: cs) marks) (plain : isQuote c = false)
    (noSlash : c ≠ '/') (noLetter : c ≠ 'u') : ∃ later, marks = true :: later := by
  generalize whole : c :: cs = window at reads
  cases reads with
  | done => cases whole
  | quoted quote _ _ =>
      cases whole
      rw [quote] at plain
      cases plain
  | comment closed _ => cases closed <;> cases whole <;> exact absurd rfl noSlash
  | openComment opened => cases opened <;> cases whole <;> exact absurd rfl noSlash
  | call starts _ _ =>
      cases starts
      cases whole
      exact absurd rfl noLetter
  | char _ _ _ _ _ => exact ⟨_, rfl⟩

private theorem closerIn?_eq_of_rest {cs : List Char} {place : Option Nat}
    (rest : (sweep (move pair) .initial [] (pair.opener :: cs)).rest =
      restAt (pair.opener :: cs) place)
    (inside : ∀ i ∈ place, i < (pair.opener :: cs).length) :
    closerIn? pair (pair.opener :: cs) = place := by
  unfold closerIn?
  rw [rest]
  cases place with
  | none => simp [restAt]
  | some i =>
      have below := inside i rfl
      have left : restAt (pair.opener :: cs) (some i) = (pair.opener :: cs).drop i := rfl
      rw [left, if_pos ⟨rfl, by simpa using below⟩, List.length_drop]
      congr 1
      omega

/-- The search of a window ends at the first closer that balances it. -/
theorem least_closerIn? (known : pair.IsKnown) {cs : List Char} {marks : List Bool}
    (reads : Reads Commented [] (pair.opener :: cs) marks) :
    Least (fun i => 0 < i ∧ Closes pair 0 (pair.opener :: cs) marks i)
      (closerIn? pair (pair.opener :: cs)) := by
  obtain ⟨apart, plain, noSlash, noLetter⟩ : pair.opener ≠ pair.closer ∧
      isQuote pair.opener = false ∧ pair.opener ≠ '/' ∧ pair.opener ≠ 'u' := by
    rcases known with rfl | rfl <;> decide
  have rest := rest_reads known reads (stalled_none _) 0
  obtain ⟨later, rfl⟩ := reads.marks_cons plain noSlash noLetter
  have behind : closing? pair 0 (pair.opener :: cs) (true :: later) =
      (closing? pair 1 cs later).map (· + 1) := by
    rw [closing?]
    simp
  rw [behind] at rest
  have least := least_closing? apart (Nat.le_refl 1) cs later
  rw [closerIn?_eq_of_rest rest]
  · refine least.succ (by simp) fun i => ?_
    have leaves : ∀ rest : List Char, 0 + (pair.opener :: rest).count pair.opener =
        (pair.opener :: rest).count pair.closer ↔
          1 + rest.count pair.opener = rest.count pair.closer := by
      intro rest
      rw [List.count_cons_self, List.count_cons_of_ne apart]
      omega
    rw [@closes_succ pair 0 pair.opener true cs later 1 leaves i]
    exact and_iff_right (Nat.succ_pos i)
  · intro i found
    obtain ⟨j, place, rfl⟩ := Option.map_eq_some_iff.1 found
    rw [place] at least
    cases least with
    | found here _ =>
        obtain ⟨below, _⟩ := List.getElem?_eq_some_iff.1 here.closer
        rw [List.length_cons]
        omega

private theorem goesBy_of_reads (known : pair.IsKnown) {text : String} {opener stop : Nat}
    (ordered : opener < stop) (opens : (octets text.toList)[opener]? = some pair.opener)
    {gap : List Char → Prop}
    (commented : ∀ marks, Reads gap [] (((octets text.toList).take stop).drop opener) marks →
      Reads Commented [] (((octets text.toList).take stop).drop opener) marks) :
    GoesBy gap pair text opener stop := by
  refine ⟨exists_reads gap [] _, fun marks reads => ?_⟩
  refine ⟨_, ?_, findMatch_octets known text opener stop⟩
  have head : (((octets text.toList).take stop).drop opener).head? = some pair.opener := by
    rw [List.head?_drop, List.getElem?_take_of_lt ordered, opens]
  have reads := commented marks reads
  obtain ⟨cs, window⟩ := List.head?_eq_some_iff.1 head
  rw [window] at reads ⊢
  exact least_closerIn? known reads

/-- The search goes by the readings in which comments may stand between the letters of a call, and
by those in which they may not where no comment starts right behind such a letter. -/
theorem findMatch_goesBy (known : pair.IsKnown) {text : String} {opener stop : Nat}
    (ordered : opener < stop) (opens : (octets text.toList)[opener]? = some pair.opener) :
    GoesBy Commented pair text opener stop ∧
      (Unbroken (((octets text.toList).take stop).drop opener) →
        GoesBy Contiguous pair text opener stop) :=
  ⟨goesBy_of_reads known ordered opens fun _ reads => reads,
    fun unbroken => goesBy_of_reads known ordered opens fun _ reads => reads.commented unbroken⟩

/-- A call, a string in its argument and a comment, each with a parenthesis. -/
theorem findMatch_goesBy_hidden :
    Pair.IsKnown .parens ∧ 2 < 23 ∧
      (octets "a:(url(')') /* ) */ é)".toList)[2]? = some Pair.parens.opener ∧
      GoesBy Commented .parens "a:(url(')') /* ) */ é)" 2 23 ∧
      GoesBy Contiguous .parens "a:(url(')') /* ) */ é)" 2 23 := by
  have known : Pair.IsKnown .parens := Or.inl rfl
  have opens : (octets "a:(url(')') /* ) */ é)".toList)[2]? = some Pair.parens.opener := by decide
  have window : ((octets "a:(url(')') /* ) */ é)".toList).take 23).drop 2 =
      ['(', 'u', 'r', 'l', '(', '\'', ')', '\'', ')', ' ', '/', '*', ' ', ')', ' ', '*', '/', ' ',
        asChar 0xC3, asChar 0xA9, ')'] := by decide
  obtain ⟨commented, contiguous⟩ := findMatch_goesBy known (by decide : 2 < 23) opens
  refine ⟨known, by decide, opens, commented, contiguous ?_⟩
  rw [window]
  intro letter member
  rcases List.mem_cons.1 member with rfl | member
  · decide
  · rcases List.mem_cons.1 member with rfl | member
    · decide
    · cases List.mem_singleton.1 member
      decide

theorem Reads.cons {gap : List Char → Prop} {before cs : List Char} {c : Char} {marks : List Bool}
    (later : Reads gap (c :: before) cs marks) (plain : isQuote c = false) (noSlash : c ≠ '/')
    (noLetter : c ≠ 'u') : Reads gap before (c :: cs) (true :: marks) := by
  obtain ⟨noLine, noBlock⟩ := @Comment.no_start (c :: cs) (by simpa using noSlash)
  refine .char plain noLine noBlock (fun call rest parts starts => ?_) later
  cases starts
  cases parts
  exact noLetter rfl

/-- A comment between the letters of a call hides the closer in its argument. -/
theorem not_goesBy_contiguous :
    ¬∀ (pair : Pair) (text : String) (opener stop : Nat), pair.IsKnown → opener < stop →
      (octets text.toList)[opener]? = some pair.opener →
        GoesBy Contiguous pair text opener stop := by
  intro claim
  obtain ⟨_, goesBy⟩ := claim .square "[u/**/rl(]" 0 10 (Or.inr rfl) (by decide) (by decide)
  have window : ((octets "[u/**/rl(]".toList).take 10).drop 0 =
      ['[', 'u'] ++ (['/', '*', '*', '/'] ++ ['r', 'l', '(', ']']) := by decide
  have comment : ClosedComment ['/', '*', '*', '/'] := @ClosedComment.block [] (by decide)
  have letters : Reads Contiguous ['/', '*', '*', '/', 'u', '['] ['r', 'l', '(', ']']
      [true, true, true, true] :=
    .cons (.cons (.cons (.cons .done (by decide) (by decide) (by decide)) (by decide) (by decide)
      (by decide)) (by decide) (by decide) (by decide)) (by decide) (by decide) (by decide)
  have noCall : ∀ call rest, ['u', '/', '*', '*', '/', 'r', 'l', '(', ']'] = call ++ rest →
      ¬CallAt Contiguous ['['] call := by
    rintro call rest parts ⟨_, spelled⟩
    cases spelled with
    | cons apart _ =>
        obtain rfl := apart
        cases parts
  have reads := Reads.cons (Reads.char (by decide) (by decide) (by decide) noCall
    (Reads.comment comment letters)) (by decide : isQuote '[' = false) (by decide) (by decide)
  rw [window] at goesBy
  obtain ⟨place, least, found⟩ := goesBy _ reads
  have missed : findMatch "[u/**/rl(]" 0 10 .square = none := by decide
  rw [missed] at found
  cases least with
  | found _ _ => cases found
  | absent nowhere => exact nowhere 9 ⟨by decide, by decide, by decide⟩

end ClassExpr.Bracket
