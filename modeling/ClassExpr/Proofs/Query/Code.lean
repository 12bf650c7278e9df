import ClassExpr.Proofs.Query.Shown
import ClassExpr.Proofs.Tree.Complete
import ClassExpr.Proofs.Tree.Origin
import ClassExpr.Proofs.Typing.Lookahead

set_option autoImplicit false

/-! Which pieces of a tree are code. The delimiters of groups, names in front of a plain separator
and class names always are; so is what has brackets if they are closed and nothing in them is
hidden, since brackets are matched then the way the raw text shows them. -/

namespace ClassExpr

open Text

namespace Completion

/-! ### Matched brackets -/

/-- The insides of so many brackets, one around the other: behind each but the outermost one stands
its closer. -/
def Pending : Nat → List Char → Prop
  | 0, cs => Inside cs
  | depth + 1, cs => ∃ inner later, cs = inner ++ ']' :: later ∧ Inside inner ∧ Pending depth later

theorem Pending.prepend {front : List Char} (extends_ : ∀ {cs}, Inside cs → Inside (front ++ cs))
    {depth : Nat} {cs : List Char} (pending : Pending depth cs) : Pending depth (front ++ cs) := by
  cases depth with
  | zero => exact extends_ pending
  | succ depth =>
      obtain ⟨inner, later, rfl, inside, pending⟩ := pending
      exact ⟨front ++ inner, later, by simp, extends_ inside, pending⟩

end Completion

namespace Bracket

open Completion

/-- A match that is found behind a string has left the string. -/
theorem exists_string_of_sweep {mark : Char} (quote : isQuote mark = true) {depth : Nat}
    {before cs : List Char}
    (found : (sweep (move .square) ⟨.quoted mark, .none, depth⟩ before (cs ++ [']'])).rest = [']']) :
    ∃ body rest, cs = body ++ rest ∧ ClosedString mark body ∧
      (sweep (move .square) ⟨.code, .none, depth⟩ (body.reverse ++ before) (rest ++ [']'])).rest =
        [']'] := by
  induction counted : cs.length using Nat.strongRecOn generalizing cs before with
  | ind size ih =>
      cases cs with
      | nil =>
          have other : ']' ≠ mark := by
            rintro rfl
            cases quote
          have moved : move .square ⟨.quoted mark, .none, depth⟩ before ']' none =
              .advance ⟨.quoted mark, .none, depth⟩ := by simp [move, other]
          rw [List.nil_append, sweep_cons_advance (move .square) moved] at found
          cases found
      | cons c cs =>
          rw [List.cons_append] at found
          rw [List.length_cons] at counted
          by_cases escape : c = '\\'
          · subst escape
            cases cs with
            | nil =>
                rw [List.nil_append, sweep_cons_skip (move .square) rfl] at found
                cases found
            | cons d cs =>
                rw [List.cons_append, sweep_cons_skip (move .square) rfl] at found
                rw [List.length_cons] at counted
                obtain ⟨body, rest, rfl, string, behind⟩ := ih cs.length (by omega) found rfl
                exact ⟨'\\' :: d :: body, rest, rfl, .escape string, by simpa using behind⟩
          · by_cases closes : c = mark
            · subst closes
              have moved : move .square ⟨.quoted c, .none, depth⟩ before c (cs ++ [']']).head? =
                  .advance ⟨.code, .none, depth⟩ := by simp [move, escape]
              rw [sweep_cons_advance (move .square) moved] at found
              exact ⟨[c], cs, rfl, .close, found⟩
            · have moved : move .square ⟨.quoted mark, .none, depth⟩ before c
                  (cs ++ [']']).head? = .advance ⟨.quoted mark, .none, depth⟩ := by
                simp [move, escape, closes]
              rw [sweep_cons_advance (move .square) moved] at found
              obtain ⟨body, rest, rfl, string, behind⟩ := ih cs.length (by omega) found rfl
              exact ⟨c :: body, rest, rfl, .char escape closes string, by simpa using behind⟩

/-- A match that is found at the end of a text has closed the brackets in front of it. -/
theorem pending_of_sweep {call : Call} {depth : Nat} {before cs : List Char}
    (unhidden : Unhidden (before.reverse ++ (cs ++ [']']))) (read : call.letters <+: before)
    (found : (sweep (move .square) ⟨.code, call, depth + 1⟩ before (cs ++ [']'])).rest = [']']) :
    Pending depth cs := by
  have known : Pair.square.IsKnown := Or.inr rfl
  induction counted : cs.length using Nat.strongRecOn generalizing cs call depth before with
  | ind size ih =>
      cases cs with
      | nil =>
          cases depth with
          | zero => exact Inside.nil
          | succ depth =>
              -- the closer of an inner bracket is passed over
              have moved := @Unhidden.move_closer .square call before [] ']' unhidden read known rfl
                (depth + 2)
              rw [if_neg (by omega)] at moved
              rw [List.nil_append, sweep_cons_advance (move .square) moved] at found
              cases found
      | cons c cs =>
          have still := Call.letters_next c (Call.ne_argument unhidden.call read) read
          rw [List.cons_append] at found unhidden
          rw [List.length_cons] at counted
          have later : Unhidden ((c :: before).reverse ++ (cs ++ [']'])) := by
            simpa using unhidden
          cases quote : isQuote c with
          | true =>
              have moved := unhidden.move_quote read known quote (depth + 1)
              rw [sweep_cons_advance (move .square) moved] at found
              obtain ⟨body, rest, rfl, string, behind⟩ := exists_string_of_sweep quote found
              have marked : c ∈ ['\'', '"'] := by simpa [isQuote] using quote
              have pending := @ih rest.length (by simp at counted; omega) .none depth
                (body.reverse ++ c :: before) rest (by simpa using later) List.nil_prefix behind rfl
              exact pending.prepend fun inside => .quoted marked string inside
          | false =>
              by_cases opens : c = '['
              · have moved := unhidden.move_opener read known opens (depth + 1)
                rw [sweep_cons_advance (move .square) moved] at found
                obtain ⟨inner, rest, rfl, inside, pending⟩ :=
                  ih cs.length (by omega) later still found rfl
                have passed := pending.prepend fun {cs} (behind : Inside cs) =>
                  show Inside ('[' :: inner ++ [']'] ++ cs) by
                    simpa using Inside.brackets inside behind
                simpa [opens] using passed
              by_cases closes : c = ']'
              · have moved := unhidden.move_closer read known closes (depth + 1)
                cases depth with
                | zero =>
                    -- the match is found in front of the end
                    rw [if_pos (by omega)] at moved
                    rw [sweep_cons_halt (move .square) moved] at found
                    have short := congrArg List.length found
                    simp at short
                | succ depth =>
                    rw [if_neg (by omega)] at moved
                    rw [sweep_cons_advance (move .square) moved] at found
                    have pending := ih cs.length (by omega) later still found rfl
                    exact ⟨[], cs, by rw [closes]; rfl, .nil, pending⟩
              · have moved := unhidden.move_plain .square read quote opens closes (depth + 1)
                rw [sweep_cons_advance (move .square) moved] at found
                have plain : c ∉ ['[', ']', '\'', '"'] := by
                  have unquoted : ¬(c = '\'' ∨ c = '"') := by simpa [isQuote] using quote
                  simp only [List.mem_cons, List.not_mem_nil, or_false, not_or] at unquoted ⊢
                  exact ⟨opens, closes, unquoted⟩
                exact (ih cs.length (by omega) later still found rfl).prepend
                  fun {cs} inside => show Inside ([c] ++ cs) from .char plain inside

theorem Unhidden.bracketed {inside : List Char} (unhidden : Unhidden inside) :
    Unhidden ('[' :: (inside ++ [']'])) := by
  refine unhidden.of_infixes fun cs nonempty legal found => ?_
  have noOpener : '[' ∉ cs := fun opener => absurd (legal '[' opener) (by decide)
  have noCloser : ']' ∉ cs := fun closer => absurd (legal ']' closer) (by decide)
  rcases List.infix_concat_iff.1 (infix_of_infix_cons noOpener nonempty found) with atEnd | found
  · rcases List.suffix_concat_iff.1 atEnd with none | ⟨_, rfl, _⟩
    · exact absurd none nonempty
    · simp at noCloser
  · exact found

/-- Where nothing is hidden, brackets are matched the way the raw text shows them. -/
theorem Encloses.inside {value : List Char} (enclosed : Encloses value) (unhidden : Unhidden value) :
    Inside value := by
  obtain ⟨rest, matched⟩ := enclosed
  have found := @sweep_rest_of_split? .square (Or.inr rfl) [] (value ++ [']']) _ _
    (split?_square_ahead matched [])
  exact @pending_of_sweep .none 0 ['['] value unhidden.bracketed List.nil_prefix found

end Bracket

/-! ### Nodes in which nothing is hidden -/

/-- A leaf whose brackets are closed and hide nothing. -/
structure Leaf.Bare (leaf : Leaf) : Prop where
  known : leaf.kind ≠ .unknown
  closed : leaf.closed = true
  content : ∀ content ∈ leaf.content?, Bracket.Unhidden content.text.toList
  opacity : ∀ opacity ∈ leaf.opacity?,
    opacity.closed = true ∧ Bracket.Unhidden opacity.value.text.toList

instance (leaf : Leaf) : Decidable leaf.Bare :=
  decidable_of_iff
    (leaf.kind ≠ .unknown ∧ leaf.closed = true ∧
      (∀ content ∈ leaf.content?, Bracket.Unhidden content.text.toList) ∧
      ∀ opacity ∈ leaf.opacity?,
        opacity.closed = true ∧ Bracket.Unhidden opacity.value.text.toList)
    ⟨fun ⟨known, closed, content, opacity⟩ => ⟨known, closed, content, opacity⟩,
      fun bare => ⟨bare.known, bare.closed, bare.content, bare.opacity⟩⟩

def Variant.Bare : Variant → Prop
  | .named _ => True
  | .bracket variant =>
      variant.closed = true ∧ Bracket.Unhidden variant.content.text.toList

instance : (variant : Variant) → Decidable variant.Bare
  | .named _ => .isTrue trivial
  | .bracket _ => inferInstanceAs (Decidable (_ ∧ _))

namespace Node

/-- A node whose own brackets are closed and hide nothing. -/
def Bare : Node → Prop
  | .declaration _ _ => True
  | .variantSpan _ variant _ => variant.Bare
  | .group _ _ _ _ => True
  | .leaf item => item.Bare

instance : (node : Node) → Decidable node.Bare
  | .declaration _ _ => .isTrue trivial
  | .variantSpan _ variant _ => inferInstanceAs (Decidable variant.Bare)
  | .group _ _ _ _ => .isTrue trivial
  | .leaf item => inferInstanceAs (Decidable item.Bare)

/-- The pieces of a node that are not those of its children. -/
def own : Node → List Token
  | .declaration _ _ => []
  | .variantSpan _ variant _ => [variant.range]
  | .group range _ closed _ => opener range :: if closed then [closer range] else []
  | .leaf item => [item.range]

theorem exists_own_of_mem_pieces {node : Node} {piece : Token} (member : piece ∈ node.pieces) :
    ∃ inner ∈ node.nodes, piece ∈ inner.own := by
  have apart : piece ∈ node.own ∨ ∃ child ∈ node.children, piece ∈ child.pieces := by
    cases node with
    | declaration range children =>
        rw [pieces_declaration] at member
        exact Or.inr (List.mem_flatMap.1 member)
    | variantSpan range variant child =>
        cases child with
        | none => exact Or.inl member
        | some child =>
            rw [pieces] at member
            rcases List.mem_cons.1 member with rfl | inside
            · exact Or.inl List.mem_cons_self
            · exact Or.inr ⟨child, List.mem_cons_self, inside⟩
    | group range child closed important =>
        rw [pieces] at member
        rcases List.mem_cons.1 member with rfl | behind
        · exact Or.inl List.mem_cons_self
        · rcases List.mem_append.1 behind with inside | atEnd
          · exact Or.inr ⟨child, List.mem_cons_self, inside⟩
          · exact Or.inl (List.mem_cons_of_mem _ atEnd)
    | leaf item => exact Or.inl member
  rcases apart with isOwn | ⟨child, isChild, deeper⟩
  · exact ⟨node, mem_nodes_self node, isOwn⟩
  · have smaller := sizeOf_lt_of_mem_children isChild
    obtain ⟨inner, below, isOwn⟩ := exists_own_of_mem_pieces deeper
    exact ⟨inner, (mem_nodes_iff node inner).2 (Or.inr ⟨child, isChild, below⟩), isOwn⟩
termination_by sizeOf node

end Node

/-! ### Code -/

namespace Completion

section

variable {cs rest first second body stem value lead : List Char}

theorem Code.append (front : Code first (second ++ rest)) (back : Code second rest) :
    Code (first ++ second) rest := by
  generalize whole : second ++ rest = behind at front
  induction front with
  | nil => exact back
  | char plain silent _ ih =>
      subst whole
      exact .char plain (by simpa using silent) (ih rfl)
  | brackets inside _ ih =>
      subst whole
      rw [List.append_assoc, List.cons_append]
      exact .brackets inside (ih rfl)

private theorem not_startsComment {c : Char} (other : c ≠ '/') : ¬StartsComment (c :: cs) := by
  have noSlash : (c :: cs).head? ≠ some '/' := by simpa using other
  obtain ⟨noLine, noBlock⟩ := Comment.no_start noSlash
  simp [StartsComment, noLine, noBlock]

private theorem not_startsComment_slash {c : Char} (noLine : c ≠ '/') (noBlock : c ≠ '*') :
    ¬StartsComment ('/' :: c :: cs) := by
  rintro (line | block)
  · obtain ⟨_, same⟩ := Comment.startsLine_iff.1 line
    rw [List.cons.injEq, List.cons.injEq] at same
    exact noLine same.2.1
  · obtain ⟨_, same⟩ := Comment.startsBlock_iff.1 block
    rw [List.cons.injEq, List.cons.injEq] at same
    exact noBlock same.2.1

/-- Text without brackets is code if no comment starts in it. -/
theorem code_of_silent (noBracket : '[' ∉ cs)
    (silent : ∀ front c back, cs = front ++ c :: back → ¬StartsComment (c :: (back ++ rest))) :
    Code cs rest := by
  induction cs with
  | nil => exact .nil
  | cons c cs ih =>
      rw [List.mem_cons, not_or] at noBracket
      exact .char (Ne.symm noBracket.1) (silent [] c cs rfl)
        (ih noBracket.2 fun front d back whole => silent (c :: front) d back (by rw [whole]; rfl))

private theorem code_of_forall
    (plain : ∀ c ∈ cs, c ≠ '[' ∧ c ≠ '/') (rest : List Char) : Code cs rest := by
  refine code_of_silent (fun bracket => (plain '[' bracket).1 rfl) ?_
  rintro front c back rfl
  exact not_startsComment (plain c (by simp)).2

private theorem code_marker (marked : lead = [] ∨ lead = ['!']) (rest : List Char) :
    Code lead rest := by
  apply code_of_forall
  rcases marked with rfl | rfl <;> simp

private theorem ne_of_isBody {c : Char} (accepted : Lexeme.isBody c = true) :
    c ≠ '[' ∧ c ≠ '/' ∧ c ≠ '*' := by
  refine ⟨?_, ?_, ?_⟩ <;> (rintro rfl; revert accepted; decide)

private theorem code_of_isBodyRun (run : Lexeme.IsBodyRun body) (rest : List Char) :
    Code body rest := by
  induction run with
  | nil => exact .nil
  | char accepted _ ih =>
      obtain ⟨noBracket, noSlash, _⟩ := ne_of_isBody accepted
      exact .char noBracket (not_startsComment noSlash) ih
  | slash accepted _ ih =>
      obtain ⟨noBracket, noSlash, noStar⟩ := ne_of_isBody accepted
      exact .char (by decide) (not_startsComment_slash noSlash noStar)
        (.char noBracket (not_startsComment noSlash) ih)

private theorem code_of_isStem (isStem : Lexeme.IsStem stem) (rest : List Char) :
    Code stem ('[' :: rest) := by
  obtain ⟨body, run, rfl | rfl⟩ := isStem
  · exact code_of_isBodyRun run _
  · exact (code_of_isBodyRun run _).append
      (.char (by decide) (not_startsComment_slash (by decide) (by decide)) .nil)

private theorem code_bracketed (isStem : Lexeme.IsStem stem) (inside : Inside value)
    (rest : List Char) :
    Code (stem ++ '[' :: value ++ [']']) rest := by
  rw [List.append_assoc]
  exact (code_of_isStem isStem _).append (by simpa using Code.brackets inside .nil)

private theorem code_of_opacity {offset : Nat} {suffix behind : List Char} {opacity : Opacity}
    (spelled : opacity.Spelled offset suffix behind) (closed : opacity.closed = true)
    (unhidden : Bracket.Unhidden opacity.value.text.toList) (rest : List Char) :
    Code suffix rest := by
  cases spelled with
  | @number digits _ nonempty numeric =>
      obtain ⟨digit, digits, rfl⟩ := List.exists_cons_of_ne_nil nonempty
      have other : ∀ c d : Char, c.isDigit = true → d.isDigit = false → c ≠ d := by
        rintro c d isDigit noDigit rfl
        rw [isDigit] at noDigit
        cases noDigit
      have first := numeric digit List.mem_cons_self
      refine .char (by decide)
        (not_startsComment_slash (other _ _ first rfl) (other _ _ first rfl)) ?_
      apply code_of_forall
      intro c member
      exact ⟨other _ _ (numeric c member) rfl, other _ _ (numeric c member) rfl⟩
  | @closed value _ enclosed =>
      rw [Token.toList_ofChars] at unhidden
      have isStem : Lexeme.IsStem ['/'] := ⟨[], .nil, Or.inr rfl⟩
      exact code_bracketed isStem (enclosed.inside unhidden) rest
  | opened => cases closed

private theorem bracketLeaf_content? (range target stem content : Token) (closed important : Bool)
    (opacity : Option Opacity) :
    (Tree.bracketLeaf range target stem content closed important opacity).content? =
      some content := by
  unfold Tree.bracketLeaf
  split
  · rfl
  · split <;> rfl

private theorem bracketLeaf_opacity? {range target content : Token} {closed important : Bool}
    {opacity : Option Opacity} {offset : Nat} (styled : stem.getLast? = some '-') :
    (Tree.bracketLeaf range target (.ofChars offset stem) content closed important
      opacity).opacity? = opacity := by
  unfold Tree.bracketLeaf
  rw [Token.toList_ofChars, styled]
  rfl

private theorem code_of_leafAt {offset : Nat} {taken behind : List Char} {leaf : Leaf}
    (leafAt : Tree.LeafAt offset taken behind leaf) (bare : leaf.Bare) (rest : List Char) :
    Code taken rest := by
  have inner : ∀ {offset range target stem value closed important opacity},
      (Tree.bracketLeaf range target stem (.ofChars offset value) closed important opacity).Bare →
        Bracket.Encloses value → Inside value := by
    intro offset range target stem value closed important opacity bare enclosed
    have unhidden := bare.content _ (bracketLeaf_content? ..)
    rw [Token.toList_ofChars] at unhidden
    exact enclosed.inside unhidden
  cases leafAt with
  | @className lead body trail _ marked _ run trailing =>
      rw [List.append_assoc]
      exact (code_marker marked.cases _).append
        ((code_of_isBodyRun run _).append (code_marker trailing.cases _))
  | unknown _ => exact absurd rfl bare.known
  | openBracket _ _ =>
      have closed := bare.closed
      rw [Tree.bracketLeaf_closed] at closed
      cases closed
  | closedBracket marked trailing isStem enclosed =>
      rw [List.append_assoc]
      exact (code_marker marked.cases _).append
        ((code_bracketed isStem (inner bare enclosed) _).append (code_marker trailing.cases _))
  | @withOpacity lead stem value suffix trail _ opacity marked trailing isStem enclosed styled spelled =>
      obtain ⟨closed, unhidden⟩ := bare.opacity opacity (bracketLeaf_opacity? styled)
      rw [List.append_assoc lead]
      exact (code_marker marked.cases _).append
        (((code_bracketed isStem (inner bare enclosed) _).append
          (code_of_opacity spelled closed unhidden _)).append (code_marker trailing.cases _))

private theorem code_of_spelled {separator text : List Char} {offset : Nat} {variant : Variant}
    (plain : ∀ c ∈ separator, c ≠ '[' ∧ c ≠ '/')
    (spelled : variant.Spelled separator offset text) (bare : variant.Bare) (rest : List Char) :
    Code text rest := by
  cases spelled with
  | named _ legal =>
      have name : ∀ c, Lexeme.isName c = true → c ≠ '[' ∧ c ≠ '/' := by
        intro c accepted
        constructor <;> (rintro rfl; revert accepted; decide)
      exact (code_of_forall (fun c member => name c (legal c member)) _).append
        (code_of_forall plain _)
  | bracket isStem enclosed =>
      have unhidden := bare.2
      rw [Token.toList_ofChars] at unhidden
      exact (code_bracketed isStem (enclosed.inside unhidden) _).append (code_of_forall plain _)

private theorem code_of_groupAt {interior : Tree.Interior} {offset : Nat} {taken behind : List Char}
    {node : Node} (groupAt : Tree.GroupAt interior offset taken behind node) :
    ∀ piece ∈ node.own, ∀ rest, Code piece.text.toList rest := by
  have opener : ∀ {lead : List Char}, lead = [] ∨ lead = ['!'] → ∀ rest, Code (lead ++ ['(']) rest :=
    fun marked rest => (code_marker marked _).append (code_of_forall (by simp) rest)
  cases groupAt with
  | opened marked _ =>
      intro piece member rest
      obtain rfl : piece = _ := by simpa [Node.own] using member
      rw [Tree.opener_eq _ _ marked.cases, Token.toList_ofChars]
      exact opener marked.cases rest
  | @closed lead inside trail _ marked trailing _ =>
      intro piece member rest
      rcases List.mem_cons.1 member with rfl | member
      · rw [List.append_assoc, List.cons_append, Tree.opener_eq _ _ marked.cases,
          Token.toList_ofChars]
        exact opener marked.cases rest
      · obtain rfl := List.mem_singleton.1 member
        rw [Tree.closer_eq _ _ trailing.cases, Token.toList_ofChars]
        exact (code_of_forall (by simp : ∀ c ∈ [')'], c ≠ '[' ∧ c ≠ '/') _).append
          (code_marker trailing.cases rest)

/-- The own pieces of a node that hides nothing are code. -/
theorem code_of_isRead {reading : Tree.Reading} {node : Node}
    (plain : ∀ c ∈ reading.separator, c ≠ '[' ∧ c ≠ '/') (isRead : Tree.IsRead reading node)
    (bare : node.Bare) : ∀ piece ∈ node.own, ∀ rest, Code piece.text.toList rest := by
  obtain ⟨levels, offset, taken, behind, nodeAt⟩ := isRead
  cases nodeAt with
  | leaf leafAt =>
      intro piece member rest
      obtain rfl := List.mem_singleton.1 member
      rw [leafAt.range_eq, Token.toList_ofChars]
      exact code_of_leafAt leafAt bare rest
  | group groupAt => exact code_of_groupAt groupAt
  | @span _ _ _ variant _ spelled spanAt =>
      have isOwn : node.own = [variant.range] ∧ variant.Bare := by
        cases spanAt <;> exact ⟨rfl, bare⟩
      rw [isOwn.1]
      intro piece member rest
      obtain rfl := List.mem_singleton.1 member
      rw [spelled.range_eq, Token.toList_ofChars]
      exact code_of_spelled plain spelled isOwn.2 rest
  | openVariant _ => cases bare.1

end

end Completion

end ClassExpr
