import ClassExpr.Proofs.Body
import ClassExpr.Proofs.Comment
import ClassExpr.Tree

set_option autoImplicit false

/-! How a tree lies over its text. The pieces of a tree are what its nodes are read from; the
windows of a tree are what its sequences are read from. Outside of the pieces a text should hold
nothing but white space and comments, each comment delimited by the window it stands in. -/

namespace ClassExpr

open Text

namespace Node

/-- The opening parenthesis of a group with the marker in front of it. -/
def opener (range : Token) : Token :=
  let cs := range.text.toList
  .ofChars range.start (cs.take ((Tree.marker cs).length + 1))

/-- The closing parenthesis of a closed group with the marker behind it. -/
def closer (range : Token) : Token :=
  let cs := range.text.toList
  let kept := cs.length - 1 - (cs.getLast? == some '!').toNat
  .ofChars (range.start + byteLength (cs.take kept)) (cs.drop kept)

mutual

/-- Leaves, variants with their separators, and the delimiters of groups, in the order of the
text. -/
def pieces : Node → List Token
  | .declaration _ children => piecesAll children
  | .variantSpan _ variant none => [variant.range]
  | .variantSpan _ variant (some child) => variant.range :: pieces child
  | .group range child closed _ =>
      opener range :: (pieces child ++ if closed then [closer range] else [])
  | .leaf item => [item.range]

def piecesAll : List Node → List Token
  | [] => []
  | child :: rest => pieces child ++ piecesAll rest

end

/-- The items of a sequence, where an item stands for the sequence of it alone. -/
def items : Node → List Node
  | .declaration _ children => children
  | node => [node]

end Node

structure Window where
  start : Nat
  stop : Nat
  items : List Node

namespace Node

mutual

/-- The windows below a node that stands in a window that ends at `stop`. -/
def windows (text separator : String) (stop : Nat) : Node → List Window
  | .declaration _ children => windowsAll text separator stop children
  | .variantSpan _ _ none => []
  | .variantSpan _ variant (some child) =>
      if child.kind = .group then windows text separator stop child
      else
        let last := Body.findEnd text variant.range.stop stop separator
        ⟨variant.range.stop, last, child.items⟩ :: windows text separator last child
  | .group range child closed _ =>
      let last := if closed then (closer range).start else range.stop
      ⟨(opener range).stop, last, child.items⟩ :: windows text separator last child
  | .leaf _ => []

def windowsAll (text separator : String) (stop : Nat) : List Node → List Window
  | [] => []
  | child :: rest => windows text separator stop child ++ windowsAll text separator stop rest

end

theorem pieces_declaration (range : Token) (children : List Node) :
    (declaration range children).pieces = children.flatMap pieces := by
  rw [pieces]
  induction children with
  | nil => rw [piecesAll, List.flatMap_nil]
  | cons child rest ih => rw [piecesAll, ih, List.flatMap_cons]

theorem windows_declaration (text separator : String) (stop : Nat) (range : Token)
    (children : List Node) :
    (declaration range children).windows text separator stop =
      children.flatMap (windows text separator stop) := by
  rw [windows]
  induction children with
  | nil => rw [windowsAll, List.flatMap_nil]
  | cons child rest ih => rw [windowsAll, ih, List.flatMap_cons]

def allWindows (text separator : String) (start stop : Nat) (node : Node) : List Window :=
  ⟨start, stop, node.items⟩ :: node.windows text separator stop

end Node

/-- A comment that stands in a window: it goes as far as the window lets it, and no item that is
read from the window meets it. -/
structure Window.Holds (text : String) (window : Window) (offset : Nat) (taken : List Char) :
    Prop where
  start_le : window.start ≤ offset
  delimited : ∃ rest, Occurs text.toList offset (taken ++ rest) ∧
    offset + byteLength (taken ++ rest) = window.stop ∧ Comment.Spans taken rest
  apart : ∀ item ∈ window.items,
    item.range.stop ≤ offset ∨ offset + byteLength taken ≤ item.range.start

inductive Passed (text : String) (windows : List Window) : Nat → List Char → Prop
  | nil {offset : Nat} : Passed text windows offset []
  | blank {offset : Nat} {c : Char} {cs : List Char} (white : isBlank c = true)
      (later : Passed text windows (offset + c.utf8Size) cs) : Passed text windows offset (c :: cs)
  | comment {offset : Nat} {taken rest : List Char} {window : Window} (known : window ∈ windows)
      (holds : window.Holds text offset taken)
      (later : Passed text windows (offset + byteLength taken) rest) :
      Passed text windows offset (taken ++ rest)

/-- Pieces in order with white space and comments between them. -/
inductive Tiles (text : String) (windows : List Window) : Nat → List Char → List Token → Prop
  | done {offset : Nat} {cs : List Char} (passed : Passed text windows offset cs) :
      Tiles text windows offset cs []
  | piece {offset : Nat} {lead cs rest : List Char} {pieces : List Token}
      (passed : Passed text windows offset lead) (nonempty : cs ≠ [])
      (later : Tiles text windows (offset + byteLength lead + byteLength cs) rest pieces) :
      Tiles text windows offset (lead ++ cs ++ rest)
        (.ofChars (offset + byteLength lead) cs :: pieces)

section

variable {text : String} {windows more : List Window}

theorem Passed.mono (sub : windows ⊆ more) {offset : Nat} {cs : List Char}
    (passed : Passed text windows offset cs) : Passed text more offset cs := by
  induction passed with
  | nil => exact Passed.nil
  | blank white _ ih => exact Passed.blank white ih
  | comment known holds _ ih => exact Passed.comment (sub known) holds ih

theorem Passed.append {offset : Nat} {first second : List Char}
    (left : Passed text windows offset first)
    (right : Passed text windows (offset + byteLength first) second) :
    Passed text windows offset (first ++ second) := by
  induction left with
  | nil => exact right
  | blank white _ ih =>
      rw [byteLength_cons, ← Nat.add_assoc] at right
      exact Passed.blank white (ih right)
  | comment known holds _ ih =>
      rw [byteLength_append, ← Nat.add_assoc] at right
      rw [List.append_assoc]
      exact Passed.comment known holds (ih right)

theorem Passed.forall_blank {offset : Nat} {cs : List Char}
    (passed : Passed text windows offset cs) (noSlash : '/' ∉ cs) : ∀ c ∈ cs, isBlank c = true := by
  induction passed with
  | nil => simp
  | blank white _ ih =>
      rw [List.mem_cons, not_or] at noSlash
      exact List.forall_mem_cons.2 ⟨white, ih noSlash.2⟩
  | comment _ holds _ _ =>
      obtain ⟨_, _, _, spans⟩ := holds.delimited
      exact absurd (List.mem_append_left _ (List.mem_of_mem_head? spans.head?)) noSlash

theorem Passed.of_blank {offset : Nat} {cs : List Char} (white : ∀ c ∈ cs, isBlank c = true) :
    Passed text windows offset cs := by
  induction cs generalizing offset with
  | nil => exact Passed.nil
  | cons c cs ih =>
      exact Passed.blank (white c List.mem_cons_self)
        (ih fun d member => white d (List.mem_cons_of_mem c member))

theorem Tiles.mono (sub : windows ⊆ more) {offset : Nat} {cs : List Char} {pieces : List Token}
    (tiles : Tiles text windows offset cs pieces) : Tiles text more offset cs pieces := by
  induction tiles with
  | done passed => exact Tiles.done (passed.mono sub)
  | piece passed nonempty _ ih => exact Tiles.piece (passed.mono sub) nonempty ih

theorem Tiles.prepend {offset : Nat} {first second : List Char} {pieces : List Token}
    (passed : Passed text windows offset first)
    (tiles : Tiles text windows (offset + byteLength first) second pieces) :
    Tiles text windows offset (first ++ second) pieces := by
  cases tiles with
  | done rest => exact Tiles.done (passed.append rest)
  | @piece _ lead cs rest pieces between nonempty later =>
      rw [← List.append_assoc, ← List.append_assoc]
      rw [Nat.add_assoc offset, ← byteLength_append] at later ⊢
      exact Tiles.piece (passed.append between) nonempty later

theorem Tiles.append {offset : Nat} {first second : List Char} {left right : List Token}
    (tiles : Tiles text windows offset first left)
    (others : Tiles text windows (offset + byteLength first) second right) :
    Tiles text windows offset (first ++ second) (left ++ right) := by
  induction tiles with
  | done passed => exact others.prepend passed
  | @piece offset lead cs rest pieces passed nonempty _ ih =>
      rw [List.append_assoc]
      refine Tiles.piece passed nonempty (ih ?_)
      rw [byteLength_append, byteLength_append] at others
      rw [Nat.add_assoc offset, Nat.add_assoc offset]
      exact others

theorem Tiles.single {offset : Nat} {cs : List Char} (nonempty : cs ≠ []) :
    Tiles text windows offset cs [.ofChars offset cs] := by
  have alone : Tiles text windows offset ([] ++ cs ++ []) [.ofChars (offset + byteLength []) cs] :=
    Tiles.piece Passed.nil nonempty (Tiles.done Passed.nil)
  simpa using alone

theorem Tiles.start_le {offset : Nat} {cs : List Char} {pieces : List Token}
    (tiles : Tiles text windows offset cs pieces) : ∀ piece ∈ pieces, offset ≤ piece.start := by
  induction tiles with
  | done _ => simp
  | piece _ _ _ ih =>
      intro piece member
      rcases List.mem_cons.1 member with rfl | later
      · exact Nat.le_add_right _ _
      · have bound := ih piece later
        omega

theorem Tiles.ordered {offset : Nat} {cs : List Char} {pieces : List Token}
    (tiles : Tiles text windows offset cs pieces) :
    pieces.Pairwise (fun left right => left.stop ≤ right.start) := by
  induction tiles with
  | done _ => exact List.Pairwise.nil
  | piece _ _ later ih =>
      refine List.pairwise_cons.2 ⟨?_, ih⟩
      intro piece member
      rw [Token.stop_ofChars]
      exact later.start_le piece member

theorem Tiles.exact {source : String} {offset : Nat} {cs : List Char} {pieces : List Token}
    (tiles : Tiles text windows offset cs pieces) (occurs : Occurs source.toList offset cs) :
    ∀ piece ∈ pieces, piece.start < piece.stop ∧
      Token.ofSource? source piece.start piece.stop = some piece := by
  induction tiles with
  | done _ => simp
  | @piece offset lead cs rest pieces _ nonempty _ ih =>
      intro piece member
      have found : Occurs source.toList (offset + byteLength lead) cs := occurs.left.right
      rcases List.mem_cons.1 member with rfl | later
      · rw [Token.start_ofChars, Token.stop_ofChars, Token.ofSource?_eq found]
        cases cs with
        | nil => exact absurd rfl nonempty
        | cons c cs =>
            have positive := c.utf8Size_pos
            rw [byteLength_cons]
            exact ⟨by omega, rfl⟩
      · refine ih ?_ piece later
        have behind := occurs.right
        rw [byteLength_append, ← Nat.add_assoc] at behind
        exact behind

end

/-- No piece covers the byte at an offset. -/
def Uncovered (pieces : List Token) (offset : Nat) : Prop :=
  ∀ piece ∈ pieces, ¬(piece.start ≤ offset ∧ offset < piece.stop)

/-- A maximal run of bytes that no piece covers, between two offsets. -/
structure Gap (first last : Nat) (pieces : List Token) (start stop : Nat) : Prop where
  nonempty : start < stop
  first_le : first ≤ start
  le_last : stop ≤ last
  uncovered : ∀ offset, start ≤ offset → offset < stop → Uncovered pieces offset
  leftmost : start = first ∨ ¬Uncovered pieces (start - 1)
  rightmost : stop = last ∨ ¬Uncovered pieces stop

private theorem Uncovered.of_lt {pieces : List Token} {offset bound : Nat}
    (behind : ∀ piece ∈ pieces, bound ≤ piece.start) (before : offset < bound) :
    Uncovered pieces offset := by
  intro piece member covers
  have later := behind piece member
  omega

private theorem uncovered_cons {piece : Token} {pieces : List Token} {offset : Nat} :
    Uncovered (piece :: pieces) offset ↔
      ¬(piece.start ≤ offset ∧ offset < piece.stop) ∧ Uncovered pieces offset :=
  List.forall_mem_cons

theorem Gap.whole {first last start stop : Nat} (gap : Gap first last [] start stop) :
    start = first ∧ stop = last := by
  have free : ∀ offset, Uncovered [] offset := fun _ _ member => by cases member
  constructor
  · rcases gap.leftmost with same | covered
    · exact same
    · exact absurd (free _) covered
  · rcases gap.rightmost with same | covered
    · exact same
    · exact absurd (free _) covered

section

variable {piece : Token} {pieces : List Token} {first last start stop : Nat}

theorem Gap.apart (gap : Gap first last (piece :: pieces) start stop)
    (nonempty : piece.start < piece.stop) : stop ≤ piece.start ∨ piece.stop ≤ start := by
  have outside : ∀ k, start ≤ k → k < stop → ¬(piece.start ≤ k ∧ k < piece.stop) :=
    fun k atLeast below => (uncovered_cons.1 (gap.uncovered k atLeast below)).1
  have ordered := gap.nonempty
  rcases Nat.lt_or_ge piece.start stop with longer | fits
  · right
    rcases Nat.lt_or_ge start piece.start with early | late
    · exact absurd ⟨Nat.le_refl _, nonempty⟩ (outside _ (Nat.le_of_lt early) longer)
    · have inside := outside start (Nat.le_refl _) ordered
      omega
  · exact Or.inl fits

theorem Gap.before (gap : Gap first last (piece :: pieces) start stop)
    (behind : ∀ other ∈ piece :: pieces, piece.start ≤ other.start) (inside : piece.start < last)
    (early : stop ≤ piece.start) : start = first ∧ stop = piece.start := by
  have ordered := gap.nonempty
  constructor
  · rcases gap.leftmost with same | covered
    · exact same
    · exact absurd (Uncovered.of_lt behind (by omega)) covered
  · rcases gap.rightmost with same | covered
    · omega
    · rcases Nat.lt_or_ge stop piece.start with under | enough
      · exact absurd (Uncovered.of_lt behind under) covered
      · omega

theorem Gap.behind (gap : Gap first last (piece :: pieces) start stop)
    (follows : first < piece.stop) (late : piece.stop ≤ start) :
    Gap piece.stop last pieces start stop := by
  obtain ⟨ordered, _, le_last, uncovered, leftmost, rightmost⟩ := gap
  refine ⟨ordered, late, le_last,
    fun k atLeast below => (uncovered_cons.1 (uncovered k atLeast below)).2, ?_, ?_⟩
  · rcases leftmost with same | covered
    · omega
    · by_cases adjacent : start = piece.stop
      · exact Or.inl adjacent
      · right
        intro free
        exact covered (uncovered_cons.2 ⟨by omega, free⟩)
  · rcases rightmost with same | covered
    · exact Or.inl same
    · right
      intro free
      exact covered (uncovered_cons.2 ⟨by omega, free⟩)

end

/-- Between pieces in order there is nothing but white space and comments: a maximal run is what
stands between one piece and the next. -/
theorem Tiles.passed_of_gap {text : String} {windows : List Window} {offset : Nat}
    {cs : List Char} {pieces : List Token} {start stop : Nat}
    (tiles : Tiles text windows offset cs pieces)
    (gap : Gap offset (offset + byteLength cs) pieces start stop) :
    ∃ shift run, start = offset + shift ∧ stop = start + byteLength run ∧ Occurs cs shift run ∧
      Passed text windows start run := by
  induction tiles with
  | @done offset cs passed =>
      obtain ⟨rfl, atStop⟩ := gap.whole
      exact ⟨0, cs, rfl, atStop, Occurs.refl cs, passed⟩
  | @piece offset lead cs rest pieces passed nonempty later ih =>
      have filled : 0 < byteLength cs := by
        cases cs with
        | nil => exact absurd rfl nonempty
        | cons c cs =>
            have positive := c.utf8Size_pos
            rw [byteLength_cons]
            omega
      have pieceStop := Token.stop_ofChars (offset + byteLength lead) cs
      have size : offset + byteLength (lead ++ cs ++ rest) =
          offset + byteLength lead + byteLength cs + byteLength rest := by
        rw [byteLength_append, byteLength_append]
        omega
      have fromLead : ∀ other ∈ Token.ofChars (offset + byteLength lead) cs :: pieces,
          offset + byteLength lead ≤ other.start := by
        intro other member
        rcases List.mem_cons.1 member with rfl | inRest
        · exact Nat.le_refl _
        · have bound := later.start_le other inRest
          omega
      rw [size] at gap
      -- a gap lies in front of the first piece or among the later ones
      rcases gap.apart (by rw [pieceStop, Token.start_ofChars]; omega) with early | late
      · obtain ⟨rfl, atStop⟩ := gap.before fromLead (by rw [Token.start_ofChars]; omega) early
        exact ⟨0, lead, rfl, atStop, (Occurs.refl _).left.left, passed⟩
      · have inner := gap.behind (by rw [pieceStop]; omega) late
        rw [pieceStop] at inner
        obtain ⟨shift, run, place, runSize, occurs, passedRun⟩ := ih inner
        refine ⟨byteLength (lead ++ cs) + shift, run, ?_, runSize, ?_, passedRun⟩
        · rw [byteLength_append, place]
          omega
        · have inRest : Occurs (lead ++ cs ++ rest) (0 + byteLength (lead ++ cs)) rest :=
            (Occurs.refl _).right
          rw [Nat.zero_add] at inRest
          exact inRest.trans occurs

end ClassExpr
