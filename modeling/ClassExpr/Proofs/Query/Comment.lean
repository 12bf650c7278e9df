import ClassExpr.Proofs.Query.Code
import ClassExpr.Proofs.Tree.Skipped

set_option autoImplicit false

/-! The comments that a cursor sees in the raw text and those that reading passes over. The raw text
is read without the tree: it knows neither the windows that end a comment early nor the leaves that
hold one. Both are the same around a cursor unless the comments there are told apart by a piece that
hides one of them, by a bracket or a quote that a piece leaves open, or by the end of a window. -/

namespace ClassExpr.Completion

open Text

/-- A comment goes as far in the text as in its window. -/
def Uncut (text : String) (start : Nat) (taken : List Char) : Prop :=
  Comment.Spans taken (splitBytes (start + byteLength taken) text.toList).2

def IsCode (text : String) (piece : Token) : Prop :=
  Code piece.text.toList (splitBytes piece.stop text.toList).2

/-- A cursor has to do with a comment that it is in, and with one that starts to hold another one
that the raw text shows around the cursor. -/
def Concerns (text : String) (cursor start : Nat) (taken : List Char) : Prop :=
  Within cursor start taken ∨
    ∃ later other, Shown text.toList later other ∧ Within cursor later other ∧
      start ≤ later ∧ later < start + byteLength taken

/-! ### The raw text along the tiles of a tree -/

section

variable {text : String} {windows : List Window} {offset : Nat} {cs front back : List Char}
  {pieces : List Token}

private theorem clear_tile (tile : Tile text windows offset cs pieces)
    (whole : text.toList = front ++ (cs ++ back)) (place : byteLength front = offset)
    (code : ∀ piece ∈ pieces, IsCode text piece)
    (uncut : ∀ start taken, HasComment text windows offset cs pieces start taken →
      Uncut text start taken) : Clear cs back := by
  have behind : (splitBytes (offset + byteLength cs) text.toList).2 = back := by
    rw [whole, ← place, ← byteLength_append, ← List.append_assoc, splitBytes_byteLength]
  cases tile with
  | @blank c white =>
      have other : ∀ d, isBlank d = false → c ≠ d := by
        rintro d solid rfl
        rw [white] at solid
        cases solid
      refine Clear.of_code (.char (other '[' rfl) ?_ .nil)
      have noSlash : (c :: back).head? ≠ some '/' := by simpa using other '/' rfl
      obtain ⟨noLine, noBlock⟩ := Comment.no_start noSlash
      simp [StartsComment, noLine, noBlock]
  | comment known holds =>
      have spans := uncut offset cs ⟨[], [], [], [], by simp, rfl, rfl, Tiles.done Passed.nil,
        ⟨_, known, holds⟩, Tiles.done Passed.nil⟩
      rw [Uncut, behind] at spans
      exact Clear.of_spans spans
  | piece nonempty =>
      have isCode := code _ List.mem_cons_self
      rw [IsCode, Token.toList_ofChars, Token.stop_ofChars, behind] at isCode
      exact Clear.of_code isCode

/-- Tiles leave nothing open if the pieces among them are code and the comments are not cut. -/
theorem clear_tiles (tiles : Tiles text windows offset cs pieces)
    (whole : text.toList = front ++ (cs ++ back)) (place : byteLength front = offset)
    (code : ∀ piece ∈ pieces, IsCode text piece)
    (uncut : ∀ start taken, HasComment text windows offset cs pieces start taken →
      Uncut text start taken) : Clear cs back := by
  induction counted : cs.length using Nat.strongRecOn generalizing offset cs front pieces with
  | ind size ih =>
      by_cases nonempty : cs = []
      · rw [nonempty]
        exact Clear.nil
      obtain ⟨taken, rest, mine, later, rfl, rfl, tile, others⟩ := tiles.first nonempty
      have positive := List.length_pos_iff.2 tile.ne_nil
      rw [List.length_append] at counted
      rw [List.append_assoc] at whole
      apply Clear.append
      · apply clear_tile tile whole place
        · exact fun piece member => code piece (List.mem_append_left _ member)
        · exact fun start comment has => uncut start comment (has.append others)
      · apply @ih rest.length (by omega) (offset + byteLength taken) rest (front ++ taken) later
          others
        · rw [whole, List.append_assoc]
        · rw [byteLength_append, place]
        · exact fun piece member => code piece (List.mem_append_right _ member)
        · exact fun start comment has => uncut start comment (has.prepend tile.tiles)
        · rfl

end

abbrev windowsOf (settings : Settings) (text : String) : List Window :=
  (Tree.read settings text none).allWindows text settings.separator 0 text.utf8ByteSize

/-! ### Comments that are not cut -/

section

variable {settings : Settings} {text : String} {window : Window} {start : Nat} {taken : List Char}

/-- A comment is cut at most by the end of a window that ends in front of the text. -/
theorem uncut_of_holds (holds : window.Holds text start taken)
    (further : start + byteLength taken ≠ window.stop ∨ window.stop = text.utf8ByteSize) :
    Uncut text start taken := by
  obtain ⟨rest, ⟨before, after, whole, place⟩, stops, spans⟩ := holds.delimited
  have parts : text.toList = (before ++ taken) ++ (rest ++ after) := by simp [whole]
  rw [Uncut, ← place, ← byteLength_append, parts, splitBytes_byteLength]
  by_cases followed : rest = []
  · rw [followed, List.append_nil] at stops
    have atEnd := further.resolve_left (fun short => short stops)
    have size := byteLength_toList text
    rw [parts, followed, List.nil_append, byteLength_append, byteLength_append] at size
    have last : after = [] := by
      cases after with
      | nil => rfl
      | cons c after =>
          have positive := c.utf8Size_pos
          rw [byteLength_cons] at size
          omega
    subst followed last
    exact spans
  · exact spans.append followed after

private theorem uncut_of_closedBlock (holds : window.Holds text start taken)
    (closed : ClosedBlock taken) :
    Uncut text start taken := by
  obtain ⟨_, _, _, spans⟩ := holds.delimited
  obtain ⟨body, rfl⟩ := closed
  exact Comment.Spans.block spans.first_closer

private theorem exists_holds_of_skips (skips : Tree.Skips settings text start taken) :
    ∃ window ∈ windowsOf settings text, window.Holds text start taken := by
  obtain ⟨_, _, _, _, _, _, _, _, held, _⟩ := skips
  exact held

/-- Without line comments all comments have closers, if in front of the end of each window a closer
stands behind each opener. -/
theorem closedBlock_of_skips (noLine : ¬['/', '/'] <:+: text.toList)
    (closers : ∀ window ∈ windowsOf settings text,
      let front := (splitBytes window.stop text.toList).1
      ∀ i < front.length, ['/', '*'] <+: front.drop i → Comment.closer <:+: front.drop (i + 2))
    (skips : Tree.Skips settings text start taken) : ClosedBlock taken := by
  obtain ⟨window, known, holds⟩ := exists_holds_of_skips skips
  obtain ⟨rest, ⟨before, after, whole, place⟩, stops, spans⟩ := holds.delimited
  cases spans with
  | @line body _ _ _ => exact absurd ⟨before, body ++ rest ++ after, by simp [whole]⟩ noLine
  | block _ => exact ⟨_, rfl⟩
  | @openBlock body absent =>
      have parts : (splitBytes window.stop text.toList).1 = before ++ '/' :: '*' :: body := by
        rw [List.append_nil] at stops whole
        rw [← stops, ← place, ← byteLength_append, whole, splitBytes_byteLength]
      have closed := closers window known
      simp only [parts] at closed
      have here := closed before.length (by simp) (by rw [List.drop_left]; exact ⟨body, rfl⟩)
      rw [← List.drop_drop, List.drop_left] at here
      exact absurd here absent

end

/-- All that starts in front of the cursor is what the raw text shows: the pieces are code, and no
comment is cut. -/
structure Legible (settings : Settings) (text : String) (cursor : Nat) : Prop where
  code : ∀ piece ∈ (Tree.read settings text none).pieces, piece.start < cursor → IsCode text piece
  uncut : ∀ start taken, Tree.Skips settings text start taken → start < cursor →
    Uncut text start taken

section

variable {settings : Settings} {text : String} {cursor start : Nat} {taken : List Char}

/-- A text is legible if its brackets are closed and hide nothing and no comment is cut. What is
unknown, open or hidden may still be code. -/
theorem Legible.of_bare (plain : ∀ c ∈ settings.separator.toList, c ≠ '[' ∧ c ≠ '/')
    (bare : ∀ node ∈ (Tree.read settings text none).nodes, ∀ piece ∈ node.own,
      piece.start < cursor → node.Bare ∨ IsCode text piece)
    (uncut : ∀ start taken, Tree.Skips settings text start taken → start < cursor →
      ClosedBlock taken ∨ Uncut text start taken) : Legible settings text cursor where
  code piece member early := by
    obtain ⟨node, isNode, isOwn⟩ := Node.exists_own_of_mem_pieces member
    rcases bare node isNode piece isOwn early with nodeBare | isCode
    · have item : node.kind ≠ .declaration := by
        intro sequence
        cases node with
        | declaration range children => cases isOwn
        | variantSpan range variant child => cases sequence
        | group range child closed important => cases sequence
        | leaf leaf => cases leaf <;> cases sequence
      have read := Tree.allRead_sequence ⟨settings.separator.toList, none⟩
        (settings.maxDepth + 1) 0 text.toList
      rw [← Tree.read_eq] at read
      exact code_of_isRead plain (read node isNode item) nodeBare piece isOwn _
    · exact isCode
  uncut start taken skips early := by
    obtain ⟨window, _, holds⟩ := exists_holds_of_skips skips
    rcases uncut start taken skips early with closed | whole
    · exact uncut_of_closedBlock holds closed
    · exact whole

theorem Legible.clear (legible : Legible settings text cursor) {before rest : List Char}
    {left right : List Token} (whole : text.toList = before ++ rest)
    (pieces : (Tree.read settings text none).pieces = left ++ right)
    (front : Tiles text (windowsOf settings text) 0 before left)
    (back : Tiles text (windowsOf settings text) (byteLength before) rest right)
    (early : byteLength before ≤ cursor) : Clear before rest := by
  apply @clear_tiles _ _ _ _ [] rest _ front (by simpa using whole) rfl
  · intro piece member
    have inTree : piece ∈ (Tree.read settings text none).pieces := by
      rw [pieces]
      exact List.mem_append_left _ member
    have nonempty := ((Tree.tiles_read settings text).exact (Occurs.refl _) piece inTree).1
    have stop := front.stop_le piece member
    exact legible.code piece inTree (by omega)
  · intro start taken has
    have stop := has.stop_le
    have skips : Tree.Skips settings text start taken := by
      rw [← Nat.zero_add (byteLength before)] at back
      have added := has.append back
      rwa [← whole, ← pieces] at added
    obtain ⟨_, _, _, _, _, _, _, _, ⟨_, _, holds⟩, _⟩ := has
    obtain ⟨_, _, _, spans⟩ := holds.delimited
    have size := byteLength_pos spans.ne_nil
    exact legible.uncut start taken skips (by omega)

/-- A comment that is passed over in front of the cursor is shown by the raw text. -/
theorem Legible.shown (legible : Legible settings text cursor)
    (skips : Tree.Skips settings text start taken) (early : start < cursor) :
    Shown text.toList start taken := by
  have uncut := legible.uncut start taken skips early
  obtain ⟨before, after, left, right, whole, pieces, rfl, front, ⟨_, known, holds⟩, back⟩ := skips
  rw [Nat.zero_add] at *
  rw [List.append_assoc] at whole
  have others : Tiles text _ (byteLength before) (taken ++ after) ([] ++ right) :=
    (Tile.comment known holds).tiles.append back
  have clear := legible.clear whole pieces front others (Nat.le_of_lt early)
  rw [Uncut, whole, ← byteLength_append, ← List.append_assoc, splitBytes_byteLength] at uncut
  exact ⟨before, after, whole, rfl, clear, uncut⟩

/-- A comment that the raw text shows starts in a piece or in a comment that is passed over. -/
theorem starts_in_tile (settings : Settings) (shown : Shown text.toList start taken) :
    (∃ before own after left right, text.toList = before ++ (own ++ after) ∧
        (Tree.read settings text none).pieces =
          left ++ .ofChars (byteLength before) own :: right ∧
        Tiles text (windowsOf settings text) 0 before left ∧
        Tiles text (windowsOf settings text) (byteLength before) (own ++ after)
          (.ofChars (byteLength before) own :: right) ∧
        byteLength before ≤ start ∧ start < byteLength before + byteLength own) ∨
      ∃ first comment, Tree.Skips settings text first comment ∧ first ≤ start ∧
        start < first + byteLength comment := by
  have tiles := Tree.tiles_read settings text
  dsimp only at tiles
  obtain ⟨front, rest, whole, rfl, _, spans⟩ := shown
  have size := two_le_of_spans spans
  have inside : byteLength front + 1 ≤ 0 + byteLength text.toList := by
    rw [whole, byteLength_append, byteLength_append]
    omega
  obtain ⟨before, own, after, left, mine, right, parts, pieces, first, tile, back, behind, within⟩ :=
    tiles.covers (Nat.succ_pos _) inside
  rw [Nat.zero_add] at tile back behind within
  have others := tile.tiles.append back
  rw [List.append_assoc] at parts pieces
  cases tile with
  | @blank c white =>
      -- no comment starts with a blank
      rw [parts] at whole
      have same : before = front := by
        rcases List.append_eq_append_iff.1 whole with ⟨more, rfl, rest⟩ | ⟨more, rfl, _⟩
        · cases more with
          | nil => simp
          | cons d more =>
              obtain ⟨rfl, -⟩ := List.cons.inj rest
              rw [byteLength_append, byteLength_cons, byteLength_cons, byteLength_nil] at within
              omega
        · cases more with
          | nil => simp
          | cons d more =>
              have positive := d.utf8Size_pos
              simp at behind
              omega
      subst same
      have slash : ([c] ++ after).head? = some '/' := by
        rw [List.append_cancel_left whole, List.head?_append, spans.head?, Option.some_or]
      obtain rfl : c = '/' := by simpa using slash
      cases white
  | comment known holds =>
      right
      refine ⟨byteLength before, own, ⟨before, after, left, right, by rw [parts, List.append_assoc],
        pieces, (Nat.zero_add _).symm, first, ⟨_, known, holds⟩, back⟩, by omega, by omega⟩
  | piece nonempty =>
      left
      exact ⟨before, own, after, left, right, parts, pieces, first, others, by omega, by omega⟩

end

/-! ### The same comments -/

mutual

private theorem inComment_locate (position : Nat) (scope : Scope) :
    (node : Node) → (locate position scope node).inComment = false
  | .declaration range children => by
      rw [locate]
      exact inComment_locateFirst position scope children
  | .variantSpan range variant none => by
      rw [locate]
      split
      · rfl
      · split <;> rfl
  | .variantSpan range variant (some child) => by
      rw [locate]
      split
      · rfl
      · split
        · rfl
        · dsimp only
          split
          · exact inComment_locate position (scope.enter variant) child
          · rfl
  | .group range child closed important => by
      rw [locate]
      split
      · rfl
      · dsimp only
        split
        · exact inComment_locate position (scope.mark important) child
        · rfl
  | .leaf leaf => by
      rw [locate]
      split <;> rfl

private theorem inComment_locateFirst (position : Nat) (scope : Scope) :
    (children : List Node) → (locateFirst position scope children).inComment = false
  | [] => rfl
  | child :: rest => by
      rw [locateFirst]
      split
      · exact inComment_locate position scope child
      · exact inComment_locateFirst position scope rest

end

private theorem inComment_atCursor (settings : Settings) (text : String) (cursor : Nat) :
    (atCursor settings text cursor).inComment =
      (modeAt text.toList (floorBoundary text.toList cursor)).isComment := by
  unfold atCursor
  dsimp only
  cases modeAt text.toList (floorBoundary text.toList cursor) with
  | code => exact inComment_locate _ _ _
  | quoted mark => exact inComment_locate _ _ _
  | lineComment => rfl
  | blockComment => rfl

section

variable {settings : Settings} {text : String} {cursor start : Nat} {taken : List Char}

/-- A cursor is in a comment exactly if the raw text shows one around it. -/
theorem inComment_iff_shown (settings : Settings) (boundary : isBoundary text.toList cursor = true)
    (spares : ∀ start taken, Shown text.toList start taken → SparesCloser cursor start taken) :
    (atCursor settings text cursor).inComment = true ↔
      ∃ start taken, Shown text.toList start taken ∧ Within cursor start taken := by
  rw [inComment_atCursor, floorBoundary_of_isBoundary boundary, modeAt_eq]
  constructor
  · intro comment
    obtain ⟨left, right, split, size⟩ := exists_split_of_isBoundary boundary
    apply exists_shown _ comment
    rw [split, byteLength_append]
    omega
  · rintro ⟨start, taken, shown, within⟩
    exact shown.isComment within (spares start taken shown)

private theorem not_shown_in_code {before own after : List Char}
    (whole : text.toList = before ++ (own ++ after)) (clear : Clear before (own ++ after))
    (code : Code own after) (behind : byteLength before ≤ start)
    (inside : start < byteLength before + byteLength own) : ¬Shown text.toList start taken := by
  intro shown
  obtain ⟨_, _, _, _, _, spans⟩ := id shown
  have size := two_le_of_spans spans
  have within : Within (start + 1) start taken := by
    refine ⟨by omega, by omega, fun block => ?_⟩
    have long := block.four_le
    omega
  have spares : SparesCloser (start + 1) start taken := by
    intro block
    have long := block.four_le
    omega
  have comment := shown.isComment within spares
  have nonempty : own ++ after ≠ [] := by
    intro none
    rw [(List.append_eq_nil_iff.1 none).1, byteLength_nil] at inside
    omega
  obtain ⟨count, rfl⟩ := Nat.exists_eq_add_of_le behind
  have reads := clear.resumes nonempty (count + 1) (Nat.succ_pos count)
  rw [whole, Nat.add_assoc, reads, code.quiet.silent _ (by omega)] at comment
  cases comment

/-- A comment that the raw text shows in front of the cursor is passed over. -/
theorem Legible.skips (legible : Legible settings text cursor)
    (shown : Shown text.toList start taken) (early : start < cursor) :
    Tree.Skips settings text start taken := by
  rcases starts_in_tile settings shown with
    ⟨before, own, after, left, right, whole, pieces, front, back, behind, inside⟩ |
    ⟨first, comment, skips, behind, inside⟩
  · have inTree : Token.ofChars (byteLength before) own ∈
        (Tree.read settings text none).pieces := by
      rw [pieces]
      exact List.mem_append_right _ List.mem_cons_self
    have code := legible.code _ inTree (by rw [Token.start_ofChars]; omega)
    rw [IsCode, Token.toList_ofChars, Token.stop_ofChars, whole, ← byteLength_append,
      ← List.append_assoc, splitBytes_byteLength] at code
    have clear := legible.clear whole pieces front back (by omega)
    exact absurd shown (not_shown_in_code whole clear code behind inside)
  · have known := legible.shown skips (by omega)
    obtain ⟨rfl, rfl⟩ := known.unique shown behind inside
    exact skips

end

/-- A cursor is in a comment exactly if the raw text shows one around it. That is so exactly if the
cursor is in a comment that reading the text passes over, provided that no comment which is shown
around the cursor starts in a piece of the tree, and that the raw text shows each comment that
reading passes over and that concerns the cursor. This in turn is so wherever all that starts in
front of the cursor is legible. Where the cursor divides a closer is left open. -/
theorem inComment_iff_skips (settings : Settings) (text : String) {cursor : Nat}
    (boundary : isBoundary text.toList cursor = true)
    (spares : ∀ start taken, Shown text.toList start taken → SparesCloser cursor start taken) :
    let inComment := (atCursor settings text cursor).inComment = true
    let skipped := ∃ start taken, Tree.Skips settings text start taken ∧ Within cursor start taken
    (inComment ↔ ∃ start taken, Shown text.toList start taken ∧ Within cursor start taken) ∧
      ((∀ start taken, Shown text.toList start taken → Within cursor start taken →
          ∀ piece ∈ (Tree.read settings text none).pieces,
            ¬(piece.start ≤ start ∧ start < piece.stop)) →
        (∀ start taken, Tree.Skips settings text start taken → Concerns text cursor start taken →
          Shown text.toList start taken) → (inComment ↔ skipped)) ∧
      (Legible settings text cursor → (inComment ↔ skipped)) := by
  intro inComment skipped
  have shows : inComment ↔ _ := inComment_iff_shown settings boundary spares
  refine ⟨shows, fun apart seen => shows.trans ⟨?_, ?_⟩, fun legible => shows.trans ⟨?_, ?_⟩⟩
  · rintro ⟨start, taken, shown, within⟩
    rcases starts_in_tile settings shown with
      ⟨before, own, after, left, right, whole, pieces, front, back, behind, inside⟩ |
      ⟨first, comment, skips, behind, inside⟩
    · have inTree : Token.ofChars (byteLength before) own ∈
          (Tree.read settings text none).pieces := by
        rw [pieces]
        exact List.mem_append_right _ List.mem_cons_self
      refine absurd ⟨?_, ?_⟩ (apart start taken shown within _ inTree)
      · rw [Token.start_ofChars]
        exact behind
      · rw [Token.stop_ofChars]
        exact inside
    · have known := seen first comment skips (Or.inr ⟨start, taken, shown, within, behind, inside⟩)
      obtain ⟨rfl, rfl⟩ := known.unique shown behind inside
      exact ⟨start, taken, skips, within⟩
  · rintro ⟨start, taken, skips, within⟩
    exact ⟨start, taken, seen start taken skips (Or.inl within), within⟩
  · rintro ⟨start, taken, shown, within⟩
    exact ⟨start, taken, legible.skips shown within.1, within⟩
  · rintro ⟨start, taken, skips, within⟩
    exact ⟨start, taken, legible.shown skips within.1, within⟩

theorem inComment_iff_skips_nested :
    isBoundary "md:(w-['c'] /* a */ m-2)".toList 15 = true ∧
      (∀ start taken, Shown "md:(w-['c'] /* a */ m-2)".toList start taken →
        SparesCloser 15 start taken) ∧
      Legible {} "md:(w-['c'] /* a */ m-2)" 15 ∧
      ∃ start taken, Tree.Skips {} "md:(w-['c'] /* a */ m-2)" start taken ∧
        Within 15 start taken := by
  have boundary : isBoundary "md:(w-['c'] /* a */ m-2)".toList 15 = true := by decide +kernel
  have spares : ∀ start taken, Shown "md:(w-['c'] /* a */ m-2)".toList start taken →
      SparesCloser 15 start taken := by
    intro start taken shown
    exact shown.spares (by decide +kernel)
  have bare : ∀ node ∈ (Tree.read {} "md:(w-['c'] /* a */ m-2)" none).nodes, node.Bare := by
    decide +kernel
  have noLine : ¬['/', '/'] <:+: "md:(w-['c'] /* a */ m-2)".toList := by decide +kernel
  have legible : Legible {} "md:(w-['c'] /* a */ m-2)" 15 := by
    apply Legible.of_bare
    · intro c colon
      obtain rfl : c = ':' := List.mem_singleton.1 colon
      decide
    · exact fun node isNode _ _ _ => Or.inl (bare node isNode)
    · exact fun start taken skips _ =>
        Or.inl (closedBlock_of_skips noLine (by decide +kernel) skips)
  have comment : (atCursor {} "md:(w-['c'] /* a */ m-2)" 15).inComment = true := by decide +kernel
  exact ⟨boundary, spares, legible,
    ((inComment_iff_skips {} _ boundary spares).2.2 legible).1 comment⟩

/-- In a leaf the raw text may show a comment that is none. -/
theorem inComment_of_leaf :
    isBoundary "%//b".toList 3 = true ∧ (atCursor {} "%//b" 3).inComment = true ∧
      ¬∃ start taken, Tree.Skips {} "%//b" start taken ∧ Within 3 start taken := by
  refine ⟨by decide +kernel, by decide +kernel, ?_⟩
  rintro ⟨start, taken, skips, behind, within, _⟩
  have whole : (⟨0, "%//b"⟩ : Token) ∈ (Tree.read {} "%//b" none).pieces := by decide +kernel
  rcases skips.apart _ whole with before | after
  · have size : (⟨0, "%//b"⟩ : Token).stop = 4 := by decide +kernel
    omega
  · dsimp only at after
    omega

end ClassExpr.Completion
