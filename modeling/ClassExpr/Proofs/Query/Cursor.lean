import ClassExpr.Completion
import ClassExpr.Proofs.Query.Reach

set_option autoImplicit false

/-! A cursor at a node that flattening reaches is looked for in that node, and at a leaf it
completes that leaf. A cursor belongs to the token that ends at it, so it lies behind the start of
every node on the way, and behind the variants and the opening parentheses that stand on the way. -/

namespace ClassExpr

open Text

theorem Text.Occurs.exists_split {text cs : List Char} {start position : Nat}
    (occurs : Occurs text start cs) (boundary : isBoundary text position = true)
    (atLeast : start ≤ position) (within : position ≤ start + byteLength cs) :
    ∃ left right, cs = left ++ right ∧ start + byteLength left = position := by
  obtain ⟨found, size⟩ := occurs_between atLeast occurs.start_isBoundary boundary
  generalize between start position text = left at found size
  obtain ⟨before, after, whole, place⟩ := occurs
  obtain ⟨front, back, parts, same⟩ := found
  rw [List.append_assoc] at whole parts
  have shared := splitBytes_byteLength front (left ++ back)
  rw [same, ← place, ← parts, whole, splitBytes_byteLength, Prod.mk.injEq] at shared
  rcases List.append_eq_append_iff.1 shared.2 with ⟨more, longer, _⟩ | ⟨right, split, _⟩
  · cases more with
    | nil => exact ⟨left, [], by simpa using longer.symm, size⟩
    | cons c more =>
        have positive := c.utf8Size_pos
        rw [longer, byteLength_append, byteLength_cons] at size
        omega
  · exact ⟨left, right, split, size⟩

namespace Token

theorem touches_iff (token : Token) (position : Nat) :
    token.touches position = true ↔ token.start < position ∧ position ≤ token.stop := by
  simp [touches]

theorem not_touches_iff (token : Token) (position : Nat) :
    token.touches position = false ↔ (token.start < position → token.stop < position) := by
  rw [← Bool.not_eq_true, touches_iff]
  omega

theorem PartOf.touches {inner outer : Token} {position : Nat} (part : inner.PartOf outer)
    (inside : inner.touches position = true) : outer.touches position = true := by
  rw [touches_iff] at inside ⊢
  exact ⟨Nat.lt_of_le_of_lt part.start_le inside.1, Nat.le_trans inside.2 part.stop_le⟩

theorem ofSource?_upTo {source : String} {token : Token} {position : Nat}
    (part : token.PartOf (.ofChars 0 source.toList))
    (boundary : isBoundary source.toList position = true) (start : token.start ≤ position)
    (stop : position ≤ token.stop) :
    ofSource? source token.start position = some (token.upTo position) := by
  have occurs := part.occurs
  rw [stop_eq] at stop
  obtain ⟨left, right, split, size⟩ := occurs.exists_split boundary start stop
  have front : Occurs token.text.toList 0 left := ⟨[], right, by simpa using split, rfl⟩
  have first : max token.start (min token.start token.stop) - token.start = 0 := by omega
  have last : max (0 + token.start) (min position token.stop) - token.start =
      0 + byteLength left := by
    rw [stop_eq]
    omega
  have zero : floorBoundary token.text.toList 0 = 0 := floorBoundary_byteLength [] _
  rw [split] at occurs
  rw [← size, ofSource?_eq occurs.left, size, upTo, slice]
  simp only [first, last, zero, front.between_eq, Nat.add_zero]

end Token

namespace Completion

variable {position : Nat} {scope inner : Scope} {node target : Node} {leaf : Leaf}

theorem locateFirst_cons (node : Node) (rest : List Node) :
    locateFirst position scope (node :: rest) =
      if node.range.touches position then locate position scope node
      else locateFirst position scope rest := by
  rw [locateFirst]

private theorem locateFirst_of_mem {nodes : List Node} (member : node ∈ nodes)
    (ordered : nodes.Pairwise (fun left right => left.range.stop ≤ right.range.start))
    (inside : node.range.touches position = true) :
    locateFirst position scope nodes = locate position scope node := by
  induction nodes with
  | nil => cases member
  | cons first rest ih =>
      rw [List.pairwise_cons] at ordered
      rw [locateFirst_cons]
      rcases List.mem_cons.1 member with rfl | later
      · rw [if_pos inside]
      · have outside : first.range.touches position = false := by
          have apart := ordered.1 node later
          rw [Token.touches_iff] at inside
          rw [Token.not_touches_iff]
          omega
        rw [outside]
        exact ih later ordered.2

theorem isInside_of_touches {range : Token} {child : Node} {closed important : Bool}
    (proper : Node.ProperGroup range child closed important)
    (inside : child.range.touches position = true) : isInside range closed position = true := by
  obtain ⟨lead, content, trail, leading, trailing, text, within⟩ := proper.delimited
  have start := within.start_le
  have stop := within.stop_le
  have rangeStop := range.stop_eq
  rw [Token.touches_iff] at inside
  rw [Token.start_ofChars] at start
  rw [Token.stop_ofChars] at stop
  rw [text, byteLength_append, byteLength_append, byteLength_cons] at rangeStop
  have openerSize : Char.utf8Size '(' = 1 := rfl
  have closerSize : Char.utf8Size ')' = 1 := rfl
  have marker : Char.utf8Size '!' = 1 := rfl
  have opener : (range.text.toList.head? == some '!').toNat = byteLength lead := by
    rw [text]
    rcases leading with rfl | rfl <;> rfl
  unfold isInside
  simp only [opener]
  cases closed with
  | false =>
      simp
      omega
  | true =>
      have closer : (if [')', '!'].isSuffixOf range.text.toList = true then 2 else 1) =
          1 + byteLength trail := by
        rw [text]
        rcases trailing with rfl | rfl
        · rw [if_neg]
          · rfl
          · rw [List.isSuffixOf_iff_suffix]
            rintro ⟨before, same⟩
            have lasts := congrArg (fun cs => cs.reverse.head?) same
            simp at lasts
        · rw [if_pos]
          · rfl
          · rw [List.isSuffixOf_iff_suffix]
            exact ⟨lead ++ '(' :: content, by simp⟩
      rw [closer]
      rw [if_pos rfl, byteLength_cons] at rangeStop
      simp
      omega

/-- A cursor that touches a node that flattening reaches is looked for in that node. -/
theorem locate_reached (reaches : Reaches scope node inner target) (proper : node.AllProper)
    (inside : target.range.touches position = true) :
    locate position scope node = locate position inner target := by
  -- The cursor touches every node on the way, and each time the branch of the child is the one taken.
  have within := (reaches.inside proper).touches inside
  induction reaches with
  | here => rfl
  | @item scope inner range children child target member below ih =>
      have shape : Node.ProperItems range children := (proper _ (Node.mem_nodes_self _)).1
      have deeper : child.AllProper := proper.child (by exact member)
      have attached := (below.inside deeper).touches inside
      rw [locate, locateFirst_of_mem member shape.ordered attached]
      exact ih deeper inside attached
  | @span scope inner range variant child target below ih =>
      have shape : Node.ProperSpan range variant (some child) := (proper _ (Node.mem_nodes_self _)).1
      have deeper : child.AllProper := proper.child (by simp [Node.children])
      have attached := (below.inside deeper).touches inside
      have start := shape.attached child rfl
      have behind := ((Token.touches_iff _ _).1 attached).1
      have variantStop := variant.range.stop_eq
      rw [locate, if_neg, if_neg (by omega)]
      · simp only [attached, Bool.and_true]
        rw [if_pos (by simp; omega)]
        exact ih deeper inside attached
      · rw [show range.touches position = true from within]
        simp
        omega
  | @group scope inner range child target important below ih =>
      have shape : Node.ProperGroup range child true important := (proper _ (Node.mem_nodes_self _)).1
      have deeper : child.AllProper := proper.child (by simp [Node.children])
      have attached := (below.inside deeper).touches inside
      rw [locate, show range.touches position = true from within,
        isInside_of_touches shape attached]
      simp only [attached, Bool.not_true, Bool.or_self, Bool.false_eq_true, if_false, if_true]
      exact ih deeper inside attached

/-- A cursor in a leaf that flattening reaches completes that leaf in its scope. -/
theorem locate_of_reaches (reaches : Reaches scope node inner (.leaf leaf)) (proper : node.AllProper)
    (inside : leaf.range.touches position = true) :
    locate position scope node = ofLeaf position inner leaf := by
  rw [locate_reached reaches proper inside, locate, if_pos inside]

/-- Outside of comments what a cursor touches is looked for in the tree read up to it. -/
theorem atCursor_eq {settings : Settings} {text : String}
    (boundary : isBoundary text.toList position = true)
    (outside : (atCursor settings text position).inComment = false) :
    ∃ inString, atCursor settings text position =
      { locate position {} (Tree.read settings text (some position)) with inString } := by
  unfold atCursor at outside ⊢
  rw [floorBoundary_of_isBoundary boundary] at outside ⊢
  cases mode : modeAt text.toList position with
  | code =>
      refine ⟨(locate position {} (Tree.read settings text (some position))).inString, ?_⟩
      simp only [mode]
  | quoted mark => exact ⟨true, by simp only [mode]⟩
  | lineComment => simp [mode] at outside
  | blockComment => simp [mode] at outside

/-- A cursor inside the target of an item, or right behind it, completes that item. -/
theorem atCursor_item (settings : Settings) (text : String) {item : Item} {position : Nat}
    (member : item ∈ (Spread.ofText settings text).items)
    (boundary : isBoundary text.toList position = true) (start : item.target.start < position)
    (stop : position ≤ item.target.stop)
    (outside : (atCursor settings text position).inComment = false) :
    ∃ word inString, Token.ofSource? text item.target.start position = some word ∧
      atCursor settings text position =
        { target := some item.target, word := some word, kind := some item.kind,
          variants := item.variants, important := item.important, inComment := false, inString,
          prop := item.prop, value := item.content } := by
  obtain ⟨scope, leaf, reaches, describes⟩ := Spread.reaches member
  have proper := Tree.allProper_read settings text none
  have cutProper := Tree.allProper_read settings text (some position)
  have target := reaches.target_partOf proper
  have touched : leaf.range.touches position = true := by
    refine target.touches ?_
    rw [describes.target, Token.touches_iff]
    exact ⟨start, stop⟩
  have source : item.target.PartOf (.ofChars 0 text.toList) := by
    rw [← describes.target]
    exact (target.trans (reaches.partOf proper)).trans (Tree.read_partOf settings text none)
  have before : leaf.range.start ≤ position :=
    Nat.le_of_lt ((Token.touches_iff _ _).1 touched).1
  have kept := reaches.pruned (Tree.pruned_read settings text position) proper before
  obtain ⟨inString, answer⟩ := atCursor_eq boundary outside
  refine ⟨item.target.upTo position, inString,
    Token.ofSource?_upTo source boundary (Nat.le_of_lt start) stop, ?_⟩
  rw [answer, locate_of_reaches kept cutProper touched, ofLeaf, describes.target, describes.kind,
    describes.variants, describes.important, describes.prop, describes.content]

/-- In the bracket of a style in a marked group behind a variant. -/
theorem atCursor_item_nested :
    ⟨⟨9, "w-[a]"⟩, .arbitraryStyle, [⟨0, "md"⟩], true, some ⟨9, "w-"⟩, some ⟨12, "a"⟩, none⟩ ∈
        (Spread.ofText {} "md:(é-1 w-[a])!").items ∧
      isBoundary "md:(é-1 w-[a])!".toList 11 = true ∧ (⟨9, "w-[a]"⟩ : Token).start < 11 ∧
      11 ≤ (⟨9, "w-[a]"⟩ : Token).stop ∧ (atCursor {} "md:(é-1 w-[a])!" 11).inComment = false ∧
      ∃ word inString, Token.ofSource? "md:(é-1 w-[a])!" 9 11 = some word ∧
        atCursor {} "md:(é-1 w-[a])!" 11 =
          { target := some ⟨9, "w-[a]"⟩, word := some word, kind := some .arbitraryStyle,
            variants := [⟨0, "md"⟩], important := true, inComment := false, inString,
            prop := some ⟨9, "w-"⟩, value := some ⟨12, "a"⟩ } :=
  have member : ⟨⟨9, "w-[a]"⟩, .arbitraryStyle, [⟨0, "md"⟩], true, some ⟨9, "w-"⟩, some ⟨12, "a"⟩,
      none⟩ ∈ (Spread.ofText {} "md:(é-1 w-[a])!").items := by decide +kernel
  have boundary : isBoundary "md:(é-1 w-[a])!".toList 11 = true := by decide +kernel
  have outside : (atCursor {} "md:(é-1 w-[a])!" 11).inComment = false := by decide +kernel
  ⟨member, boundary, by decide, by decide, outside,
    atCursor_item {} _ member boundary (by decide) (by decide) outside⟩

end Completion

end ClassExpr
