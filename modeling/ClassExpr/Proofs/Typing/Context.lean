import ClassExpr.Proofs.Typing.Plain
import ClassExpr.Proofs.Typing.Sequence
import ClassExpr.Proofs.Variant.Prefix

set_option autoImplicit false

/-! The context that a cursor is told is the context of what is typed there. -/

namespace ClassExpr

open Text Completion Hover Printing

namespace Tree

variable {text : String} {position : Nat}

private theorem windows_subset_collect {offset stop : Nat} {cs : List Char} {items : List Node}
    {item : Node}
    (isItem : item ∈ items) :
    item.windows text ":" stop ⊆ (collect offset cs items).windows text ":" stop := by
  rcases collect_cases offset cs items with ⟨other, rfl⟩ | several
  · rw [List.mem_singleton.1 isItem]
    exact fun _ member => member
  · rw [several, Node.windows_declaration]
    intro window member
    exact List.mem_flatMap.2 ⟨item, isItem, member⟩

theorem Reads.kind_ne {interior : Interior} {offset : Nat} {cs : List Char} {nodes : List Node}
    (reads : Reads interior offset cs nodes) : ∀ node ∈ nodes, node.kind ≠ .declaration := by
  induction reads with
  | done => simp
  | blank _ _ ih => exact ih
  | comment _ _ ih => exact ih
  | node _ _ nodeAt _ ih =>
      intro other member
      rcases List.mem_cons.1 member with rfl | later
      · exact nodeAt.kind_ne
      · exact ih other later

/-- A sequence takes a class name that is typed in it in the context that a cursor has there. -/
theorem tracks_sequence (text : String) (position levels : Nat) :
    Tracks text position levels (sequence reading levels) := by
  induction levels with
  | zero =>
      constructor
      · intro positive
        exact absurd positive (Nat.lt_irrefl 0)
      · intro positive
        exact absurd positive (Nat.lt_irrefl 0)
      · intro offset left right tail scope site shallow
        exact absurd shallow (Nat.not_lt_zero _)
  | succ levels tracks =>
      have framed := framed_sequence reading levels
      have proper := allProper_sequence reading levels
      have whole := allProper_sequence reading (levels + 1)
      constructor
      · intro _ tail isTail scope
        obtain ⟨nodes, reads⟩ := exists_reads_name framed position isTail
        have allProper := whole position ('x' :: tail)
        rw [sequence, reads.items_eq framed []] at allProper ⊢
        rw [resolve_collect allProper]
        exact resolveFirst_name nodes scope
      · intro _ offset place tail isTail scope
        obtain ⟨leaf, begins, range, name⟩ := begins_marked (sequence reading levels) place isTail
        obtain ⟨nodes, reads⟩ := exists_reads_of_begins framed (by decide) begins
        have allProper := whole offset ('!' :: 'x' :: tail)
        rw [sequence, reads.items_eq framed []] at allProper ⊢
        rw [resolve_collect allProper]
        have found := name scope
        have contains : (Node.leaf leaf).range.contains position = true := by
          apply Classical.byContradiction
          intro outside
          rw [resolve_eq_none (by simpa using outside)] at found
          cases found
        exact (resolveFirst_cons _ nodes).trans ((if_pos contains).trans found)
      · intro offset left right tail scope site shallow
        obtain ⟨nodes, reads⟩ := exists_reads framed offset (left ++ right)
        have allProper := whole offset (left ++ right)
        have typedProper := whole offset (left ++ 'x' :: tail)
        rw [sequence, reads.items_eq framed [], List.reverse_nil, List.nil_append] at allProper ⊢
        intro node windows isOpen untouched
        rw [locate_collect allProper] at untouched
        have scene : Scene text position levels node.nodes windows
            ⟨offset, offset + byteLength (left ++ right), node.items⟩ offset left right tail scope
            nodes := by
          refine ⟨site, Nat.le_of_lt_succ shallow, List.mem_cons_self, ?_, ?_, rfl,
            Window.Visits.start, untouched⟩
          · intro other member
            refine ⟨fun inner => nodes_subset_collect member, fun window deeper => ?_⟩
            exact List.mem_cons_of_mem _ (windows_subset_collect member deeper)
          · rw [items_collect reads.kind_ne]
            exact List.Subset.refl nodes
        obtain ⟨typed, again, lands⟩ := continues tracks framed proper isOpen reads scene
        rw [sequence, again.items_eq framed [], List.reverse_nil, List.nil_append] at typedProper ⊢
        rw [locate_collect allProper]
        simp only [resolve_collect typedProper]
        apply lands.imp
        · rintro ⟨other, member, inner, deeper, surrounds⟩
          exact ⟨inner, nodes_subset_collect member deeper, surrounds⟩
        · exact fun steady _ => steady

private theorem shallow_left {left right : List Char} {levels : Nat}
    (shallow : (left ++ right).count '(' + (left ++ right).count ':' < levels) :
    weight [':'] left < levels := by
  rw [← weight_colon] at shallow
  exact Nat.lt_of_le_of_lt (weight_le_append [':'] left right) shallow

end Tree

namespace Completion

/-- A cursor that is not in a comment, where no body loses its further items, finds what it finds in
the tree of the whole text. -/
theorem atCursor_eq_locate {settings : Settings} {text : String} {position : Nat}
    (boundary : isBoundary text.toList position = true)
    (outside : (atCursor settings text position).inComment = false)
    (whole : ∀ node ∈ (Tree.read settings text none).nodes, ¬node.Shortened position) :
    let found := locate position {} (Tree.read settings text none)
    let context := atCursor settings text position
    context.target = found.target ∧ context.variants = found.variants ∧
      context.important = found.important := by
  have agrees := (Tree.pruned_read settings text position).agrees (Tree.allProper_read _ _ _)
    (Tree.allProper_read _ _ _) {}
  rcases agrees with ⟨_, same⟩ | ⟨⟨node, member, shortened⟩, _⟩
  · unfold atCursor at outside ⊢
    rw [floorBoundary_of_isBoundary boundary] at outside ⊢
    cases mode : modeAt text.toList position with
    | code => simp only [mode, same, and_self]
    | quoted mark => simp only [mode, same, and_self]
    | lineComment => simp [mode] at outside
    | blockComment => simp [mode] at outside
  · exact absurd shortened (whole node member)

/-- What is typed at an open cursor is found in the context that the cursor is told, and marked as
important as there if typing is steady. -/
theorem atPosition?_typeName (settings : Settings) (text : String) {position : Nat}
    (colon : settings.separator = ":") (boundary : isBoundary text.toList position = true)
    (shallow : text.toList.count '(' + text.toList.count ':' < settings.maxDepth)
    (untouched : (atCursor settings text position).target = none)
    (outside : (atCursor settings text position).inComment = false)
    (isOpen : let full := Tree.read settings text none
      Open text position full.nodes (full.allWindows text ":" 0 text.utf8ByteSize)) :
    let full := Tree.read settings text none
    let context := atCursor settings text position
    ∃ important, atPosition? settings (.ofList (typeName position text.toList)) position =
        some ⟨.ofChars position ['x'], .className, context.variants, important, none, none⟩ ∧
      (Steady text position full.nodes (full.allWindows text ":" 0 text.utf8ByteSize) →
        important = context.important) := by
  intro full context
  obtain ⟨targets, variants, importance⟩ := atCursor_eq_locate boundary outside isOpen.whole
  obtain ⟨left, right, whole, place⟩ := exists_split_of_isBoundary boundary
  have full_eq : full = Tree.sequence reading (settings.maxDepth + 1) 0 (left ++ right) := by
    rw [← whole]
    exact Tree.read_colon colon text
  have site : Tree.Site text position 0 left right (' ' :: right) := by
    refine ⟨by omega, ?_, Or.inr ⟨right, rfl⟩⟩
    rw [← whole]
    exact Occurs.refl text.toList
  have lower : Tree.weight [':'] left < settings.maxDepth + 1 := by
    rw [whole] at shallow
    exact Nat.lt_succ_of_lt (Tree.shallow_left shallow)
  have size : text.utf8ByteSize = 0 + byteLength (left ++ right) := by
    rw [Nat.zero_add, ← whole, byteLength_toList]
  have tracks := Tree.tracks_sequence text position (settings.maxDepth + 1)
  have lands := @Tree.Tracks.inside _ _ _ _ tracks 0 left right (' ' :: right) {} site lower
  dsimp only at lands
  rw [← full_eq, ← size] at lands
  obtain ⟨names, least, most, here, there, _, settled⟩ := lands isOpen (targets ▸ untouched)
  have typed : atPosition? settings (.ofList (typeName position text.toList)) position =
      some (.ofLeaf (Scope.within {} names most) (.typed position)) := by
    have longer : ¬(String.ofList (left ++ 'x' :: ' ' :: right)).utf8ByteSize ≤ position := by
      have nameSize : Char.utf8Size 'x' = 1 := rfl
      rw [utf8ByteSize_ofList, byteLength_append, byteLength_cons, place]
      omega
    have inserted : typeName position text.toList = left ++ 'x' :: ' ' :: right := by
      rw [whole, ← place, typeName_byteLength]
    rw [inserted, atPosition?, if_neg longer, resolve_read_limit, Tree.read_colon colon,
      String.toList_ofList]
    exact there {}
  refine ⟨most, ?_, ?_⟩
  · rw [typed, variants, here]
    simp [Hover.ofLeaf, Leaf.typed, Leaf.target, Leaf.kind, Leaf.important, Leaf.prop?, Leaf.content?,
      Scope.within, ofScope]
  · intro steady
    rw [importance, here, settled ⟨rfl, steady⟩]
    simp [Scope.within, ofScope]

/-- Not every cursor that touches nothing is open or steady: behind a marker the name takes the
marker. -/
theorem not_atPosition?_typeName :
    ¬∀ (text : String) (position : Nat), isBoundary text.toList position = true →
      text.toList.count '(' + text.toList.count ':' < ({} : Settings).maxDepth →
      let context := atCursor {} text position
      context.target = none → context.inComment = false → context.inString = false →
        ∃ hover, atPosition? {} (.ofList (typeName position text.toList)) position = some hover ∧
          hover.target = .ofChars position ['x'] ∧ hover.kind = .className ∧
          hover.variants.map (·.text) = context.variants.map (·.text) ∧
          hover.important = context.important := by
  intro all
  have context : atCursor {} "!(a)" 1 = {} := by decide +kernel
  have found : atPosition? {} (.ofList (typeName 1 "!(a)".toList)) 1 =
      some ⟨⟨1, "x"⟩, .className, [], true, none, none⟩ := by decide +kernel
  obtain ⟨hover, name, _, _, _, importance⟩ := all "!(a)" 1 (by decide) (by decide)
    (by rw [context]) (by rw [context]) (by rw [context])
  rw [found, Option.some.injEq] at name
  rw [← name, context] at importance
  cases importance

def grouped : Node :=
  .variantSpan ⟨0, "a:!(b )"⟩ (.named ⟨⟨0, "a:"⟩, ⟨0, "a"⟩, ⟨1, ":"⟩⟩)
    (some (.group ⟨2, "!(b )"⟩ (.leaf (.className ⟨4, "b"⟩ ⟨4, "b"⟩ false)) true true))

private theorem windows_grouped : grouped.allWindows "a:!(b )" ":" 0 7 =
    [⟨0, 7, [grouped]⟩, ⟨4, 6, [.leaf (.className ⟨4, "b"⟩ ⟨4, "b"⟩ false)]⟩] :=
  rfl

private theorem read_grouped : Tree.read {} "a:!(b )" none = grouped :=
  rfl

private theorem open_grouped :
    Open "a:!(b )" 6 grouped.nodes (grouped.allWindows "a:!(b )" ":" 0 7) := by
  have isOpen := @Tree.open_of_text {} "a:!(b )" 6 rfl (by decide) (by decide) (by decide)
    (by decide)
  rw [read_grouped] at isOpen
  apply isOpen
  intro window known range variant child member early
  change window ∈ grouped.allWindows "a:!(b )" ":" 0 7 at known
  simp [windows_grouped] at known
  rcases known with rfl | rfl
  · simp [grouped] at member
    obtain ⟨rfl, _⟩ := member
    exact absurd early (by decide)
  · simp at member

private theorem steady_grouped :
    Steady "a:!(b )" 6 grouped.nodes (grouped.allWindows "a:!(b )" ":" 0 7) := by
  have unquoted : "a:!(b )".toList.all (fun c => !Bracket.isQuote c) = true := by decide
  have overt : Overt "a:!(b )".toList :=
    ⟨by decide +kernel, fun _ => by simpa using List.all_eq_true.1 unquoted⟩
  have steady := @Tree.steady_of_text {} "a:!(b )" 6 rfl (by decide) overt (by decide) (by decide)
  rw [read_grouped] at steady
  exact steady

theorem atPosition?_typeName_grouped :
    isBoundary "a:!(b )".toList 6 = true ∧
      "a:!(b )".toList.count '(' + "a:!(b )".toList.count ':' < ({} : Settings).maxDepth ∧
      Tree.read {} "a:!(b )" none = grouped ∧
      atCursor {} "a:!(b )" 6 = { variants := [⟨0, "a"⟩], important := true } ∧
      atPosition? {} "a:!(b x )" 6 = some ⟨⟨6, "x"⟩, .className, [⟨0, "a"⟩], true, none, none⟩ := by
  have boundary : isBoundary "a:!(b )".toList 6 = true := by decide
  have shallow : "a:!(b )".toList.count '(' + "a:!(b )".toList.count ':' <
      ({} : Settings).maxDepth := by decide
  have context : atCursor {} "a:!(b )" 6 = { variants := [⟨0, "a"⟩], important := true } := by
    decide +kernel
  obtain ⟨important, found, same⟩ := atPosition?_typeName {} "a:!(b )" rfl boundary shallow
    (by rw [context]) (by rw [context]) open_grouped
  have importance := same steady_grouped
  rw [context] at found importance
  subst importance
  exact ⟨boundary, shallow, rfl, context, found⟩

end Completion

end ClassExpr
