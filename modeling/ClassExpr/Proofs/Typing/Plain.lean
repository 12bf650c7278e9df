import ClassExpr.Proofs.Tree.Place
import ClassExpr.Proofs.Typing.Grouped

set_option autoImplicit false

/-! Open and steady cursors, told from the text. Where only groups are bracketed a cursor is open
unless it is right behind one, and steady unless it is behind the marker of one. -/

namespace ClassExpr

open Text

section

variable {text : String} {position : Nat} {window : Window} {range : Token} {variant : Variant}
  {child : Node}

/-- A body goes on at a position exactly if the span of its variant does, unless a group with its
marker is right in front of the position. -/
theorem Tree.ReadIn.takes_iff
    (readIn : ReadIn ⟨[':'], none⟩ text window (.variantSpan range variant (some child)))
    (single : child.kind ≠ .group) (boundary : isBoundary text.toList position = true)
    (grouped : Grouped text.toList)
    (closes : range.stop < position → Closes child.range.text.toList)
    (marked : ¬[')', '!'] <:+ (splitBytes position text.toList).1)
    (behind : variant.range.stop ≤ position) (within : position ≤ window.stop) :
    Body.Takes text variant.range.stop position ↔ position ≤ range.stop := by
  obtain ⟨body, tail, rest, windows, stops, covers, occurs, ends, delimited, passed⟩ :=
    @ReadIn.exists_body text ":" _ _ _ _ readIn single
  have goes : (sweep (Body.move Printing.rule) .plain [] (body ++ tail ++ rest)).rest = rest :=
    congrArg Prod.snd delimited
  have inTail := grouped.part occurs.left.right.isInfix
  obtain ⟨run, more, whole, place⟩ := occurs.exists_split boundary behind (ends ▸ within)
  rw [whole] at occurs goes
  rw [Body.Takes, ← place, occurs.left.between_eq]
  change (sweep (Body.move Printing.rule) .plain [] (run ++ ['x'])).rest = [] ↔ _
  rw [List.append_assoc, List.append_eq_append_iff] at whole
  -- the position is in what the variant applies to, or it is behind that
  by_cases early : position ≤ range.stop
  · refine iff_of_true ?_ (place ▸ early)
    have short : rest.length ≤ more.length := by
      rcases whole with ⟨further, rfl, parts⟩ | ⟨further, rfl, rfl⟩
      · cases further with
        | nil =>
            rw [List.nil_append] at parts
            rw [← parts, List.length_append]
            omega
        | cons c further =>
            have positive := c.utf8Size_pos
            rw [byteLength_append, byteLength_cons] at place
            omega
      · simp
        omega
    rw [← place] at marked
    exact Body.takes_of_passes (grouped.part occurs.left.isInfix)
      (fun ending => marked (ending.trans occurs.suffix_splitBytes)) (goes.symm ▸ short)
  · refine iff_of_false ?_ (place ▸ early)
    rcases whole with ⟨further, rfl, parts⟩ | ⟨further, rfl, _⟩
    · have nonempty : further ≠ [] := by
        rintro rfl
        rw [List.append_nil] at place
        omega
      have closed : Closes body := by simpa [covers] using closes (Nat.lt_of_not_le early)
      have white : ∀ c ∈ tail, isAsciiBlank c = true := fun c member =>
        inTail.narrow c member (passed.forall_blank inTail.slash c member)
      exact Body.not_takes_behind (grouped.part occurs.left.isInfix) closed white parts nonempty
        (by rw [← List.append_assoc]; exact goes)
    · rw [byteLength_append] at stops
      omega

end

namespace Tree

variable {settings : Settings} {text : String} {position : Nat}

private theorem occurs_of_mem_nodes {node : Node}
    (member : node ∈ (read settings text none).nodes) :
    Occurs text.toList node.range.start node.range.text.toList :=
  (((allProper_read settings text none).inside node member).trans
    (read_partOf settings text none)).occurs

private theorem isRead_of_mem_nodes {node : Node} (member : node ∈ (read settings text none).nodes)
    (single : node.kind ≠ .declaration) : IsRead ⟨settings.separator.toList, none⟩ node := by
  have allRead := allRead_sequence ⟨settings.separator.toList, none⟩ (settings.maxDepth + 1) 0
    text.toList
  rw [← read_eq] at allRead
  exact allRead node member single

private theorem suffix_of_closer {reading : Reading} {inner : Token} {child : Node}
    {important : Bool}
    (isRead : IsRead reading (.group inner child true important))
    (occurs : Occurs text.toList inner.start inner.text.toList)
    (behind : (Node.closer inner).start < position) (within : position ≤ inner.stop) :
    [')'] <:+ (splitBytes position text.toList).1 ∨
      [')', '!'] <:+ (splitBytes position text.toList).1 := by
  obtain ⟨levels, offset, taken, rest, nodeAt⟩ := isRead
  have closerSize : Char.utf8Size ')' = 1 := rfl
  have markerSize : Char.utf8Size '!' = 1 := rfl
  generalize node : Node.group inner child true important = group at nodeAt
  cases nodeAt with
  | leaf _ => cases node
  | span _ spanAt => cases spanAt <;> cases node
  | openVariant _ => cases node
  | group groupAt =>
      cases groupAt with
      | opened _ _ => cases node
      | @closed lead inside trail _ marked trailing _ =>
          cases node
          rw [closer_eq offset _ trailing.cases, Token.start_ofChars] at behind
          rw [Token.stop_ofChars] at within
          rw [Token.start_ofChars, Token.toList_ofChars] at occurs
          generalize lead ++ '(' :: inside = front at behind within occurs
          rw [List.append_cons] at occurs
          have first := occurs.suffix_splitBytes
          by_cases last : position = offset + byteLength (front ++ [')'])
          · rw [last]
            exact Or.inl ((List.suffix_append front [')']).trans first)
          · right
            rcases trailing.cases with rfl | rfl
            · simp at within last
              omega
            · have all : position = offset + byteLength (front ++ [')'] ++ ['!']) := by
                simp at within last ⊢
                omega
              rw [← List.append_nil (front ++ [')'] ++ ['!'])] at occurs
              rw [all]
              have ending : [')', '!'] <:+ front ++ [')'] ++ ['!'] := by simp
              exact ending.trans occurs.suffix_splitBytes

/-- With only groups in the text, a position is open if it is not behind the end of a group, and the
bodies that end in front of it close their groups. -/
theorem open_of_text (colon : settings.separator = ":") (grouped : Grouped text.toList)
    (boundary : isBoundary text.toList position = true)
    (closer : ¬[')'] <:+ (splitBytes position text.toList).1)
    (marked : ¬[')', '!'] <:+ (splitBytes position text.toList).1)
    (closes : ∀ window ∈ (read settings text none).allWindows text ":" 0 text.utf8ByteSize,
      ∀ range variant child, .variantSpan range variant (some child) ∈ window.items →
        range.stop < position → Closes child.range.text.toList) :
    Open text position (read settings text none).nodes
      ((read settings text none).allWindows text ":" 0 text.utf8ByteSize) := by
  constructor
  · intro range variant member opened
    obtain ⟨_, _, _, _, bracket⟩ := unclosed_of_isRead (isRead_of_mem_nodes member nofun) opened
    have known := occurs_of_mem_nodes member
    exact absurd (known.isInfix.subset (List.mem_of_mem_head? bracket)) grouped.square
  · intro range variant inner child important member ⟨behind, within⟩
    have isGroup := Node.mem_nodes_of_children member (List.mem_singleton.2 rfl)
    have isRead := isRead_of_mem_nodes isGroup nofun
    have occurs := occurs_of_mem_nodes isGroup
    rcases suffix_of_closer isRead occurs behind within with ending | ending
    · exact closer ending
    · exact marked ending
  · intro window known range variant child isItem single behind within
    have readIn := allReadIn_read settings text
    rw [colon] at readIn
    exact ReadIn.takes_iff (readIn window known _ isItem nofun) single boundary grouped
      (closes window known range variant child isItem) marked behind within
  · intro node member shortened
    obtain ⟨_, _, range, first, second, rest, rfl, _, _, front, behind, whole, _, fades⟩ :=
      shortened.cases
    have isSequence := Node.mem_nodes_of_children member (List.mem_singleton.2 rfl)
    apply grouped.slash
    apply (occurs_of_mem_nodes isSequence).isInfix.subset
    rw [Node.range, whole]
    exact List.mem_append_right front fades.slash_mem
  · rintro window _ offset taken _ ⟨rest, occurs, _, spans⟩ _
    apply grouped.slash
    exact occurs.isInfix.subset (List.mem_append_left rest (List.mem_of_mem_head? spans.head?))

/-- The interior of a group ends where its parentheses say. -/
theorem behindGroup_of_isRead {reading : Reading} {range : Token} {child : Node}
    {closed important : Bool} (isRead : IsRead reading (.group range child closed important))
    (overt : Overt range.text.toList) :
    ∃ lead inside back, (lead = [] ∨ lead = ['!']) ∧
      range.text.toList = lead ++ '(' :: (inside ++ back) ∧
      Bracket.behindGroup 1 (inside ++ back) = back ∧
      (if closed then (Node.closer range).start else range.stop) =
        range.start + byteLength (lead ++ '(' :: inside) := by
  obtain ⟨levels, offset, taken, rest, nodeAt⟩ := isRead
  generalize node : Node.group range child closed important = group at nodeAt
  cases nodeAt with
  | leaf _ => cases node
  | span _ spanAt => cases spanAt <;> cases node
  | openVariant _ => cases node
  | group groupAt =>
      cases groupAt with
      | @opened lead inside marked unmatched =>
          cases node
          rw [Token.toList_ofChars] at overt
          have counted := Bracket.map_split?_parens (overt.part ⟨lead, [], List.append_nil _⟩)
          rw [unmatched, Option.map_none] at counted
          refine ⟨lead, inside, [], marked.cases, by simp, ?_, by simp⟩
          rw [List.append_nil]
          apply Classical.byContradiction
          intro some
          rw [if_neg some] at counted
          cases counted
      | @closed lead inside trail _ marked trailing matched =>
          cases node
          rw [Token.toList_ofChars, List.append_assoc, List.cons_append] at overt
          have counted := Bracket.map_split?_parens (overt.part ⟨lead, [], List.append_nil _⟩)
          rw [← List.cons_append, Bracket.split?_parens_ahead matched trail,
            Option.map_some] at counted
          refine ⟨lead, inside, ')' :: trail, marked.cases, by simp, ?_, ?_⟩
          · split at counted
            · cases counted
            · exact (Option.some.inj counted).symm
          · rw [if_pos rfl, closer_eq offset _ trailing.cases]
            simp

private theorem ne_of_unmarked {reading : Reading} {range : Token} {child : Node}
    {closed important : Bool}
    (isRead : IsRead reading (.group range child closed important))
    (occurs : Occurs text.toList range.start range.text.toList) (overt : Overt text.toList)
    (unmarked : between (position - 1) (position + 1) text.toList ≠ ['!', '('])
    (marked : range.text.toList.head? = some '!') : position ≠ range.start + 1 := by
  rintro rfl
  obtain ⟨lead, inside, back, leading, whole, _⟩ :=
    behindGroup_of_isRead isRead (overt.part occurs.isInfix)
  rcases leading with rfl | rfl
  · rw [whole] at marked
    cases marked
  · rw [whole, List.singleton_append, ← List.singleton_append, List.append_cons] at occurs
    exact unmarked occurs.left.between_eq

/-- A position in a group, but not between its marker and its parenthesis, splits its interior, and
the group ends behind the position. -/
theorem exists_interior_split {reading : Reading} {range : Token} {child : Node}
    {closed important : Bool} (isRead : IsRead reading (.group range child closed important))
    (occurs : Occurs text.toList range.start range.text.toList) (overt : Overt text.toList)
    (boundary : isBoundary text.toList position = true)
    (surrounds : (Node.group range child closed important).Surrounds position)
    (unmarked : between (position - 1) (position + 1) text.toList ≠ ['!', '(']) :
    ∃ lead left right, (lead = [] ∨ lead = ['!']) ∧
      range.text.toList = lead ++ '(' :: (left ++ right) ∧
      position = range.start + byteLength (lead ++ '(' :: left) ∧
      Bracket.behindGroup 1 (left ++ right) <:+ right := by
  obtain ⟨lead, inside, back, leading, whole, behind, stops⟩ :=
    behindGroup_of_isRead isRead (overt.part occurs.isInfix)
  obtain ⟨after, before⟩ := surrounds
  rw [stops] at before
  have openerSize : Char.utf8Size '(' = 1 := rfl
  have markerSize : Char.utf8Size '!' = 1 := rfl
  have opened : range.start + byteLength (lead ++ ['(']) ≤ position := by
    rcases leading with rfl | rfl
    · simp
      omega
    · have notThere := ne_of_unmarked isRead occurs overt unmarked (by rw [whole]; rfl)
      simp
      omega
  rw [whole, List.append_cons, ← List.append_assoc] at occurs
  obtain ⟨left, right, rfl, place⟩ := occurs.left.right.exists_split boundary opened
    (by simp at before ⊢; omega)
  refine ⟨lead, left, right ++ back, leading, by simpa using whole, ?_, ?_⟩
  · simp at place ⊢
    omega
  · rw [← List.append_assoc, behind]
    exact List.suffix_append right back

private theorem map_split?_typed {reading : Reading} {range : Token} {child : Node}
    {closed important : Bool} (isRead : IsRead reading (.group range child closed important))
    (occurs : Occurs text.toList range.start range.text.toList) (overt : Overt text.toList)
    (boundary : isBoundary text.toList position = true)
    (surrounds : (Node.group range child closed important).Surrounds position)
    (unmarked : between (position - 1) (position + 1) text.toList ≠ ['!', '(']) :
    let lead := marker range.text.toList
    let opened := range.text.toList.drop lead.length
    (Bracket.split? .parens []
        (typeName (position - (range.start + byteLength lead)) opened)).map (·.2) =
      (Bracket.split? .parens [] opened).map (·.2) := by
  obtain ⟨lead, left, right, leading, whole, place, ahead⟩ :=
    exists_interior_split isRead occurs overt boundary surrounds unmarked
  have marks : marker range.text.toList = lead := by
    rw [whole]
    rcases leading with rfl | rfl <;> rfl
  have behind : position - (range.start + byteLength lead) = byteLength ('(' :: left) := by
    rw [place, byteLength_append]
    omega
  have inGroup : Overt ('(' :: (left ++ right)) :=
    (overt.part occurs.isInfix).part ⟨lead, [], by rw [List.append_nil]; exact whole.symm⟩
  have typed : Overt ('(' :: (left ++ 'x' :: ' ' :: right)) :=
    @Overt.typed ('(' :: left) right inGroup
  simp only [marks, behind]
  rw [whole, List.drop_left, ← List.cons_append, typeName_byteLength, List.cons_append,
    Bracket.map_split?_parens typed, List.cons_append, Bracket.map_split?_parens inGroup,
    Bracket.behindGroup_typed ahead]

theorem ReadIn.rest_typed {window : Window} {range : Token} {variant : Variant} {child : Node}
    (readIn : ReadIn ⟨[':'], none⟩ text window (.variantSpan range variant (some child)))
    (single : child.kind ≠ .group) (around : child.Around position) (grouped : Grouped text.toList)
    (overt : Overt text.toList) (boundary : isBoundary text.toList position = true)
    (unmarked : between (position - 1) (position + 1) text.toList ≠ ['!', '(']) :
    let behind := between variant.range.stop window.stop text.toList
    (Body.split [':'] (typeName (position - variant.range.stop) behind)).2 =
      (Body.split [':'] behind).2 := by
  obtain ⟨body, tail, rest, windows, stops, covers, occurs, ends, delimited, _⟩ :=
    @ReadIn.exists_body text ":" _ _ _ _ readIn single
  obtain ⟨inner, isInner, surrounds⟩ := around
  cases inner with
  | declaration _ _ => exact absurd surrounds id
  | variantSpan _ _ _ => exact absurd surrounds id
  | leaf _ => exact absurd surrounds id
  | group inner inside closed important =>
      have isChild : child ∈ (Node.variantSpan range variant (some child)).children :=
        List.mem_singleton.2 rfl
      have isRead := readIn.isRead.allRead _
        ((Node.mem_nodes_iff _ _).2 (Or.inr ⟨child, isChild, isInner⟩)) nofun
      have part := (readIn.isRead.allProper.child isChild).inside _ isInner
      rw [covers] at part
      obtain ⟨shift, start, within⟩ := part
      rw [Token.toList_ofChars] at within
      rw [Token.start_ofChars] at start
      have stands := occurs.left.left.trans within
      rw [← start] at stands
      obtain ⟨lead, left, right, leading, whole, place, ahead⟩ :=
        exists_interior_split isRead stands overt boundary surrounds unmarked
      obtain ⟨before, after, parts, rfl⟩ := within
      rw [Node.range, whole] at parts
      have split : body ++ tail ++ rest =
          before ++ lead ++ '(' :: left ++ (right ++ after ++ tail ++ rest) := by
        simp [parts]
      have cut : position - variant.range.stop = byteLength (before ++ lead ++ '(' :: left) := by
        rw [Node.range] at start
        rw [place, start, List.append_assoc before, byteLength_append before]
        omega
      have goes := congrArg Prod.snd delimited
      rw [split] at goes occurs
      have ended : (sweep (Body.move Printing.rule) .plain [] (before ++ lead ++ '(' :: left ++
          (right ++ after ++ tail ++ rest))).rest = rest := goes
      rw [← ends, split, occurs.between_eq, cut]
      dsimp only
      rw [typeName_byteLength]
      apply Body.rest_typed (grouped.part occurs.left.isInfix) ahead
      rw [ended]
      simp
      omega

/-- Where nothing is hidden from a body, a position is steady unless it is between a marker and its
parenthesis. -/
theorem steady_of_text (colon : settings.separator = ":") (grouped : Grouped text.toList)
    (overt : Overt text.toList) (boundary : isBoundary text.toList position = true)
    (unmarked : between (position - 1) (position + 1) text.toList ≠ ['!', '(']) :
    Steady text position (read settings text none).nodes
      ((read settings text none).allWindows text ":" 0 text.utf8ByteSize) := by
  constructor
  · intro range child closed important member
    have isRead := isRead_of_mem_nodes member nofun
    have occurs := occurs_of_mem_nodes member
    exact ne_of_unmarked isRead occurs overt unmarked
  · intro range child closed important member surrounds
    have isRead := isRead_of_mem_nodes member nofun
    have occurs := occurs_of_mem_nodes member
    exact map_split?_typed isRead occurs overt boundary surrounds unmarked
  · intro window known range variant child isItem single around
    have readIn := allReadIn_read settings text
    rw [colon] at readIn
    exact ReadIn.rest_typed (readIn window known _ isItem nofun) single around grouped overt
      boundary unmarked

end Tree

end ClassExpr
