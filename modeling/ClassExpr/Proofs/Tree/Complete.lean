import ClassExpr.Proofs.Tree.Layout
import ClassExpr.Proofs.Tree.Proper

set_option autoImplicit false

/-! Reading loses nothing. A window is tiled by the pieces of the tree that is read from it, with
white space and comments in between; a step tiles the text it takes if interiors are tiled, so every
window is tiled at every level. The text behind a body that ends early is read again in the window
around it. -/

namespace ClassExpr.Tree

open Text

variable {reading : Reading} {interior : Interior} {text separator : String}

/-- A node lies over a part of its window, with white space and comments on both sides. -/
def LaidOver (text separator : String) (offset : Nat) (cs : List Char) (node : Node) : Prop :=
  let windows := node.allWindows text separator offset (offset + byteLength cs)
  ∃ lead taken rest, cs = lead ++ taken ++ rest ∧
    node.range = .ofChars (offset + byteLength lead) taken ∧
    Passed text windows offset lead ∧
    Tiles text windows (offset + byteLength lead) taken node.pieces ∧
    Passed text windows (offset + byteLength lead + byteLength taken) rest

def Laid (text separator : String) (interior : Interior) : Prop :=
  ∀ offset cs, Occurs text.toList offset cs → LaidOver text separator offset cs (interior offset cs)

theorem LaidOver.tiles {offset : Nat} {cs : List Char} {node : Node}
    (laid : LaidOver text separator offset cs node) :
    Tiles text (node.allWindows text separator offset (offset + byteLength cs)) offset cs
      node.pieces := by
  obtain ⟨lead, taken, rest, whole, _, front, middle, back⟩ := laid
  have behind := (middle.append (Tiles.done back)).prepend front
  rw [List.append_nil, ← List.append_assoc, ← whole] at behind
  exact behind

theorem LaidOver.behind {offset : Nat} {body tail : List Char} {node : Node}
    (laid : LaidOver text separator offset (body ++ tail) node)
    (framed : node.range = .ofChars offset body) :
    let windows := node.allWindows text separator offset (offset + byteLength (body ++ tail))
    Tiles text windows offset body node.pieces ∧
      Passed text windows (offset + byteLength body) tail := by
  obtain ⟨lead, taken, rest, whole, place, _, middle, back⟩ := laid
  rw [framed] at place
  have atStart : lead = [] := by
    have starts := congrArg Token.start place
    rw [Token.start_ofChars, Token.start_ofChars] at starts
    cases lead with
    | nil => rfl
    | cons c lead =>
        have positive := c.utf8Size_pos
        rw [byteLength_cons] at starts
        omega
  have same : body = taken := Token.ofChars_inj place
  subst atStart same
  obtain rfl : tail = rest := List.append_cancel_left whole
  exact ⟨middle, back⟩

theorem opener_eq (offset : Nat) (inside : List Char) {lead : List Char}
    (leading : lead = [] ∨ lead = ['!']) :
    Node.opener (.ofChars offset (lead ++ '(' :: inside)) = .ofChars offset (lead ++ ['(']) := by
  unfold Node.opener marker
  rw [Token.toList_ofChars, Token.start_ofChars]
  rcases leading with rfl | rfl
  · rfl
  · rfl

theorem closer_eq (offset : Nat) (front : List Char) {trail : List Char}
    (trailing : trail = [] ∨ trail = ['!']) :
    Node.closer (.ofChars offset (front ++ ')' :: trail)) =
      .ofChars (offset + byteLength front) (')' :: trail) := by
  unfold Node.closer
  rw [Token.toList_ofChars, Token.start_ofChars]
  have kept : (front ++ ')' :: trail).length - 1 -
      ((front ++ ')' :: trail).getLast? == some '!').toNat = front.length := by
    rcases trailing with rfl | rfl
    · simp
    · simp
  simp only [kept, List.take_left, List.drop_left]

theorem windows_open (text : String) (stop offset : Nat) (child : Node) (important : Bool)
    {lead inside : List Char} (leading : lead = [] ∨ lead = ['!']) :
    (Node.group (.ofChars offset (lead ++ '(' :: inside)) child false important).windows text separator
        stop =
      child.allWindows text separator (offset + byteLength lead + 1)
        (offset + byteLength lead + 1 + byteLength inside) := by
  have openerSize : Char.utf8Size '(' = 1 := rfl
  have start : offset + byteLength (lead ++ ['(']) = offset + byteLength lead + 1 := by
    simp
    omega
  have ends : offset + byteLength (lead ++ '(' :: inside) =
      offset + byteLength lead + 1 + byteLength inside := by
    rw [byteLength_append, byteLength_cons]
    omega
  rw [Node.windows, opener_eq offset inside leading, Token.stop_ofChars, Token.stop_ofChars, start,
    ends]
  rfl

theorem windows_closed (text : String) (stop offset : Nat) (child : Node) (important : Bool)
    {lead inside trail : List Char} (leading : lead = [] ∨ lead = ['!'])
    (trailing : trail = [] ∨ trail = ['!']) :
    (Node.group (.ofChars offset (lead ++ '(' :: inside ++ ')' :: trail)) child true
        important).windows text separator stop =
      child.allWindows text separator (offset + byteLength lead + 1)
        (offset + byteLength lead + 1 + byteLength inside) := by
  have openerSize : Char.utf8Size '(' = 1 := rfl
  have start : offset + byteLength (lead ++ ['(']) = offset + byteLength lead + 1 := by
    simp
    omega
  have ends : offset + byteLength (lead ++ '(' :: inside) =
      offset + byteLength lead + 1 + byteLength inside := by
    rw [byteLength_append, byteLength_cons]
    omega
  rw [Node.windows, closer_eq offset (lead ++ '(' :: inside) trailing, Token.start_ofChars, ends,
    List.append_assoc, List.cons_append, opener_eq offset (inside ++ ')' :: trail) leading,
    Token.stop_ofChars, start]
  rfl

theorem GroupAt.exists_interior {offset : Nat} {taken rest : List Char} {node : Node}
    (groupAt : GroupAt interior offset taken rest node) (text separator : String) (stop : Nat) :
    ∃ front inside back, taken = front ++ inside ++ back ∧ front ≠ [] ∧
      let start := offset + byteLength front
      node.windows text separator stop =
          (interior start inside).allWindows text separator start (start + byteLength inside) ∧
        node.pieces = .ofChars offset front :: ((interior start inside).pieces ++
          if back = [] then [] else [.ofChars (start + byteLength inside) back]) := by
  have openerSize : Char.utf8Size '(' = 1 := rfl
  have place : ∀ lead : List Char,
      offset + byteLength lead + 1 = offset + byteLength (lead ++ ['(']) := by
    intro lead
    simp
    omega
  cases groupAt with
  | @opened lead inside marked _ =>
      refine ⟨lead ++ ['('], inside, [], by simp, by simp, ?_, ?_⟩
      · rw [windows_open text stop offset _ _ marked.cases, place]
      · rw [Node.pieces, opener_eq offset inside marked.cases, place]
        rfl
  | @closed lead inside trail _ marked trailing _ =>
      have parts : lead ++ '(' :: inside ++ ')' :: trail =
          (lead ++ ['(']) ++ inside ++ (')' :: trail) := by simp
      refine ⟨lead ++ ['('], inside, ')' :: trail, parts, by simp, ?_, ?_⟩
      · rw [windows_closed text stop offset _ _ marked.cases trailing.cases, place]
      · have opening := opener_eq offset (inside ++ ')' :: trail) marked.cases
        rw [← List.cons_append, ← List.append_assoc] at opening
        rw [Node.pieces, opening, parts, closer_eq offset _ trailing.cases,
          byteLength_append (lead ++ ['(']), ← Nat.add_assoc, place]
        rfl

theorem GroupAt.tiles (laid : Laid text separator interior) {offset : Nat} {taken rest : List Char}
    {node : Node} (groupAt : GroupAt interior offset taken rest node)
    (occurs : Occurs text.toList offset taken) (stop : Nat) :
    Tiles text (node.windows text separator stop) offset taken node.pieces := by
  obtain ⟨front, inside, back, rfl, nonempty, windows, pieces⟩ :=
    groupAt.exists_interior text separator stop
  rw [windows, pieces, List.append_assoc]
  apply Tiles.append (Tiles.single nonempty)
  apply ((laid _ _ occurs.left.right).tiles).append
  by_cases closed : back = []
  · rw [if_pos closed, closed]
    exact Tiles.done Passed.nil
  · rw [if_neg closed]
    exact Tiles.single closed

theorem items_collect {offset : Nat} {cs : List Char} {items : List Node}
    (plain : ∀ item ∈ items, item.kind ≠ .declaration) : (collect offset cs items).items = items := by
  rcases collect_cases offset cs items with ⟨item, rfl⟩ | several
  · have kind := plain item List.mem_cons_self
    rw [collect]
    cases item with
    | declaration _ _ => exact absurd rfl kind
    | variantSpan _ _ _ => rfl
    | group _ _ _ _ => rfl
    | leaf _ => rfl
  · rw [several]
    rfl

theorem kind_ne_group {node : Node} {offset : Nat} {body rest : List Char} (proper : node.AllProper)
    (range : node.range = .ofChars offset body)
    (single : ((body ++ rest).drop (marker (body ++ rest)).length).head? ≠ some '(') :
    node.kind ≠ .group := by
  cases node with
  | group span child closed important =>
      obtain ⟨⟨lead, inside, trail, leading, _, whole, _⟩, _⟩ := (proper _ (Node.mem_nodes_self _)).1
      have body_eq : body = lead ++ '(' :: inside ++ (if closed then ')' :: trail else []) := by
        rw [← whole, show span = .ofChars offset body from range, Token.toList_ofChars]
      rw [body_eq] at single
      rcases leading with rfl | rfl
      · simp [marker] at single
      · simp [marker] at single
  | declaration => simp [Node.kind]
  | variantSpan => simp [Node.kind]
  | leaf item => cases item <;> simp [Node.kind, Leaf.kind]

theorem windows_item (proper : ∀ offset cs, (interior offset cs).AllProper)
    (separated : reading.separator = separator.toList) {range : Token} {variant : Variant}
    {body tail rest : List Char}
    (single : ((body ++ tail ++ rest).drop (marker (body ++ tail ++ rest)).length).head? ≠ some '(')
    (delimited : Body.split reading.separator (body ++ tail ++ rest) = (body ++ tail, rest))
    (framed : (interior variant.range.stop (body ++ tail)).range = .ofChars variant.range.stop body)
    (occurs : Occurs text.toList variant.range.stop (body ++ tail ++ rest)) :
    let start := variant.range.stop
    (Node.variantSpan range variant (some (interior start (body ++ tail)))).windows text separator
        (start + byteLength (body ++ tail ++ rest)) =
      (interior start (body ++ tail)).allWindows text separator start
        (start + byteLength (body ++ tail)) := by
  intro start
  have other : (interior start (body ++ tail)).kind ≠ .group := by
    rw [List.append_assoc] at single
    exact kind_ne_group (proper _ _) framed single
  have ending := Body.findEnd_eq separator occurs
  rw [← separated, delimited] at ending
  rw [Node.windows, if_neg other, ending]
  rfl

theorem SpanAt.tiles (laid : Laid text separator interior)
    (proper : ∀ offset cs, (interior offset cs).AllProper)
    (separated : reading.separator = separator.toList) {offset : Nat} {front body rest : List Char}
    {variant : Variant} {node : Node} (range : variant.range = .ofChars offset front)
    (nonempty : front ≠ []) (spanAt : SpanAt reading interior variant body rest node)
    (occurs : Occurs text.toList offset (front ++ (body ++ rest))) :
    Tiles text (node.windows text separator (offset + byteLength (front ++ (body ++ rest)))) offset
      (front ++ body) node.pieces := by
  have stops : variant.range.stop = offset + byteLength front := by
    rw [range, Token.stop_ofChars]
  cases spanAt with
  | empty _ =>
      rw [Node.pieces, range, List.append_nil]
      exact Tiles.single nonempty
  | @group _ _ child _ grouped =>
      rw [Node.pieces, Node.windows, if_pos grouped.kind_eq, range]
      apply Tiles.append (Tiles.single nonempty)
      rw [stops] at grouped
      exact grouped.tiles laid occurs.right.left _
  | @item _ tail rest _ single delimited framed _ _ =>
      have window := occurs.right
      rw [← stops, ← List.append_assoc] at window
      rw [byteLength_append, ← Nat.add_assoc, ← stops, ← List.append_assoc,
        windows_item proper separated single delimited framed window, Node.pieces, range]
      apply Tiles.append (Tiles.single nonempty)
      have middle := ((laid _ _ window.left).behind framed).1
      rw [stops] at middle
      rw [Token.stop_ofChars]
      exact middle

theorem NodeAt.tiles (laid : Laid text separator interior)
    (proper : ∀ offset cs, (interior offset cs).AllProper)
    (separated : reading.separator = separator.toList) {offset : Nat} {taken rest : List Char}
    {node : Node} (nodeAt : NodeAt reading interior offset taken rest node)
    (occurs : Occurs text.toList offset (taken ++ rest)) :
    Tiles text (node.windows text separator (offset + byteLength (taken ++ rest))) offset taken
      node.pieces := by
  cases nodeAt with
  | leaf leafAt =>
      rw [Node.pieces, leafAt.range_eq]
      exact Tiles.single leafAt.ne_nil
  | group groupAt => exact groupAt.tiles laid occurs.left _
  | span spelled spanAt =>
      rw [List.append_assoc] at occurs ⊢
      exact spanAt.tiles laid proper separated spelled.range_eq spelled.ne_nil occurs
  | openVariant _ =>
      rw [Node.pieces]
      exact Tiles.single (by simp)

def FollowedBy (reading : Reading) (interior : Interior) (offset : Nat) (cs : List Char) :
    List Node → Prop
  | [] => cs = []
  | node :: later => ∃ taken rest, cs = taken ++ rest ∧
      NodeAt reading interior offset taken rest node ∧
      ItemsAt reading interior (offset + byteLength taken) rest later

/-- A window that is read to its end has white space and comments up to its first item. -/
theorem ItemsAt.leading {window : Window} {offset : Nat} {cs : List Char} {nodes : List Node}
    (itemsAt : ItemsAt reading interior offset cs nodes) (unlimited : reading.limit = none)
    (start_le : window.start ≤ offset) (stop_eq : window.stop = offset + byteLength cs)
    (occurs : Occurs text.toList offset cs)
    (apart : ∀ item ∈ window.items, item.range.stop ≤ offset ∨ item ∈ nodes) :
    ∃ lead rest, cs = lead ++ rest ∧ Passed text [window] offset lead ∧
      FollowedBy reading interior (offset + byteLength lead) rest nodes := by
  induction itemsAt with
  | done => exact ⟨[], [], rfl, Passed.nil, rfl⟩
  | ended limited =>
      rw [Reading.endsAt, unlimited] at limited
      cases limited
  | @blank offset c cs nodes white later ih =>
      obtain ⟨lead, rest, whole, passed, followed⟩ := ih (by omega)
        (by rw [stop_eq, byteLength_cons, Nat.add_assoc]) occurs.tail (fun item member =>
          (apart item member).imp_left fun before => by omega)
      refine ⟨c :: lead, rest, by rw [whole]; rfl, Passed.blank white passed, ?_⟩
      rw [byteLength_cons, ← Nat.add_assoc]
      exact followed
  | @comment offset taken cs nodes spans later ih =>
      obtain ⟨lead, rest, whole, passed, followed⟩ := ih (by omega)
        (by rw [stop_eq, byteLength_append, Nat.add_assoc]) occurs.right (fun item member =>
          (apart item member).imp_left fun before => by omega)
      have holds : window.Holds text offset taken := by
        refine ⟨start_le, ⟨cs, occurs, stop_eq.symm, spans⟩, ?_⟩
        intro item member
        rcases apart item member with before | ahead
        · exact Or.inl before
        · exact Or.inr (later.ordered.1 item ahead).2.2.start_le
      refine ⟨taken ++ lead, rest, by rw [whole, List.append_assoc],
        Passed.comment List.mem_cons_self holds passed, ?_⟩
      rw [byteLength_append, ← Nat.add_assoc]
      exact followed
  | @node offset taken rest node nodes nodeAt later _ =>
      exact ⟨[], taken ++ rest, rfl, Passed.nil, taken, rest, rfl, nodeAt, later⟩

/-- A window that is read to its end is tiled by its items. -/
theorem ItemsAt.tiles (laid : Laid text separator interior)
    (proper : ∀ offset cs, (interior offset cs).AllProper)
    (separated : reading.separator = separator.toList) (unlimited : reading.limit = none)
    {window : Window} {offset : Nat} {cs : List Char} {nodes : List Node}
    (itemsAt : ItemsAt reading interior offset cs nodes) (start_le : window.start ≤ offset)
    (stop_eq : window.stop = offset + byteLength cs) (occurs : Occurs text.toList offset cs)
    (apart : ∀ item ∈ window.items, item.range.stop ≤ offset ∨ item ∈ nodes) :
    Tiles text (window :: nodes.flatMap (Node.windows text separator window.stop)) offset cs
      (nodes.flatMap Node.pieces) := by
  induction nodes generalizing offset cs with
  | nil =>
      obtain ⟨lead, rest, rfl, passed, rfl⟩ :=
        itemsAt.leading unlimited start_le stop_eq occurs apart
      rw [List.append_nil]
      exact Tiles.done (passed.mono (by simp))
  | cons node later ih =>
      obtain ⟨lead, _, rfl, passed, taken, rest, rfl, nodeAt, others⟩ :=
        itemsAt.leading unlimited start_le stop_eq occurs apart
      have tiled := nodeAt.tiles laid proper separated occurs.right
      rw [Nat.add_assoc, ← byteLength_append, ← stop_eq] at tiled
      have following := ih others (by omega)
        (by rw [stop_eq, byteLength_append, byteLength_append]; omega) occurs.right.right ?_
      · rw [List.flatMap_cons, List.flatMap_cons]
        refine Tiles.prepend (passed.mono (by simp)) (Tiles.append (tiled.mono ?_)
          (following.mono ?_))
        · intro other member
          simp [member]
        · intro other member
          rcases List.mem_cons.1 member with rfl | inLater
          · exact List.mem_cons_self
          · simp [inLater]
      · intro item member
        rcases apart item member with before | ahead
        · exact Or.inl (by omega)
        · rcases List.mem_cons.1 ahead with rfl | inLater
          · rw [nodeAt.range_eq, Token.stop_ofChars]
            exact Or.inl (Nat.le_refl _)
          · exact Or.inr inLater

private theorem items_of_kind_ne {node : Node} (single : node.kind ≠ .declaration) :
    node.items = [node] := by
  cases node with
  | declaration => exact absurd rfl single
  | variantSpan => rfl
  | group => rfl
  | leaf => rfl

private theorem ItemsAt.laidOver (laid : Laid text separator interior)
    (proper : ∀ offset cs, (interior offset cs).AllProper)
    (separated : reading.separator = separator.toList) (unlimited : reading.limit = none)
    {offset : Nat} {cs : List Char} {node : Node}
    (itemsAt : ItemsAt reading interior offset cs [node]) (occurs : Occurs text.toList offset cs) :
    LaidOver text separator offset cs node := by
  have known : node.items = [node] :=
    items_of_kind_ne (itemsAt.ordered.1 node List.mem_cons_self).1
  obtain ⟨lead, _, rfl, front, taken, rest, rfl, nodeAt, others⟩ :=
    @ItemsAt.leading _ _ text ⟨offset, _, [node]⟩ _ _ _ itemsAt unlimited (Nat.le_refl _) rfl occurs
      (fun item member => Or.inr member)
  have tiled := nodeAt.tiles laid proper separated occurs.right
  obtain ⟨back, _, rfl, behind, rfl⟩ :=
    @ItemsAt.leading _ _ text ⟨offset, offset + byteLength (lead ++ (taken ++ rest)), [node]⟩ _ _ _
      others unlimited (by dsimp only; omega) (by simp; omega) occurs.right.right (by
        intro item member
        rw [List.mem_singleton.1 member, nodeAt.range_eq, Token.stop_ofChars]
        exact Or.inl (Nat.le_refl _))
  rw [List.append_nil] at *
  refine ⟨lead, taken, back, by simp, nodeAt.range_eq, ?_, ?_, ?_⟩
  · rw [Node.allWindows, known]
    exact front.mono (by simp)
  · rw [Nat.add_assoc, ← byteLength_append] at tiled
    exact tiled.mono (by simp [Node.allWindows])
  · rw [Node.allWindows, known]
    exact behind.mono (by simp)

theorem laid_sequence (separated : reading.separator = separator.toList)
    (unlimited : reading.limit = none) (levels : Nat) :
    Laid text separator (sequence reading levels) := by
  induction levels with
  | zero =>
      intro offset cs _
      rw [sequence]
      rcases remainder_cases offset cs with ⟨blank, read⟩ | ⟨front, kept, back, whole, inFront,
        inBack, nonempty, read⟩
      · rw [read]
        refine ⟨[], cs, [], by simp, rfl, Passed.nil, ?_, Passed.nil⟩
        rw [collect_of_length_ne (by simp), Node.pieces_declaration]
        exact Tiles.done (Passed.of_blank blank)
      · rw [read]
        refine ⟨front, kept, back, whole, rfl, Passed.of_blank inFront, ?_,
          Passed.of_blank inBack⟩
        exact Tiles.single nonempty
  | succ levels ih =>
      intro offset cs occurs
      have framed := framed_sequence reading levels
      have proper := allProper_sequence reading levels
      obtain ⟨nodes, read, itemsAt⟩ := @itemsAt_items reading _ framed offset cs []
      rw [sequence, read, List.reverse_nil, List.nil_append]
      rcases collect_cases offset cs nodes with ⟨node, rfl⟩ | several
      · exact itemsAt.laidOver ih proper separated unlimited occurs
      · rw [several]
        refine ⟨[], cs, [], by simp, rfl, Passed.nil, ?_, Passed.nil⟩
        have tiled := @ItemsAt.tiles _ _ text separator ih proper separated unlimited
          ⟨offset, offset + byteLength cs, nodes⟩ _ _ _ itemsAt (Nat.le_refl _) rfl occurs
          (fun item member => Or.inr member)
        rw [Node.pieces_declaration, Node.allWindows, Node.windows_declaration]
        exact tiled

theorem tiles_read (settings : Settings) (text : String) :
    let node := read settings text none
    Tiles text (node.allWindows text settings.separator 0 text.utf8ByteSize) 0 text.toList
      node.pieces := by
  intro node
  have whole : Occurs text.toList 0 text.toList := Occurs.refl _
  have laid := @laid_sequence ⟨settings.separator.toList, none⟩ text settings.separator rfl rfl
    (settings.maxDepth + 1) 0 text.toList whole
  rw [← read_eq] at laid
  have inside := laid.tiles
  rw [Nat.zero_add, byteLength_toList] at inside
  exact inside

/-- No part of a text is lost or read twice. The pieces of its tree stand in the text one behind the
other, and each maximal run of bytes that they leave is white space and comments, where a comment
goes as far as the window of the tree it stands in lets it. -/
theorem read_complete (settings : Settings) (text : String) :
    let node := read settings text none
    let windows := node.allWindows text settings.separator 0 text.utf8ByteSize
    (∀ piece ∈ node.pieces, piece.start < piece.stop ∧
      Token.ofSource? text piece.start piece.stop = some piece) ∧
    node.pieces.Pairwise (fun left right => left.stop ≤ right.start) ∧
    ∀ start stop, Gap 0 text.utf8ByteSize node.pieces start stop →
      ∃ run, Token.ofSource? text start stop = some (.ofChars start run) ∧
        Passed text windows start run := by
  intro node windows
  have whole : Occurs text.toList 0 text.toList := Occurs.refl _
  have tiled : Tiles text windows 0 text.toList node.pieces := tiles_read settings text
  refine ⟨tiled.exact whole, tiled.ordered, ?_⟩
  intro start stop gap
  rw [← byteLength_toList, ← Nat.zero_add (byteLength text.toList)] at gap
  obtain ⟨shift, run, place, stops, occurs, passed⟩ := tiled.passed_of_gap gap
  rw [Nat.zero_add] at place
  subst place stops
  exact ⟨run, Token.ofSource?_eq occurs, passed⟩

end ClassExpr.Tree
