import ClassExpr.Proofs.Query.Cursor

set_option autoImplicit false

/-! The context of a cursor in the tree that is read up to it, and in the tree of the whole text.
The two differ in one place: where a comment behind the first item of a body passes the cursor, the
body is cut down to that item. The span of its variant then ends in front of the cursor, and the
cursor loses the context that it has in the whole tree. -/

namespace ClassExpr

open Text

/-- A variant of several items that is left with the first one, in front of the limit, since a
comment behind that item passes the limit. -/
def Node.Shortened (limit : Nat) : Node → Prop
  | .variantSpan _ _ (some (.declaration range (first :: second :: _))) =>
      first.range.stop < limit ∧ limit < second.range.start ∧
        Tree.FadesBehind limit range.start range.text.toList first
  | _ => False

namespace Completion

variable {position : Nat} {scope : Scope}

/-- The context of a cursor, as found in the tree of the whole text. -/
def inWhole (settings : Settings) (text : String) (cursor : Nat) : Completion :=
  let position := floorBoundary text.toList cursor
  match modeAt text.toList position with
  | .lineComment | .blockComment => { inComment := true }
  | .quoted _ =>
      { locate position {} (Tree.read settings text none) with inString := true }
  | .code => locate position {} (Tree.read settings text none)

/-! ### Looking into a node -/

theorem locateFirst_eq_ofScope {nodes : List Node}
    (outside : ∀ node ∈ nodes, node.range.touches position = false) :
    locateFirst position scope nodes = ofScope scope := by
  induction nodes with
  | nil => rw [locateFirst]
  | cons node rest ih =>
      rw [locateFirst_cons, outside node List.mem_cons_self]
      apply ih
      intro other member
      exact outside other (List.mem_cons_of_mem node member)

theorem locate_eq_ofScope {node : Node} (proper : node.AllProper)
    (outside : node.range.touches position = false) :
    locate position scope node = ofScope scope := by
  cases node with
  | declaration range children =>
      rw [locate]
      apply locateFirst_eq_ofScope
      intro child member
      have within := (proper _ (Node.mem_nodes_self _)).2 child member
      rw [Bool.eq_false_iff]
      intro inside
      rw [within.touches inside] at outside
      cases outside
  | variantSpan range variant child =>
      rw [Node.range] at outside
      cases child with
      | none => rw [locate, outside]; rfl
      | some child => rw [locate, outside]; rfl
  | group range child closed important =>
      rw [Node.range] at outside
      rw [locate, outside]
      rfl
  | leaf leaf =>
      rw [Node.range] at outside
      rw [locate, outside]
      rfl

private theorem locate_or_ofScope (node : Node) (proper : node.AllProper) :
    (if node.range.touches position then locate position scope node else ofScope scope) =
      locate position scope node := by
  split
  · rfl
  next outside => exact (locate_eq_ofScope proper (by simpa using outside)).symm

theorem locate_span {range : Token} {variant : Variant} {child : Node}
    (proper : (Node.variantSpan range variant (some child)).AllProper) :
    locate position scope (.variantSpan range variant (some child)) =
      if !range.touches position then ofScope scope
      else if position < variant.range.stop then ofVariant position scope variant
      else locate position (scope.enter variant) child := by
  have shape : Node.ProperSpan range variant (some child) := (proper _ (Node.mem_nodes_self _)).1
  have deeper : child.AllProper := proper.child (by simp [Node.children])
  have attached := shape.attached child rfl
  rw [locate]
  cases touched : range.touches position with
  | false => rfl
  | true =>
      rw [Token.touches_iff, shape.start] at touched
      rw [if_neg (by simpa using touched.1)]
      simp only [Bool.not_true, Bool.false_eq_true, if_false]
      split
      · rfl
      next behind =>
        rw [← locate_or_ofScope child deeper]
        cases inside : child.range.touches position with
        | false => simp
        | true =>
            rw [Token.touches_iff, attached] at inside
            simp [inside.1]

theorem locate_group {range : Token} {child : Node} {closed important : Bool}
    (proper : (Node.group range child closed important).AllProper) :
    locate position scope (.group range child closed important) =
      if !range.touches position || !isInside range closed position then ofScope scope
      else locate position (scope.mark important) child := by
  have deeper : child.AllProper := proper.child (by simp [Node.children])
  rw [locate]
  simp only [locate_or_ofScope child deeper]

private theorem locateFirst_single {node : Node} (proper : node.AllProper) :
    locateFirst position scope [node] = locate position scope node := by
  rw [locateFirst_cons, locateFirst, locate_or_ofScope node proper]

theorem locate_collect {offset : Nat} {cs : List Char} {items : List Node}
    (proper : (Tree.collect offset cs items).AllProper) :
    locate position scope (Tree.collect offset cs items) = locateFirst position scope items := by
  rcases Tree.collect_cases offset cs items with ⟨node, rfl⟩ | several
  · exact (locateFirst_single proper).symm
  · rw [several, locate]

private theorem locateFirst_append {left right : List Node} (read : List Node)
    (same : locateFirst position scope left = locateFirst position scope right) :
    locateFirst position scope (read ++ left) = locateFirst position scope (read ++ right) := by
  induction read with
  | nil => exact same
  | cons node read ih => rw [List.cons_append, List.cons_append, locateFirst_cons,
      locateFirst_cons, ih]

private theorem locateFirst_ahead {later : List Node} (read : List Node)
    (ahead : ∀ node ∈ later, position < node.range.start) :
    locateFirst position scope (read ++ later) = locateFirst position scope read := by
  have none : locateFirst position scope later = locateFirst position scope [] := by
    rw [locateFirst, locateFirst_eq_ofScope]
    intro node member
    have start := ahead node member
    rw [Token.not_touches_iff]
    omega
  rw [locateFirst_append read none, List.append_nil]

private theorem locateFirst_behind {read : List Node} (later : List Node)
    (outside : ∀ node ∈ read, node.range.touches position = false) :
    locateFirst position scope (read ++ later) = locateFirst position scope later := by
  induction read with
  | nil => rfl
  | cons node read ih =>
      rw [List.cons_append, locateFirst_cons, outside node List.mem_cons_self]
      apply ih
      intro other member
      exact outside other (List.mem_cons_of_mem node member)

mutual

/-- What is found in a node has the variants of its context, and maybe more. -/
theorem variants_le_locate (scope : Scope) :
    (node : Node) → scope.variants.length ≤ (locate position scope node).variants.length
  | .declaration range children => by
      rw [locate]
      exact variants_le_locateFirst scope children
  | .variantSpan range variant none => by
      rw [locate]
      split
      · exact Nat.le_refl _
      · split
        · exact Nat.le_refl _
        · simp [ofScope, Scope.enter]
  | .variantSpan range variant (some child) => by
      have inner := variants_le_locate (scope.enter variant) child
      simp only [Scope.enter, List.length_append, List.length_singleton] at inner
      rw [locate]
      split
      · exact Nat.le_refl _
      · split
        · exact Nat.le_refl _
        · dsimp only
          split
          · exact Nat.le_of_succ_le inner
          · simp [ofScope, Scope.enter]
  | .group range child closed important => by
      have inner := variants_le_locate (scope.mark important) child
      rw [locate]
      split
      · exact Nat.le_refl _
      · dsimp only
        split
        · exact inner
        · exact Nat.le_refl _
  | .leaf leaf => by
      rw [locate]
      split
      · exact Nat.le_refl _
      · exact Nat.le_refl _

private theorem variants_le_locateFirst (scope : Scope) :
    (children : List Node) →
      scope.variants.length ≤ (locateFirst position scope children).variants.length
  | [] => by
      rw [locateFirst]
      exact Nat.le_refl _
  | child :: rest => by
      rw [locateFirst]
      split
      · exact variants_le_locate scope child
      · exact variants_le_locateFirst scope rest

end

end Completion

namespace Node

variable {limit : Nat}

theorem Shortened.cases {node : Node} (shortened : node.Shortened limit) :
    ∃ span variant range first second rest,
      node = .variantSpan span variant (some (.declaration range (first :: second :: rest))) ∧
        first.range.stop < limit ∧ limit < second.range.start ∧
        Tree.FadesBehind limit range.start range.text.toList first := by
  unfold Shortened at shortened
  split at shortened
  · exact ⟨_, _, _, _, _, _, rfl, shortened⟩
  · exact absurd shortened id

theorem Shortened.kind_ne {node : Node} (shortened : node.Shortened limit) :
    node.kind ≠ .declaration := by
  obtain ⟨_, _, _, _, _, _, rfl, _⟩ := shortened.cases
  simp [kind]

theorem Shortened.between {span range : Token} {variant : Variant} {first second : Node}
    {rest : List Node}
    (shortened : (variantSpan span variant (some (declaration range (first :: second :: rest)))).Shortened
      limit)
    (proper : (declaration range (first :: second :: rest)).AllProper) :
    first.range.stop < limit ∧ limit < second.range.stop ∧
      range.start < limit ∧ limit < range.stop := by
  have items : ProperItems range (first :: second :: rest) := (proper _ (mem_nodes_self _)).1
  have firstStart := (items.inside first (by simp)).start_le
  have firstSize := items.nonempty first (by simp)
  have secondStop := (items.inside second (by simp)).stop_le
  have secondSize := items.nonempty second (by simp)
  obtain ⟨before, behind, _⟩ := shortened
  omega

theorem Shortened.around {node inner : Node} (shortened : inner.Shortened limit)
    (proper : node.AllProper) (member : inner ∈ node.nodes) :
    ∃ child ∈ node.children, child.range.start < limit ∧ limit < child.range.stop := by
  rcases (mem_nodes_iff node inner).1 member with rfl | ⟨child, isChild, deeper⟩
  · obtain ⟨span, variant, range, first, second, rest, rfl, _⟩ := shortened.cases
    have isChild : Node.declaration range (first :: second :: rest) ∈
        (variantSpan span variant (some (declaration range (first :: second :: rest)))).children :=
      List.mem_singleton.2 rfl
    exact ⟨_, isChild, (shortened.between (proper.child isChild)).2.2⟩
  · have smaller := sizeOf_lt_of_mem_children isChild
    obtain ⟨grandchild, isGrandchild, around⟩ := shortened.around (proper.child isChild) deeper
    have inside := (proper.child isChild _ (mem_nodes_self _)).2 grandchild isGrandchild
    exact ⟨child, isChild, Nat.lt_of_le_of_lt inside.start_le around.1,
      Nat.lt_of_lt_of_le around.2 inside.stop_le⟩
termination_by sizeOf node

theorem Shortened.inside {node inner : Node} (shortened : inner.Shortened limit)
    (proper : node.AllProper) (member : inner ∈ node.nodes) :
    node.range.start < limit ∧ limit < node.range.stop := by
  obtain ⟨child, isChild, around⟩ := shortened.around proper member
  have inside := (proper _ (mem_nodes_self _)).2 child isChild
  exact ⟨Nat.lt_of_le_of_lt inside.start_le around.1, Nat.lt_of_lt_of_le around.2 inside.stop_le⟩

end Node

namespace Tree

open Completion

variable {limit : Nat}

private theorem mem_nodes_collect {offset : Nat} {cs : List Char} {items : List Node} {inner : Node}
    (member : inner ∈ (collect offset cs items).nodes) (kind : inner.kind ≠ .declaration) :
    ∃ item ∈ items, inner ∈ item.nodes := by
  rcases collect_cases offset cs items with ⟨item, rfl⟩ | several
  · exact ⟨item, List.mem_singleton.2 rfl, member⟩
  · rw [several, Node.mem_nodes_iff] at member
    rcases member with rfl | deeper
    · exact absurd rfl kind
    · exact deeper

private theorem item_of_shortened {offset : Nat} {cs : List Char} {items : List Node} {inner : Node}
    (proper : (collect offset cs items).AllProper) (member : inner ∈ (collect offset cs items).nodes)
    (shortened : inner.Shortened limit) :
    ∃ item ∈ items, inner ∈ item.nodes ∧ item.range.start < limit ∧ limit < item.range.stop := by
  obtain ⟨item, isItem, deeper⟩ := mem_nodes_collect member shortened.kind_ne
  exact ⟨item, isItem, deeper, shortened.inside (proper.of_collect item isItem) deeper⟩

private theorem ordered_of_collect {offset : Nat} {cs : List Char} {items : List Node}
    (proper : (collect offset cs items).AllProper) :
    items.Pairwise (fun left right => left.range.stop ≤ right.range.start) := by
  rcases collect_cases offset cs items with ⟨item, rfl⟩ | several
  · exact List.pairwise_singleton _ _
  · rw [several] at proper
    have shape : Node.ProperItems _ items := (proper _ (Node.mem_nodes_self _)).1
    exact shape.ordered

theorem nodes_subset_collect {offset : Nat} {cs : List Char} {items : List Node} {item inner : Node}
    (isItem : item ∈ items) (member : inner ∈ item.nodes) :
    inner ∈ (collect offset cs items).nodes := by
  rcases collect_cases offset cs items with ⟨other, rfl⟩ | several
  · rw [List.mem_singleton.1 isItem] at member
    exact member
  · rw [several, Node.mem_nodes_iff]
    exact Or.inr ⟨item, isItem, member⟩

private theorem isItem_of_collect {offset : Nat} {cs : List Char} {first second : Node}
    {rest : List Node}
    (proper : (collect offset cs (first :: second :: rest)).AllProper) :
    first.kind ≠ .declaration := by
  have shape : Node.ProperItems _ (first :: second :: rest) := (proper _ (Node.mem_nodes_self _)).1
  exact shape.items first List.mem_cons_self

/-- What a variant applies to ends in front of the limit that it passes only if it, or something at
the end of it, is cut down to its first item. -/
theorem Pruned.exists_shortened {node cut : Node} (pruned : Pruned limit node cut)
    (proper : node.AllProper) (cutProper : cut.AllProper) (solid : cut.isBlank = false)
    (lost : cut.range.stop < limit) (reaches : limit < node.range.stop) (span : Token)
    (variant : Variant) :
    ∃ inner ∈ (Node.variantSpan span variant (some node)).nodes, inner.Shortened limit := by
  induction pruned generalizing span variant with
  | whole _ => omega
  | group _ _ =>
      rw [Node.range] at lost reaches
      omega
  | @span range short attached child cut _ _ ih =>
      have shape : Node.ProperSpan range attached (some child) := (proper _ (Node.mem_nodes_self _)).1
      have cutShape : Node.ProperSpan short attached (some cut) :=
        (cutProper _ (Node.mem_nodes_self _)).1
      rw [Node.range, shape.stop child rfl] at reaches
      rw [Node.range, cutShape.stop cut rfl] at lost
      obtain ⟨inner, member, shortened⟩ :=
        ih (proper.child (by simp [Node.children])) (cutProper.child (by simp [Node.children]))
          (cutShape.solid cut rfl) lost reaches range attached
      rw [Node.nodes_variantSpan_some]
      exact ⟨inner, List.mem_cons_of_mem _ member, shortened⟩
  | @ended offset cs read later before ahead fades =>
      rcases read with _ | ⟨first, _ | ⟨second, read⟩⟩
      · cases solid
      · cases later with
        | nil =>
            rw [List.append_nil] at reaches
            omega
        | cons second later =>
            refine ⟨_, Node.mem_nodes_self _, lost, ahead second List.mem_cons_self, ?_⟩
            rw [Token.start_ofChars, Token.toList_ofChars]
            exact fades first rfl (by simp)
      · simp only [List.cons_append, collect, Node.range] at lost reaches
        omega
  | @last offset cs read later node cut before inner behind ahead clear ih =>
      cases read with
      | nil =>
          cases later with
          | nil => exact ih proper cutProper solid lost behind span variant
          | cons second later =>
              have deeper := proper.of_collect node List.mem_cons_self
              obtain ⟨inner, member, shortened⟩ := ih deeper cutProper solid lost behind span variant
              rw [Node.nodes_variantSpan_some, List.mem_cons] at member
              rcases member with rfl | member
              · obtain ⟨_, _, _, _, _, _, same, _⟩ := shortened.cases
                cases same
                exact absurd rfl (isItem_of_collect proper)
              · refine ⟨inner, ?_, shortened⟩
                rw [Node.nodes_variantSpan_some]
                exact List.mem_cons_of_mem _ (nodes_subset_collect List.mem_cons_self member)
      | cons first read =>
          have several : (first :: read ++ [cut]).length ≠ 1 := by simp
          have more : (first :: read ++ node :: later).length ≠ 1 := by simp
          rw [collect_of_length_ne several, Node.range] at lost
          rw [collect_of_length_ne more, Node.range] at reaches
          omega

private theorem Pruned.stop_lt {child cut : Node} (pruned : Pruned limit child cut)
    (proper : child.AllProper) (solid : cut.isBlank = false) {span : Token} {variant : Variant}
    (shortened : (Node.variantSpan span variant (some child)).Shortened limit) :
    cut.range.stop < limit := by
  induction pruned with
  | @whole node before =>
      obtain ⟨_, _, range, first, second, rest, same, _⟩ := shortened.cases
      cases same
      have between := shortened.between proper
      have whole := before second (by simp [Node.children])
      omega
  | group _ _ => exact absurd shortened id
  | span _ _ _ => exact absurd shortened id
  | @ended offset cs read later before ahead _ =>
      rcases read with _ | ⟨first, _ | ⟨second, read⟩⟩
      · cases solid
      · cases later with
        | nil =>
            obtain ⟨_, _, range, _, _, _, same, _⟩ := shortened.cases
            cases same
            have between := shortened.between proper
            have whole := before _ List.mem_cons_self
            rw [Node.range] at whole
            omega
        | cons second later => exact (shortened.between proper).1
      · have between := shortened.between proper
        have whole := before second (by simp)
        omega
  | @last offset cs read later node cut before inner behind ahead clear ih =>
      rcases read with _ | ⟨first, _ | ⟨second, read⟩⟩
      · cases later with
        | nil => exact ih proper solid shortened
        | cons second later =>
            have between := shortened.between proper
            omega
      · obtain ⟨_, _, fades⟩ := shortened
        rw [Token.start_ofChars, Token.toList_ofChars] at fades
        exact absurd fades (clear first rfl)
      · have between := shortened.between proper
        have whole := before second (by simp)
        omega

/-- A cursor finds the same in a node and in what is read of it up to the cursor, unless one of the
variants there is cut down to its first item: then it finds fewer variants. -/
def Agrees (limit : Nat) (scope : Scope) (node cut : Node) : Prop :=
  (∀ inner ∈ node.nodes, ¬inner.Shortened limit) ∧
      locate limit scope cut = locate limit scope node ∨
    (∃ inner ∈ node.nodes, inner.Shortened limit) ∧
      (locate limit scope cut).variants.length < (locate limit scope node).variants.length

private theorem agrees_span {scope : Scope} {range short : Token} {variant : Variant}
    {child cut : Node}
    (proper : (Node.variantSpan range variant (some child)).AllProper)
    (cutProper : (Node.variantSpan short variant (some cut)).AllProper)
    (pruned : Pruned limit child cut) (reaches : limit < range.stop)
    (inner : Agrees limit (scope.enter variant) child cut) :
    Agrees limit scope (.variantSpan range variant (some child))
      (.variantSpan short variant (some cut)) := by
  have shape : Node.ProperSpan range variant (some child) := (proper _ (Node.mem_nodes_self _)).1
  have cutShape : Node.ProperSpan short variant (some cut) :=
    (cutProper _ (Node.mem_nodes_self _)).1
  have deeper : child.AllProper := proper.child (by simp [Node.children])
  have start := shape.start
  have cutStart := cutShape.start
  have attached := shape.attached child rfl
  have stops := shape.stop child rfl
  have cutStops := cutShape.stop cut rfl
  have leading := cutShape.leading.stop_le
  have touched : range.touches limit = true ↔ variant.range.start < limit := by
    rw [Token.touches_iff]
    omega
  have cutTouched : short.touches limit = true ↔
      variant.range.start < limit ∧ limit ≤ cut.range.stop := by
    rw [Token.touches_iff]
    omega
  have below : ∀ inner ∈ (Node.variantSpan range variant (some child)).nodes,
      inner.Shortened limit → variant.range.stop < limit := by
    intro inner member shortened
    obtain ⟨other, isChild, around⟩ := shortened.around proper member
    rw [Node.children, Option.toList_some, List.mem_singleton] at isChild
    rw [isChild, attached] at around
    exact around.1
  have variantStop := variant.range.stop_eq
  unfold Agrees
  rw [locate_span proper, locate_span cutProper]
  by_cases inFront : limit ≤ variant.range.start ∨ limit < variant.range.stop
  · -- up to the end of the variant nothing is cut
    left
    constructor
    · intro inner member shortened
      have behind := below inner member shortened
      omega
    · have same : short.touches limit = range.touches limit := by
        rw [Bool.eq_iff_iff, touched, cutTouched]
        omega
      rw [same]
      rcases inFront with before | inside
      · have outside : range.touches limit = false := by
          rw [← Bool.not_eq_true, touched]
          omega
        rw [outside]
        rfl
      · rw [if_pos inside, if_pos inside]
  · rw [not_or, Nat.not_le, Nat.not_lt] at inFront
    have solid := cutShape.solid cut rfl
    simp only [touched.2 inFront.1, if_neg (Nat.not_lt.2 inFront.2), Bool.not_true,
      Bool.false_eq_true, if_false]
    rw [Node.nodes_variantSpan_some]
    by_cases lost : cut.range.stop < limit
    · have outside : short.touches limit = false := by
        rw [← Bool.not_eq_true, cutTouched]
        omega
      have found := pruned.exists_shortened deeper (cutProper.child (by simp [Node.children])) solid
        lost (by omega) range variant
      rw [Node.nodes_variantSpan_some] at found
      refine Or.inr ⟨found, ?_⟩
      have deep := @variants_le_locate limit (scope.enter variant) child
      simp only [Scope.enter, List.length_append, List.length_singleton] at deep
      simp only [outside, Bool.not_false, if_true, ofScope]
      exact deep
    · have kept : short.touches limit = true := by
        rw [cutTouched]
        omega
      simp only [kept, Bool.not_true, Bool.false_eq_true, if_false]
      rcases inner with ⟨clear, same⟩ | ⟨⟨other, member, shortened⟩, fewer⟩
      · refine Or.inl ⟨List.forall_mem_cons.2 ⟨?_, clear⟩, same⟩
        intro shortened
        exact lost (pruned.stop_lt deeper solid shortened)
      · exact Or.inr ⟨⟨other, List.mem_cons_of_mem _ member, shortened⟩, fewer⟩

private theorem agrees_group {scope : Scope} {range : Token} {child cut : Node}
    {closed important : Bool}
    (proper : (Node.group range child closed important).AllProper)
    (cutProper : (Node.group range cut closed important).AllProper)
    (inner : Agrees limit (scope.mark important) child cut) :
    Agrees limit scope (.group range child closed important)
      (.group range cut closed important) := by
  have shape : Node.ProperGroup range child closed important :=
    (proper _ (Node.mem_nodes_self _)).1
  have notItself : ¬(Node.group range child closed important).Shortened limit := id
  unfold Agrees
  rw [locate_group proper, locate_group cutProper, Node.nodes_group]
  rcases inner with ⟨clear, same⟩ | ⟨⟨other, member, shortened⟩, fewer⟩
  · rw [same]
    exact Or.inl ⟨List.forall_mem_cons.2 ⟨notItself, clear⟩, rfl⟩
  · have isChild : child ∈ (Node.group range child closed important).children := by
      simp [Node.children]
    have inside := shortened.inside (proper.child isChild) member
    have touched : child.range.touches limit = true := by
      rw [Token.touches_iff]
      omega
    have within := ((proper _ (Node.mem_nodes_self _)).2 child isChild).touches touched
    rw [Node.range] at within
    rw [within, isInside_of_touches shape touched]
    exact Or.inr ⟨⟨other, List.mem_cons_of_mem _ member, shortened⟩, fewer⟩

/-- What a limit leaves of a tree answers a cursor at the limit as the whole tree does, or with
fewer variants where one of them is cut down to its first item. -/
theorem Pruned.agrees {node cut : Node} (pruned : Pruned limit node cut) (proper : node.AllProper)
    (cutProper : cut.AllProper) (scope : Scope) : Agrees limit scope node cut := by
  induction pruned generalizing scope with
  | @whole node before =>
      refine Or.inl ⟨fun inner member shortened => ?_, rfl⟩
      obtain ⟨child, isChild, around⟩ := shortened.around proper member
      have whole := before child isChild
      omega
  | group _ ih =>
      exact agrees_group proper cutProper (ih (proper.child (by simp [Node.children]))
        (cutProper.child (by simp [Node.children])) _)
  | span inner reaches ih =>
      exact agrees_span proper cutProper inner reaches (ih (proper.child (by simp [Node.children]))
        (cutProper.child (by simp [Node.children])) _)
  | @ended offset cs read later before ahead _ =>
      left
      constructor
      · intro inner member shortened
        obtain ⟨item, isItem, _, inside⟩ := item_of_shortened proper member shortened
        rcases List.mem_append.1 isItem with read | later
        · have whole := before item read
          omega
        · have far := ahead item later
          omega
      · rw [locate_collect proper, locate_collect cutProper, locateFirst_ahead _ ahead]
  | @last offset cs read later node cut before _ reaches ahead _ ih =>
      have isLast : node ∈ read ++ node :: later := by simp
      have nodeProper := proper.of_collect node isLast
      have cutNodeProper := cutProper.of_collect cut (by simp)
      have agrees := ih nodeProper cutNodeProper scope
      unfold Agrees
      rw [locate_collect proper, locate_collect cutProper, List.append_cons read node later,
        locateFirst_ahead _ ahead]
      rcases agrees with ⟨clear, same⟩ | ⟨⟨inner, member, shortened⟩, fewer⟩
      · left
        constructor
        · intro inner member shortened
          rw [← List.append_cons] at member
          obtain ⟨item, isItem, deeper, inside⟩ := item_of_shortened proper member shortened
          rcases List.mem_append.1 isItem with read | rest
          · have whole := before item read
            omega
          · rcases List.mem_cons.1 rest with rfl | later
            · exact clear inner deeper shortened
            · have far := ahead item later
              omega
        · apply locateFirst_append
          rw [locateFirst_single nodeProper, locateFirst_single cutNodeProper, same]
      · right
        have inside := shortened.inside nodeProper member
        have outside : ∀ item ∈ read, item.range.touches limit = false := by
          intro item isRead
          have inOrder := (List.pairwise_append.1 (ordered_of_collect proper)).2.2 item isRead node
            List.mem_cons_self
          rw [Token.not_touches_iff]
          omega
        rw [locateFirst_behind _ outside, locateFirst_behind _ outside,
          locateFirst_single nodeProper, locateFirst_single cutNodeProper]
        rw [← List.append_cons]
        exact ⟨⟨inner, nodes_subset_collect isLast member, shortened⟩, fewer⟩

end Tree

namespace Completion

/-- The tree that is read up to a cursor answers the cursor as the tree of the whole text does,
exactly if no variant of the latter is cut down to its first item in front of the cursor. -/
theorem atCursor_eq_inWhole_iff (settings : Settings) (text : String) {cursor : Nat}
    (outside : (atCursor settings text cursor).inComment = false) :
    atCursor settings text cursor = inWhole settings text cursor ↔
      ∀ node ∈ (Tree.read settings text none).nodes,
        ¬node.Shortened (floorBoundary text.toList cursor) := by
  have agrees := (Tree.pruned_read settings text (floorBoundary text.toList cursor)).agrees
    (Tree.allProper_read _ _ _) (Tree.allProper_read _ _ _) {}
  unfold atCursor at outside ⊢
  unfold inWhole
  generalize floorBoundary text.toList cursor = position at *
  rcases agrees with ⟨clear, same⟩ | ⟨⟨node, member, shortened⟩, fewer⟩
  · refine iff_of_true ?_ clear
    cases mode : modeAt text.toList position <;> simp only [mode, same]
  · refine iff_of_false (fun equal => ?_) fun clear => clear node member shortened
    have variants := congrArg Completion.variants equal
    apply Nat.ne_of_lt fewer
    cases mode : modeAt text.toList position with
    | code =>
        simp only [mode] at variants
        rw [variants]
    | quoted mark =>
        simp only [mode] at variants
        rw [variants]
    | lineComment => simp [mode] at outside
    | blockComment => simp [mode] at outside

/-- Between two comments in a body the second one takes the variant away. -/
theorem atCursor_ne_inWhole :
    (atCursor {} "hover:flex/* a *//* b */grid" 17).inComment = false ∧
      atCursor {} "hover:flex/* a *//* b */grid" 17 = {} ∧
      inWhole {} "hover:flex/* a *//* b */grid" 17 = { variants := [⟨0, "hover"⟩] } := by
  decide +kernel

/-- The variant there is cut down to its first item. -/
theorem exists_shortened_between :
    (atCursor {} "hover:flex/* a *//* b */grid" 17).inComment = false ∧
      ∃ node ∈ (Tree.read {} "hover:flex/* a *//* b */grid" none).nodes,
        node.Shortened (floorBoundary "hover:flex/* a *//* b */grid".toList 17) := by
  have outside : (atCursor {} "hover:flex/* a *//* b */grid" 17).inComment = false := by
    decide +kernel
  refine ⟨outside, Classical.byContradiction fun none => ?_⟩
  have same := (atCursor_eq_inWhole_iff {} "hover:flex/* a *//* b */grid" outside).2
    fun node member shortened => none ⟨node, member, shortened⟩
  exact absurd same (by decide +kernel)

end Completion

end ClassExpr
