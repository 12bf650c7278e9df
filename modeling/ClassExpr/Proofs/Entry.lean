import ClassExpr.Proofs.Tree.Proper
import ClassExpr.Spread
import Mathlib.Data.List.Basic

set_option autoImplicit false

/-! Flattening accounts for every node of a tree once. Each node is taken with the nodes that it
stands in: these alone decide which variants apply to it, whether it is important and whether an
open group hides it. What flattening finds is what the nodes report one by one, in the order of the
text, and no two of them report the same stretch of it. -/

namespace ClassExpr

open Text

/-- A node with the nodes that it stands in, outermost first. -/
structure Placed where
  above : List Node
  node : Node

namespace Node

mutual

/-- All nodes of a tree in the order of the text, each before what stands in it. -/
def placed (above : List Node) : Node → List Placed
  | .declaration range children =>
      ⟨above, .declaration range children⟩ ::
        placedAll (above ++ [.declaration range children]) children
  | .variantSpan range variant none => [⟨above, .variantSpan range variant none⟩]
  | .variantSpan range variant (some child) =>
      ⟨above, .variantSpan range variant (some child)⟩ ::
        placed (above ++ [.variantSpan range variant (some child)]) child
  | .group range child closed important =>
      ⟨above, .group range child closed important⟩ ::
        placed (above ++ [Node.group range child closed important]) child
  | .leaf item => [⟨above, .leaf item⟩]

def placedAll (above : List Node) : List Node → List Placed
  | [] => []
  | child :: rest => placed above child ++ placedAll above rest

end

theorem placedAll_eq (above : List Node) (children : List Node) :
    placedAll above children = children.flatMap (placed above) := by
  induction children with
  | nil => rw [placedAll, List.flatMap_nil]
  | cons child rest ih => rw [placedAll, List.flatMap_cons, ih]

mutual

private theorem map_placed (above : List Node) :
    (node : Node) → (node.placed above).map (·.node) = node.nodes
  | .declaration range children => by
      rw [placed, List.map_cons, map_placedAll, nodes_declaration]
  | .variantSpan range variant none => by
      rw [placed, nodes_variantSpan_none]
      rfl
  | .variantSpan range variant (some child) => by
      rw [placed, List.map_cons, map_placed, nodes_variantSpan_some]
  | .group range child closed important => by
      rw [placed, List.map_cons, map_placed, nodes_group]
  | .leaf item => by
      rw [placed, nodes_leaf]
      rfl

private theorem map_placedAll (above : List Node) : (children : List Node) →
    (placedAll above children).map (·.node) = children.flatMap nodes
  | [] => rfl
  | child :: rest => by
      rw [placedAll, List.map_append, map_placed, map_placedAll, List.flatMap_cons]

end

def identifier? : Node → Option Token
  | .variantSpan _ variant _ => some variant.identifier
  | _ => none

def isMarkedGroup : Node → Bool
  | .group _ _ _ important => important
  | _ => false

def isOpenGroup : Node → Bool
  | .group _ _ closed _ => !closed
  | _ => false

end Node

namespace Placed

def variants (place : Placed) : List Token :=
  place.above.filterMap Node.identifier?

def important (place : Placed) : Bool :=
  place.above.any Node.isMarkedGroup

def isHidden (place : Placed) : Bool :=
  place.above.any Node.isOpenGroup

/-- The item that a leaf is, which has to be closed, and so its opacity. -/
def item? (place : Placed) : Option Item :=
  match place.node with
  | .leaf leaf =>
      if leaf.closed && leaf.opacity?.all (·.closed) then
        some ⟨leaf.target, leaf.kind, place.variants, place.important || leaf.important, leaf.prop?,
          leaf.content?, leaf.opacity?.map (·.value)⟩
      else none
  | _ => none

/-- What is left open: a leaf or its opacity, a variant or a group. -/
def notClosed? (place : Placed) : Option Fault :=
  match place.node with
  | .leaf leaf =>
      if leaf.closed && leaf.opacity?.all (·.closed) then none
      else some ⟨leaf.target, leaf.kind, place.variants, place.important || leaf.important⟩
  | .variantSpan range variant _ =>
      if variant.closed then none
      else some ⟨range, variant.kind, place.variants, place.important⟩
  | .group range _ closed important =>
      if closed then none else some ⟨range, .group, place.variants, place.important || important⟩
  | .declaration _ _ => none

def emptyGroup? (place : Placed) : Option Fault :=
  match place.node with
  | .group range child closed important =>
      if closed && child.isBlank then
        some ⟨range, .group, place.variants, place.important || important⟩
      else none
  | _ => none

def emptyVariants? (place : Placed) : Option Fault :=
  match place.node with
  | .variantSpan _ variant none =>
      if variant.closed then some ⟨variant.range, variant.kind, place.variants, place.important⟩
      else none
  | _ => none

/-- What a node has to report: a leaf itself, a group that is open or blank, and a variant without
a body. -/
def report? (place : Placed) : Option Entry :=
  match place.node with
  | .leaf leaf =>
      let important := place.important || leaf.important
      if leaf.closed && leaf.opacity?.all (·.closed) then
        some (.item ⟨leaf.target, leaf.kind, place.variants, important, leaf.prop?, leaf.content?,
          leaf.opacity?.map (·.value)⟩)
      else some (.notClosed ⟨leaf.target, leaf.kind, place.variants, important⟩)
  | .group range child closed important =>
      let region := ⟨range, .group, place.variants, place.important || important⟩
      if !closed then some (.notClosed region)
      else if child.isBlank then some (.emptyGroup region)
      else none
  | .variantSpan range variant none =>
      if variant.closed then
        some (.emptyVariants ⟨variant.range, variant.kind, place.variants, place.important⟩)
      else some (.notClosed ⟨range, variant.kind, place.variants, place.important⟩)
  | .variantSpan _ _ (some _) => none
  | .declaration _ _ => none

/-- What stands in an open group is not reported. -/
def counted? (place : Placed) : Option Entry :=
  if place.isHidden then none else place.report?

private theorem counted?_of_visible {above : List Node}
    (visible : above.any Node.isOpenGroup = false)
    (node : Node) : (⟨above, node⟩ : Placed).counted? = (⟨above, node⟩ : Placed).report? := by
  rw [counted?, isHidden, visible]
  rfl

end Placed

/-! ### Spans -/

/-- Every variant takes some text, and one that is not closed has no body. -/
def Node.SoundSpans (node : Node) : Prop :=
  ∀ range variant child, .variantSpan range variant child ∈ node.nodes →
    variant.range.start < variant.range.stop ∧ (variant.closed = false → child = none)

theorem Node.SoundSpans.of_children {node : Node}
    (own : ∀ range variant child, node = .variantSpan range variant child →
      variant.range.start < variant.range.stop ∧ (variant.closed = false → child = none))
    (deeper : ∀ child ∈ node.children, child.SoundSpans) : node.SoundSpans := by
  intro range variant child member
  rcases (mem_nodes_iff _ _).1 member with same | ⟨below, isChild, later⟩
  · exact own range variant child same.symm
  · exact deeper below isChild range variant child later

theorem Node.SoundSpans.child {node child : Node} (sound : node.SoundSpans)
    (member : child ∈ node.children) : child.SoundSpans := by
  intro range variant body inside
  exact sound range variant body ((mem_nodes_iff _ _).2 (Or.inr ⟨child, member, inside⟩))

namespace Tree

variable {reading : Reading} {interior : Interior}

private theorem GroupAt.soundSpans (sound : ∀ offset cs, (interior offset cs).SoundSpans)
    {offset : Nat}
    {taken rest : List Char} {node : Node} (groupAt : GroupAt interior offset taken rest node) :
    node.SoundSpans := by
  cases groupAt with
  | opened _ _ =>
      apply Node.SoundSpans.of_children
      · intro range variant child same
        cases same
      · simpa [Node.children] using sound _ _
  | closed _ _ _ =>
      apply Node.SoundSpans.of_children
      · intro range variant child same
        cases same
      · simpa [Node.children] using sound _ _

private theorem soundSpans_span {separator text : List Char} {offset : Nat} {range : Token}
    {variant : Variant} {child : Option Node}
    (spelled : variant.Spelled separator offset text) (deeper : ∀ body ∈ child, body.SoundSpans) :
    (Node.variantSpan range variant child).SoundSpans := by
  apply Node.SoundSpans.of_children
  · intro other named body same
    cases same
    constructor
    · rw [spelled.range_eq]
      exact nonempty_ofChars _ spelled.ne_nil
    · intro opened
      cases spelled <;> cases opened
  · intro body member
    exact deeper body (by simpa [Node.children] using member)

private theorem NodeAt.soundSpans (sound : ∀ offset cs, (interior offset cs).SoundSpans)
    {offset : Nat}
    {taken rest : List Char} {node : Node}
    (nodeAt : NodeAt reading interior offset taken rest node) : node.SoundSpans := by
  cases nodeAt with
  | leaf _ =>
      apply Node.SoundSpans.of_children
      · intro range variant child same
        cases same
      · intro child member
        cases member
  | group groupAt => exact groupAt.soundSpans sound
  | span spelled spanAt =>
      cases spanAt with
      | empty _ =>
          apply soundSpans_span spelled
          intro body member
          cases member
      | group _ groupAt =>
          apply soundSpans_span spelled
          rintro body ⟨⟩
          exact groupAt.soundSpans sound
      | item _ _ _ _ _ _ =>
          apply soundSpans_span spelled
          rintro body ⟨⟩
          exact sound _ _
  | @openVariant value _ =>
      apply Node.SoundSpans.of_children
      · intro range variant child same
        cases same
        exact ⟨nonempty_ofChars offset (by simp), fun _ => rfl⟩
      · intro child member
        cases member

private theorem ItemsAt.soundSpans (sound : ∀ offset cs, (interior offset cs).SoundSpans)
    {offset : Nat}
    {cs : List Char} {nodes : List Node} (itemsAt : ItemsAt reading interior offset cs nodes) :
    ∀ node ∈ nodes, node.SoundSpans := by
  intro node member
  obtain ⟨_, _, _, _, nodeAt⟩ := itemsAt.exists_between node member
  exact nodeAt.soundSpans sound

private theorem soundSpans_collect {offset : Nat} {cs : List Char} {items : List Node}
    (sound : ∀ item ∈ items, item.SoundSpans) : (collect offset cs items).SoundSpans := by
  rcases collect_cases offset cs items with ⟨item, rfl⟩ | several
  · exact sound item List.mem_cons_self
  · rw [several]
    apply Node.SoundSpans.of_children
    · intro range variant child same
      cases same
    · exact sound

private theorem soundSpans_sequence (reading : Reading) (levels offset : Nat) (cs : List Char) :
    (sequence reading levels offset cs).SoundSpans := by
  induction levels generalizing offset cs with
  | zero =>
      rw [sequence]
      apply soundSpans_collect
      rcases remainder_cases offset cs with ⟨_, read⟩ | ⟨_, _, _, _, _, _, _, read⟩
      · simp [read]
      · rw [read]
        intro item member
        rw [List.mem_singleton.1 member]
        apply Node.SoundSpans.of_children
        · intro range variant child same
          cases same
        · intro child inside
          cases inside
  | succ levels ih =>
      obtain ⟨nodes, read, itemsAt⟩ :=
        @itemsAt_items reading _ (framed_sequence reading levels) offset cs []
      rw [sequence, read]
      exact soundSpans_collect (itemsAt.soundSpans ih)

theorem soundSpans_read (settings : Settings) (text : String) :
    (Tree.read settings text none).SoundSpans := by
  rw [Tree.read_eq]
  exact soundSpans_sequence _ _ _ _

end Tree

/-! ### Entries of nodes -/

namespace Entry

def scopeOf (above : List Node) : Scope :=
  ⟨above.filterMap Node.identifier?, above.any Node.isMarkedGroup⟩

theorem scopeOf_declaration (above : List Node) (range : Token) (children : List Node) :
    scopeOf (above ++ [.declaration range children]) = scopeOf above := by
  simp [scopeOf, Node.identifier?, Node.isMarkedGroup]

theorem scopeOf_variantSpan (above : List Node) (range : Token) (variant : Variant)
    (child : Option Node) :
    scopeOf (above ++ [.variantSpan range variant child]) = (scopeOf above).enter variant := by
  simp [scopeOf, Scope.enter, Node.identifier?, Node.isMarkedGroup]

theorem scopeOf_group (above : List Node) (range : Token) (child : Node) (closed important : Bool) :
    scopeOf (above ++ [Node.group range child closed important]) = (scopeOf above).mark important := by
  simp [scopeOf, Scope.mark, Node.identifier?, Node.isMarkedGroup]

/-- What the nodes of a tree report that stands in other nodes. -/
def entries (above : List Node) (node : Node) : List Entry :=
  (node.placed above).filterMap Placed.counted?

mutual

private theorem above_extends (above : List Node) :
    (node : Node) → ∀ place ∈ node.placed above, above <+: place.above
  | .declaration range children => by
      rw [Node.placed, List.forall_mem_cons]
      refine ⟨List.prefix_refl _, fun place member => ?_⟩
      exact (List.prefix_append _ _).trans (above_extendsAll _ children place member)
  | .variantSpan range variant none => by
      simp only [Node.placed, List.forall_mem_singleton]
      exact List.prefix_refl _
  | .variantSpan range variant (some child) => by
      rw [Node.placed, List.forall_mem_cons]
      refine ⟨List.prefix_refl _, fun place member => ?_⟩
      exact (List.prefix_append _ _).trans (above_extends _ child place member)
  | .group range child closed important => by
      rw [Node.placed, List.forall_mem_cons]
      refine ⟨List.prefix_refl _, fun place member => ?_⟩
      exact (List.prefix_append _ _).trans (above_extends _ child place member)
  | .leaf leaf => by
      simp only [Node.placed, List.forall_mem_singleton]
      exact List.prefix_refl _

private theorem above_extendsAll (above : List Node) :
    (children : List Node) → ∀ place ∈ Node.placedAll above children, above <+: place.above
  | [] => by simp [Node.placedAll]
  | child :: rest => by
      rw [Node.placedAll, List.forall_mem_append]
      exact ⟨above_extends above child, above_extendsAll above rest⟩

end

/-- An open group hides all that stands in it. -/
theorem entries_eq_nil {above : List Node} (hidden : above.any Node.isOpenGroup = true)
    (node : Node) : entries above node = [] := by
  rw [entries, List.filterMap_eq_nil_iff]
  intro place member
  obtain ⟨below, same⟩ := above_extends above node place member
  have covers : place.isHidden = true := by
    rw [Placed.isHidden, ← same, List.any_append, hidden, Bool.true_or]
  rw [Placed.counted?, if_pos covers]

section

variable {above : List Node} (visible : above.any Node.isOpenGroup = false)

include visible

private theorem entries_declaration (range : Token) (children : List Node) :
    entries above (.declaration range children) =
      children.flatMap (entries (above ++ [.declaration range children])) := by
  have silent := Placed.counted?_of_visible visible (.declaration range children)
  rw [entries, Node.placed, List.filterMap_cons_none silent, Node.placedAll_eq,
    List.filterMap_flatMap]
  rfl

private theorem entries_childless (range : Token) (variant : Variant) :
    entries above (.variantSpan range variant none) =
      [if variant.closed then .emptyVariants (fault (scopeOf above) variant.range variant.kind)
        else .notClosed (fault (scopeOf above) range variant.kind)] := by
  rw [entries, Node.placed, List.filterMap_cons, Placed.counted?_of_visible visible, Placed.report?]
  dsimp only
  cases variant.closed with
  | false => rfl
  | true => rfl

private theorem entries_variantSpan (range : Token) (variant : Variant) (child : Node) :
    entries above (.variantSpan range variant (some child)) =
      entries (above ++ [.variantSpan range variant (some child)]) child := by
  have silent := Placed.counted?_of_visible visible (.variantSpan range variant (some child))
  rw [entries, Node.placed, List.filterMap_cons_none silent]
  rfl

private theorem entries_group (range : Token) (child : Node) (closed important : Bool) :
    entries above (.group range child closed important) =
      if !closed then [.notClosed (fault ((scopeOf above).mark important) range .group)]
      else if child.isBlank then [.emptyGroup (fault ((scopeOf above).mark important) range .group)]
      else entries (above ++ [Node.group range child closed important]) child := by
  rw [entries, Node.placed, List.filterMap_cons, Placed.counted?_of_visible visible, Placed.report?]
  dsimp only
  cases closed with
  | false =>
      have covered : (above ++ [Node.group range child false important]).any Node.isOpenGroup = true := by
        simp [Node.isOpenGroup]
      have hidden := entries_eq_nil covered child
      rw [entries] at hidden
      rw [hidden]
      rfl
  | true =>
      cases blank : child.isBlank with
      | false => rfl
      | true =>
          cases child with
          | declaration inner items =>
              have none : items = [] := by simpa [Node.isBlank] using blank
              subst none
              have silent : (⟨above ++ [.group range (.declaration inner []) true important],
                  .declaration inner []⟩ : Placed).counted? = none := by
                rw [Placed.counted?]
                split <;> rfl
              rw [Node.placed, Node.placedAll, List.filterMap_cons_none silent]
              rfl
          | variantSpan => cases blank
          | group => cases blank
          | leaf => cases blank

private theorem entries_leaf (leaf : Leaf) :
    entries above (.leaf leaf) = [ofLeaf (scopeOf above) leaf] := by
  rw [entries, Node.placed, List.filterMap_cons, Placed.counted?_of_visible visible, Placed.report?,
    ofLeaf]
  dsimp only
  cases leaf.closed && leaf.opacity?.all (·.closed) with
  | false => rfl
  | true => rfl

end

mutual

/-- Flattening finds what the nodes report. -/
theorem gather_eq {above : List Node} (visible : above.any Node.isOpenGroup = false)
    (found : List Entry) : (node : Node) → node.AllProper → node.SoundSpans →
      gather (scopeOf above) found node = (entries above node).reverse ++ found
  | .declaration range children, proper, sound => by
      rw [gather, entries_declaration visible, ← scopeOf_declaration above range children]
      exact gatherAll_eq (by simpa [Node.isOpenGroup] using visible) found children
        (fun child member => proper.child member) (fun child member => sound.child member)
  | .variantSpan range variant none, proper, sound => by
      rw [gather, entries_childless visible]
      rfl
  | .variantSpan range variant (some child), proper, sound => by
      have shape : Node.ProperSpan range variant (some child) :=
        (proper _ (Node.mem_nodes_self _)).1
      have closed : variant.closed = true := by
        cases opened : variant.closed with
        | true => rfl
        | false =>
            have childless := (sound _ _ _ (Node.mem_nodes_self _)).2 opened
            cases childless
      rw [gather, entries_variantSpan visible, closed, shape.solid child rfl,
        ← scopeOf_variantSpan above range variant (some child)]
      exact gather_eq (by simpa [Node.isOpenGroup] using visible) found child
        (proper.child (by simp [Node.children])) (sound.child (by simp [Node.children]))
  | .group range child closed important, proper, sound => by
      rw [gather, entries_group visible]
      cases closed with
      | false => rfl
      | true =>
          cases blank : child.isBlank with
          | true => rfl
          | false =>
              simp only [Bool.not_true, Bool.false_eq_true, if_false]
              rw [← scopeOf_group above range child true important]
              exact gather_eq (by simpa [Node.isOpenGroup] using visible) found child
                (proper.child (by simp [Node.children])) (sound.child (by simp [Node.children]))
  | .leaf leaf, proper, sound => by
      rw [gather, entries_leaf visible]
      rfl

private theorem gatherAll_eq {above : List Node} (visible : above.any Node.isOpenGroup = false)
    (found : List Entry) : (children : List Node) → (∀ child ∈ children, child.AllProper) →
      (∀ child ∈ children, child.SoundSpans) →
      gatherAll (scopeOf above) found children =
        (children.flatMap (entries above)).reverse ++ found
  | [], _, _ => by
      rw [gatherAll]
      rfl
  | child :: rest, proper, sound => by
      rw [List.forall_mem_cons] at proper sound
      rw [gatherAll, gather_eq visible found child proper.1 sound.1,
        gatherAll_eq visible _ rest proper.2 sound.2, List.flatMap_cons, List.reverse_append,
        List.append_assoc]

end

/-! ### Where entries stand -/

def target : Entry → Token
  | .item value => value.target
  | .notClosed region => region.target
  | .emptyGroup region => region.target
  | .emptyVariants region => region.target

private theorem target_ofLeaf (scope : Scope) (leaf : Leaf) :
    (ofLeaf scope leaf).target = leaf.target := by
  unfold ofLeaf
  split <;> rfl

/-- Entries of a stretch of text: each takes a part of it that is not empty, and they stand there
one behind the other. -/
structure Within (range : Token) (found : List Entry) : Prop where
  nonempty : ∀ entry ∈ found, entry.target.start < entry.target.stop
  inside : ∀ entry ∈ found, entry.target.PartOf range
  ordered : found.Pairwise (fun left right => left.target.stop ≤ right.target.start)

theorem Within.single {range : Token} {entry : Entry}
    (nonempty : entry.target.start < entry.target.stop) (inside : entry.target.PartOf range) :
    Within range [entry] := by
  constructor
  · simpa using nonempty
  · simpa using inside
  · exact List.pairwise_singleton _ _

theorem Within.widen {inner outer : Token} {found : List Entry} (within : Within inner found)
    (part : inner.PartOf outer) : Within outer found :=
  ⟨within.nonempty, fun entry member => (within.inside entry member).trans part, within.ordered⟩

theorem Within.flatMap {range : Token} {children : List Node} {found : Node → List Entry}
    (shape : Node.ProperItems range children)
    (within : ∀ child ∈ children, Within child.range (found child)) :
    Within range (children.flatMap found) := by
  constructor
  · intro entry member
    obtain ⟨child, isChild, inside⟩ := List.mem_flatMap.1 member
    exact (within child isChild).nonempty entry inside
  · intro entry member
    obtain ⟨child, isChild, inside⟩ := List.mem_flatMap.1 member
    exact ((within child isChild).inside entry inside).trans (shape.inside child isChild)
  · rw [List.pairwise_flatMap]
    refine ⟨fun child member => (within child member).ordered, ?_⟩
    apply shape.ordered.imp_of_mem
    intro left right isLeft isRight apart first inFirst second inSecond
    have before := ((within left isLeft).inside first inFirst).stop_le
    have behind := ((within right isRight).inside second inSecond).start_le
    omega

private theorem nonempty_group {range : Token} {child : Node} {closed important : Bool}
    (shape : Node.ProperGroup range child closed important) : range.start < range.stop := by
  obtain ⟨lead, inside, trail, _, _, text, _⟩ := shape.delimited
  have openerSize : Char.utf8Size '(' = 1 := rfl
  rw [range.stop_eq, text, byteLength_append, byteLength_append, byteLength_cons]
  omega

/-- The entries of a node take parts of it, in order. -/
theorem within_entries {above : List Node} (visible : above.any Node.isOpenGroup = false) :
    (node : Node) → node.AllProper → node.SoundSpans → Within node.range (entries above node)
  | .declaration range children, proper, sound => by
      have shape : Node.ProperItems range children := (proper _ (Node.mem_nodes_self _)).1
      rw [entries_declaration visible]
      apply Within.flatMap shape
      intro child member
      exact within_entries (by simpa [Node.isOpenGroup] using visible) child (proper.child member)
        (sound.child member)
  | .variantSpan range variant none, proper, sound => by
      have shape : Node.ProperSpan range variant none := (proper _ (Node.mem_nodes_self _)).1
      have nonempty := (sound _ _ _ (Node.mem_nodes_self _)).1
      have alone := shape.alone rfl
      rw [entries_childless visible]
      apply Within.single
      · split
        · exact nonempty
        · rw [← alone] at nonempty
          exact nonempty
      · split
        · exact shape.leading
        · exact Token.PartOf.refl _
  | .variantSpan range variant (some child), proper, sound => by
      have inside := (proper _ (Node.mem_nodes_self _)).2 child (by simp [Node.children])
      have deeper : (above ++ [Node.variantSpan range variant (some child)]).any Node.isOpenGroup = false := by
        simpa [Node.isOpenGroup] using visible
      have below := within_entries deeper child
        (proper.child (by simp [Node.children])) (sound.child (by simp [Node.children]))
      rw [entries_variantSpan visible]
      exact below.widen inside
  | .group range child closed important, proper, sound => by
      obtain ⟨shape, inside⟩ := proper _ (Node.mem_nodes_self _)
      have nonempty := nonempty_group shape
      rw [entries_group visible]
      split
      · exact Within.single nonempty (Token.PartOf.refl _)
      next closes =>
        split
        · exact Within.single nonempty (Token.PartOf.refl _)
        · have deeper : (above ++ [Node.group range child closed important]).any Node.isOpenGroup =
              false := by
            simpa [Node.isOpenGroup, visible] using closes
          have below := within_entries deeper child
            (proper.child (by simp [Node.children])) (sound.child (by simp [Node.children]))
          exact below.widen (inside child (by simp [Node.children]))
  | .leaf leaf, proper, sound => by
      have shape : leaf.Proper := (proper _ (Node.mem_nodes_self _)).1
      rw [entries_leaf visible]
      apply Within.single
      · rw [target_ofLeaf]
        exact shape.nonempty
      · rw [target_ofLeaf]
        exact shape.inside

end Entry

namespace Spread

def targets (spread : Spread) : List Token :=
  spread.items.map (·.target) ++ spread.notClosed.map (·.target) ++
    spread.emptyGroup.map (·.target) ++ spread.emptyVariants.map (·.target)

private theorem targets_perm (entries : List Entry) :
    (ofEntries entries).targets.Perm (entries.map Entry.target) := by
  induction entries with
  | nil => rfl
  | cons entry rest ih =>
      rw [List.map_cons]
      refine List.Perm.trans ?_ (List.Perm.cons _ ih)
      unfold ofEntries targets
      cases entry with
      | item value => rfl
      | notClosed region =>
          simp only [List.append_assoc]
          exact List.perm_middle
      | emptyGroup region =>
          simp only [List.append_assoc _ (List.map _ (List.filterMap Entry.emptyGroup? _))]
          exact List.perm_middle
      | emptyVariants region => exact List.perm_middle

def Apart (left right : Token) : Prop :=
  left.stop ≤ right.start ∨ right.stop ≤ left.start

section

variable {entries : List Entry}
  (nonempty : ∀ entry ∈ entries, entry.target.start < entry.target.stop)
  (ordered : entries.Pairwise (fun left right => left.target.stop ≤ right.target.start))

include nonempty in
private theorem nonempty_targets :
    ∀ target ∈ (ofEntries entries).targets, target.start < target.stop := by
  intro target member
  obtain ⟨entry, isEntry, rfl⟩ := List.mem_map.1 ((targets_perm entries).mem_iff.1 member)
  exact nonempty entry isEntry

include ordered in
private theorem apart_targets : (ofEntries entries).targets.Pairwise Apart := by
  rw [(targets_perm entries).pairwise_iff fun apart => apart.symm, List.pairwise_map]
  exact ordered.imp Or.inl

include nonempty ordered in
private theorem increasing_filterMap {α : Type} {select : Entry → Option α} {place : α → Token}
    (same : ∀ entry value, select entry = some value → place value = entry.target) :
    ((entries.filterMap select).map place).Pairwise (fun left right => left.start < right.start) := by
  rw [List.pairwise_map, List.pairwise_filterMap]
  apply ordered.imp_of_mem
  intro left right isLeft _ before first isFirst second isSecond
  have positive := nonempty left isLeft
  rw [same left first isFirst, same right second isSecond]
  omega

end

theorem ofText_eq (settings : Settings) (text : String) :
    ofText settings text = ofEntries (Entry.entries [] (Tree.read settings text none)) := by
  have found := @Entry.gather_eq [] rfl [] _ (Tree.allProper_read settings text none)
    (Tree.soundSpans_read settings text)
  change ofEntries (Entry.gather (Entry.scopeOf []) [] _).reverse = _
  rw [found, List.append_nil, List.reverse_reverse]

section

variable {node : Node}

/-- What is selected of the entries of a tree is what its places have of that kind. -/
theorem filterMap_entries {α : Type} {select : Entry → Option α} {take : Placed → Option α}
    (same : ∀ place ∈ node.placed [], place.report?.bind select = take place) :
    (Entry.entries [] node).filterMap select =
      ((node.placed []).filter fun place => !place.isHidden).filterMap take := by
  rw [Entry.entries, List.filterMap_filterMap, List.filterMap_filter]
  apply List.filterMap_congr
  intro place member
  rw [← same place member, Placed.counted?]
  cases place.isHidden <;> rfl

/-- What a place reports is what it has of some kind. That a variant which is left open has no body
is known of the trees of texts. -/
theorem select_report? (sound : node.SoundSpans) {place : Placed}
    (member : place ∈ node.placed []) :
    place.report?.bind Entry.item? = place.item? ∧
      place.report?.bind Entry.notClosed? = place.notClosed? ∧
      place.report?.bind Entry.emptyGroup? = place.emptyGroup? ∧
      place.report?.bind Entry.emptyVariants? = place.emptyVariants? := by
  have inside : place.node ∈ node.nodes := by
    rw [← Node.map_placed []]
    exact List.mem_map_of_mem member
  obtain ⟨above, below⟩ := place
  unfold Placed.report? Placed.item? Placed.notClosed? Placed.emptyGroup? Placed.emptyVariants?
  cases below with
  | declaration range children => exact ⟨rfl, rfl, rfl, rfl⟩
  | variantSpan range variant child =>
      have childless := (sound range variant child inside).2
      cases child with
      | none => dsimp only; split <;> exact ⟨rfl, rfl, rfl, rfl⟩
      | some child =>
          cases closed : variant.closed with
          | false => cases childless closed
          | true => simp [closed]
  | group range child closed important =>
      dsimp only
      cases closed with
      | false => exact ⟨rfl, rfl, rfl, rfl⟩
      | true => cases child.isBlank <;> exact ⟨rfl, rfl, rfl, rfl⟩
  | leaf leaf => dsimp only; split <;> exact ⟨rfl, rfl, rfl, rfl⟩

end

/-- Flattening a text reports each node of its tree that is to be reported once and nothing else,
with the variants and groups around it: leaves, what is left open, blank groups and variants without
a body. Nothing is reported of what stands in an open group. What is reported is not empty, no two
of it share anything, and each list of it stands in the order of the text. -/
theorem ofText_accounts (settings : Settings) (text : String) :
    let spread := ofText settings text
    let places :=
      ((Tree.read settings text none).placed []).filter fun place => !place.isHidden
    let increasing (tokens : List Token) :=
      tokens.Pairwise (fun left right => left.start < right.start)
    spread.items = places.filterMap Placed.item? ∧
      spread.notClosed = places.filterMap Placed.notClosed? ∧
      spread.emptyGroup = places.filterMap Placed.emptyGroup? ∧
      spread.emptyVariants = places.filterMap Placed.emptyVariants? ∧
      (∀ target ∈ spread.targets, target.start < target.stop) ∧
      spread.targets.Pairwise Apart ∧
      increasing (spread.items.map (·.target)) ∧ increasing (spread.notClosed.map (·.target)) ∧
      increasing (spread.emptyGroup.map (·.target)) ∧
      increasing (spread.emptyVariants.map (·.target)) := by
  intro spread places increasing
  have found : spread = ofEntries (Entry.entries [] (Tree.read settings text none)) :=
    ofText_eq settings text
  have sound := Tree.soundSpans_read settings text
  obtain ⟨nonempty, _, ordered⟩ := @Entry.within_entries [] rfl _
    (Tree.allProper_read settings text none) sound
  rw [found]
  refine ⟨filterMap_entries fun place member => (select_report? sound member).1,
    filterMap_entries fun place member => (select_report? sound member).2.1,
    filterMap_entries fun place member => (select_report? sound member).2.2.1,
    filterMap_entries fun place member => (select_report? sound member).2.2.2,
    nonempty_targets nonempty, apart_targets ordered, ?_, ?_, ?_, ?_⟩
  all_goals
    apply increasing_filterMap nonempty ordered
    intro entry value selected
    cases entry <;> cases selected
    rfl

end Spread

end ClassExpr
