import ClassExpr.Proofs.Query.Hover
import ClassExpr.Spread

set_option autoImplicit false

/-! Flattening walks down through sequences, closed groups and closed variants, and so do the
queries at a position. Whatever it finds it finds at a node that it reaches so. A position in a leaf
that is reached leads to that leaf, in the scope that flattening has there; and such a leaf is still
there where reading ends behind its start. -/

namespace ClassExpr

open Text

/-- A node that flattening reaches from another one, with the scopes at both. -/
inductive Reaches : Scope → Node → Scope → Node → Prop
  | here {scope : Scope} {node : Node} : Reaches scope node scope node
  | item {scope inner : Scope} {range : Token} {children : List Node} {child target : Node}
      (member : child ∈ children) (below : Reaches scope child inner target) :
      Reaches scope (.declaration range children) inner target
  | span {scope inner : Scope} {range : Token} {variant : Variant} {child target : Node}
      (below : Reaches (scope.enter variant) child inner target) :
      Reaches scope (.variantSpan range variant (some child)) inner target
  | group {scope inner : Scope} {range : Token} {child target : Node} {important : Bool}
      (below : Reaches (scope.mark important) child inner target) :
      Reaches scope (.group range child true important) inner target

structure Item.Describes (item : Item) (scope : Scope) (leaf : Leaf) : Prop where
  target : leaf.target = item.target
  kind : leaf.kind = item.kind
  variants : scope.variants = item.variants
  important : (scope.important || leaf.important) = item.important
  prop : leaf.prop? = item.prop
  content : leaf.content? = item.content

inductive Entry.At (scope : Scope) : Entry → Node → Prop
  | leaf {leaf : Leaf} : At scope (ofLeaf scope leaf) (.leaf leaf)
  | bare {range : Token} {variant : Variant} {child : Option Node}
      (blank : ∀ body ∈ child, body.isBlank = true) :
      At scope (.emptyVariants (fault scope variant.range variant.kind))
        (.variantSpan range variant child)
  | unclosed {range : Token} {variant : Variant} {child : Option Node}
      (opened : variant.closed = false) :
      At scope (.notClosed (fault scope range variant.kind)) (.variantSpan range variant child)
  | openGroup {range : Token} {child : Node} {important : Bool} :
      At scope (.notClosed (fault (scope.mark important) range .group))
        (.group range child false important)
  | emptyGroup {range : Token} {child : Node} {important : Bool} (blank : child.isBlank = true) :
      At scope (.emptyGroup (fault (scope.mark important) range .group))
        (.group range child true important)

namespace Entry

private theorem describes_of_ofLeaf {scope : Scope} {leaf : Leaf} {item : Item}
    (found : ofLeaf scope leaf = .item item) : item.Describes scope leaf := by
  unfold ofLeaf at found
  split at found
  · cases found
    exact ⟨rfl, rfl, rfl, rfl, rfl, rfl⟩
  · cases found

mutual

/-- Every entry that a node adds is found at a node that is reached from it. -/
theorem reaches_of_mem_gather {scope : Scope} {found : List Entry} {entry : Entry} :
    (node : Node) → entry ∈ gather scope found node →
      entry ∈ found ∨ ∃ inner target, Reaches scope node inner target ∧ entry.At inner target
  | .declaration range children, member => by
      rw [gather] at member
      rcases reaches_of_mem_gatherAll children member with earlier | ⟨child, isChild, inner, target,
        below, isAt⟩
      · exact Or.inl earlier
      · exact Or.inr ⟨inner, target, Reaches.item isChild below, isAt⟩
  | .variantSpan range variant none, member => by
      rw [gather] at member
      rcases List.mem_cons.1 member with rfl | earlier
      · cases opened : variant.closed with
        | true => exact Or.inr ⟨scope, _, Reaches.here, At.bare (by simp)⟩
        | false => exact Or.inr ⟨scope, _, Reaches.here, At.unclosed opened⟩
      · exact Or.inl earlier
  | .variantSpan range variant (some child), member => by
      rw [gather] at member
      split at member
      next opened =>
        rcases List.mem_cons.1 member with rfl | earlier
        · exact Or.inr ⟨scope, _, Reaches.here, At.unclosed (by simpa using opened)⟩
        · exact Or.inl earlier
      next =>
        split at member
        next blank =>
          rcases List.mem_cons.1 member with rfl | earlier
          · exact Or.inr ⟨scope, _, Reaches.here, At.bare (by simpa using blank)⟩
          · exact Or.inl earlier
        next =>
          rcases reaches_of_mem_gather child member with earlier | ⟨inner, target, below, isAt⟩
          · exact Or.inl earlier
          · exact Or.inr ⟨inner, target, Reaches.span below, isAt⟩
  | .group range child closed important, member => by
      rw [gather] at member
      cases closed with
      | false =>
          rcases List.mem_cons.1 member with rfl | earlier
          · exact Or.inr ⟨scope, _, Reaches.here, At.openGroup⟩
          · exact Or.inl earlier
      | true =>
          simp only [Bool.not_true, Bool.false_eq_true, if_false] at member
          split at member
          next blank =>
            rcases List.mem_cons.1 member with rfl | earlier
            · exact Or.inr ⟨scope, _, Reaches.here, At.emptyGroup blank⟩
            · exact Or.inl earlier
          next =>
            rcases reaches_of_mem_gather child member with earlier | ⟨inner, target, below, isAt⟩
            · exact Or.inl earlier
            · exact Or.inr ⟨inner, target, Reaches.group below, isAt⟩
  | .leaf leaf, member => by
      rw [gather] at member
      rcases List.mem_cons.1 member with rfl | earlier
      · exact Or.inr ⟨scope, _, Reaches.here, At.leaf⟩
      · exact Or.inl earlier

private theorem reaches_of_mem_gatherAll {scope : Scope} {found : List Entry} {entry : Entry} :
    (children : List Node) → entry ∈ gatherAll scope found children →
      entry ∈ found ∨ ∃ child ∈ children, ∃ inner target, Reaches scope child inner target ∧
        entry.At inner target
  | [], member => by
      rw [gatherAll] at member
      exact Or.inl member
  | child :: rest, member => by
      rw [gatherAll] at member
      rcases reaches_of_mem_gatherAll rest member with first | ⟨other, isChild, later⟩
      · rcases reaches_of_mem_gather child first with earlier | below
        · exact Or.inl earlier
        · exact Or.inr ⟨child, List.mem_cons_self, below⟩
      · exact Or.inr ⟨other, List.mem_cons_of_mem child isChild, later⟩

end

end Entry

/-- Every item of an expression describes a leaf that is reached from the root. -/
theorem Spread.reaches {settings : Settings} {text : String} {item : Item}
    (member : item ∈ (ofText settings text).items) :
    ∃ scope leaf, Reaches {} (Tree.read settings text none) scope (.leaf leaf) ∧
      item.Describes scope leaf := by
  obtain ⟨entry, found, isItem⟩ := List.mem_filterMap.1 member
  have same : entry = .item item := by
    cases entry <;> simp_all [Entry.item?]
  rw [List.mem_reverse] at found
  obtain ⟨scope, target, reaches, isAt⟩ :=
    (Entry.reaches_of_mem_gather _ found).resolve_left List.not_mem_nil
  cases isAt with
  | leaf => exact ⟨scope, _, reaches, Entry.describes_of_ofLeaf same⟩
  | _ => cases same

variable {scope inner : Scope} {node target : Node} {leaf : Leaf} {position : Nat}

theorem Reaches.mem_nodes (reaches : Reaches scope node inner target) : target ∈ node.nodes := by
  induction reaches with
  | here => exact Node.mem_nodes_self _
  | item member _ ih => exact (Node.mem_nodes_iff _ _).2 (Or.inr ⟨_, member, ih⟩)
  | span _ ih => exact (Node.mem_nodes_iff _ _).2 (Or.inr ⟨_, by simp [Node.children], ih⟩)
  | group _ ih => exact (Node.mem_nodes_iff _ _).2 (Or.inr ⟨_, by simp [Node.children], ih⟩)

theorem Reaches.inside (reaches : Reaches scope node inner target) (proper : node.AllProper) :
    target.range.PartOf node.range :=
  proper.inside _ reaches.mem_nodes

theorem Reaches.partOf (reaches : Reaches scope node inner (.leaf leaf)) (proper : node.AllProper) :
    leaf.range.PartOf node.range :=
  reaches.inside proper

theorem Reaches.target_partOf (reaches : Reaches scope node inner (.leaf leaf))
    (proper : node.AllProper) : leaf.target.PartOf leaf.range := by
  have shape : leaf.Proper := (proper _ reaches.mem_nodes).1
  exact shape.inside

private theorem reaches_collect_iff {offset : Nat} {cs : List Char} {items : List Node}
    (item : target.kind ≠ .declaration) :
    Reaches scope (Tree.collect offset cs items) inner target ↔
      ∃ item ∈ items, Reaches scope item inner target := by
  rcases Tree.collect_cases offset cs items with ⟨item, rfl⟩ | several
  · simp [Tree.collect]
  · rw [several]
    constructor
    · intro reaches
      cases reaches with
      | here => exact absurd rfl item
      | item member below => exact ⟨_, member, below⟩
    · rintro ⟨item, member, below⟩
      exact Reaches.item member below

/-- A node with nothing in it that starts in front of the limit is reached under the limit as
well. -/
theorem Reaches.kept {cut : Node} (reaches : Reaches scope node inner target)
    (pruned : Tree.Pruned position node cut) (proper : node.AllProper)
    (item : target.kind ≠ .declaration) (childless : target.children = [])
    (before : target.range.start ≤ position) : Reaches scope cut inner target := by
  induction pruned generalizing scope with
  | whole _ => exact reaches
  | group _ ih =>
      cases reaches with
      | here => cases childless
      | group below => exact Reaches.group (ih below (proper.child (by simp [Node.children])))
  | span _ _ ih =>
      cases reaches with
      | here => cases childless
      | span below => exact Reaches.span (ih below (proper.child (by simp [Node.children])))
  | ended _ ahead _ =>
      obtain ⟨child, member, below⟩ := (reaches_collect_iff item).1 reaches
      have start := (below.inside (proper.of_collect child member)).start_le
      rcases List.mem_append.1 member with read | later
      · exact (reaches_collect_iff item).2 ⟨child, read, below⟩
      · have behind := ahead child later
        omega
  | @last offset cs read later node cut _ _ _ ahead _ ih =>
      obtain ⟨child, member, below⟩ := (reaches_collect_iff item).1 reaches
      have start := (below.inside (proper.of_collect child member)).start_le
      rcases List.mem_append.1 member with earlier | passing
      · exact (reaches_collect_iff item).2 ⟨child, List.mem_append_left _ earlier, below⟩
      · rcases List.mem_cons.1 passing with rfl | behind
        · have within := ih below (proper.of_collect child member)
          exact (reaches_collect_iff item).2 ⟨cut, by simp, within⟩
        · have far := ahead child behind
          omega

/-- A leaf that starts in front of the limit is reached under the limit as well. -/
theorem Reaches.pruned {cut : Node} (reaches : Reaches scope node inner (.leaf leaf))
    (pruned : Tree.Pruned position node cut) (proper : node.AllProper)
    (before : leaf.range.start ≤ position) : Reaches scope cut inner (.leaf leaf) :=
  reaches.kept pruned proper (by cases leaf <;> simp [Node.kind, Leaf.kind]) rfl before

namespace Hover

private theorem resolveFirst_of_mem {nodes : List Node} (member : node ∈ nodes)
    (ordered : nodes.Pairwise (fun left right => left.range.stop ≤ right.range.start))
    (inside : node.range.contains position = true) :
    resolveFirst position scope nodes = resolve position scope node := by
  induction nodes with
  | nil => cases member
  | cons first rest ih =>
      rw [List.pairwise_cons] at ordered
      rw [resolveFirst_cons]
      rcases List.mem_cons.1 member with rfl | later
      · rw [if_pos inside]
      · have outside : first.range.contains position = false := by
          have apart := ordered.1 node later
          rw [Token.contains_iff] at inside
          rw [Token.not_contains_iff]
          omega
        rw [outside]
        exact ih later ordered.2

/-- A position in a leaf that flattening reaches leads to that leaf in its scope. -/
theorem resolve_of_reaches (reaches : Reaches scope node inner (.leaf leaf))
    (proper : node.AllProper) (inside : leaf.range.contains position = true) :
    resolve position scope node = some (ofLeaf inner leaf) := by
  have within := (reaches.partOf proper).contains inside
  generalize found : Node.leaf leaf = target at reaches
  induction reaches with
  | here =>
      subst found
      rw [resolve_leaf, if_pos inside]
  | @item scope inner range children child target member below ih =>
      have shape : Node.ProperItems range children := (proper _ (Node.mem_nodes_self _)).1
      have deeper : child.AllProper := proper.child (by exact member)
      subst found
      have attached := (below.partOf deeper).contains inside
      rw [resolve_declaration, if_pos (by exact within),
        resolveFirst_of_mem member shape.ordered attached]
      exact ih deeper attached rfl
  | @span scope inner range variant child target below ih =>
      have shape : Node.ProperSpan range variant (some child) := (proper _ (Node.mem_nodes_self _)).1
      have deeper : child.AllProper := proper.child (by simp [Node.children])
      subst found
      have attached := (below.partOf deeper).contains inside
      have behind : variant.range.contains position = false := by
        have start := shape.attached child rfl
        rw [Token.contains_iff, start] at attached
        rw [Token.not_contains_iff]
        omega
      rw [resolve_variantSpan, show range.contains position = true from within, behind]
      exact ih deeper attached rfl
  | @group scope inner range child target important below ih =>
      have deeper : child.AllProper := proper.child (by simp [Node.children])
      subst found
      have attached := (below.partOf deeper).contains inside
      rw [resolve_group, if_pos (by exact within)]
      simp only [ih deeper attached rfl, Option.getD_some]

private theorem ofLeaf_eq {item : Item} (describes : item.Describes scope leaf) :
    ofLeaf scope leaf =
      ⟨item.target, item.kind, item.variants, item.important, item.prop, item.content⟩ := by
  rw [ofLeaf, describes.target, describes.kind, describes.variants, describes.important,
    describes.prop, describes.content]

/-- Under the target of an item there is that item. -/
theorem atPosition?_item (settings : Settings) (text : String) {item : Item} {position : Nat}
    (member : item ∈ (Spread.ofText settings text).items) (start : item.target.start ≤ position)
    (stop : position < item.target.stop) :
    atPosition? settings text position =
      some ⟨item.target, item.kind, item.variants, item.important, item.prop, item.content⟩ := by
  obtain ⟨scope, leaf, reaches, describes⟩ := Spread.reaches member
  have proper := Tree.allProper_read settings text none
  have inside : leaf.range.contains position = true := by
    refine (reaches.target_partOf proper).contains ?_
    rw [describes.target, Token.contains_iff]
    exact ⟨start, stop⟩
  have within : position < text.utf8ByteSize := by
    have bound := ((Token.contains_iff _ _).1 inside).2
    have leafStop := (reaches.partOf proper).stop_le
    have rootStop := (Tree.read_partOf settings text none).stop_le
    rw [Token.stop_ofChars, ← utf8ByteSize_ofList, String.ofList_toList] at rootStop
    omega
  have pruned := (Tree.pruned_read settings text position).resolve_eq proper
    (Tree.allProper_read settings text (some position)) {}
  rw [atPosition?, if_neg (by omega), pruned, resolve_of_reaches reaches proper inside,
    ofLeaf_eq describes]

/-- Inside a bracket in a marked group behind a variant. -/
theorem atPosition?_item_nested :
    ⟨⟨9, "w-[a]"⟩, .arbitraryStyle, [⟨0, "md"⟩], true, some ⟨9, "w-"⟩, some ⟨12, "a"⟩, none⟩ ∈
        (Spread.ofText {} "md:!(p-1 w-[a])").items ∧
      (⟨9, "w-[a]"⟩ : Token).start ≤ 13 ∧ 13 < (⟨9, "w-[a]"⟩ : Token).stop ∧
      atPosition? {} "md:!(p-1 w-[a])" 13 = some ⟨⟨9, "w-[a]"⟩, .arbitraryStyle, [⟨0, "md"⟩], true,
        some ⟨9, "w-"⟩, some ⟨12, "a"⟩⟩ :=
  have member : ⟨⟨9, "w-[a]"⟩, .arbitraryStyle, [⟨0, "md"⟩], true, some ⟨9, "w-"⟩, some ⟨12, "a"⟩,
      none⟩ ∈ (Spread.ofText {} "md:!(p-1 w-[a])").items := by decide +kernel
  ⟨member, by decide, by decide, atPosition?_item {} _ member (by decide) (by decide)⟩

end Hover

end ClassExpr
