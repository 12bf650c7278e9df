import ClassExpr.Completion
import ClassExpr.Hover
import ClassExpr.Proofs.Entry

set_option autoImplicit false

/-! How deep a tree nests. A level down is entered by a group, by the body of a variant, or by a
group that a variant applies to, so a path down the tree has at most one variant and one group for
each level, and a sequence in front of them. Whatever is found in a tree stands at one of its
places, and its variants are those on the path there. -/

namespace ClassExpr

open Text

namespace Node

def isSpan : Node → Bool
  | .variantSpan .. => true
  | _ => false

def isGroup : Node → Bool
  | .group .. => true
  | _ => false

private theorem isSome_identifier? (node : Node) : node.identifier?.isSome = node.isSpan := by
  cases node <;> rfl

theorem mem_placed_iff (above : List Node) (node : Node) (place : Placed) :
    place ∈ node.placed above ↔
      place = ⟨above, node⟩ ∨ ∃ child ∈ node.children, place ∈ child.placed (above ++ [node]) := by
  cases node with
  | declaration range items =>
      rw [placed, List.mem_cons, placedAll_eq, List.mem_flatMap, children]
  | variantSpan range variant child =>
      cases child with
      | none => simp [placed, children]
      | some child => simp [placed, children]
  | group range child closed important => simp [placed, children]
  | leaf item => simp [placed, children]

private theorem mem_placed_self (above : List Node) (node : Node) :
    ⟨above, node⟩ ∈ node.placed above :=
  (mem_placed_iff above node _).2 (Or.inl rfl)

private theorem mem_placed_of_child {above : List Node} {node child : Node} {place : Placed}
    (isChild : child ∈ node.children) (inside : place ∈ child.placed (above ++ [node])) :
    place ∈ node.placed above :=
  (mem_placed_iff above node place).2 (Or.inr ⟨child, isChild, inside⟩)

end Node

/-- The nodes from the root of a tree down to a node of it. -/
def Placed.path (place : Placed) : List Node :=
  place.above ++ [place.node]

/-- At most so many variants, groups and nodes are on every path down from a node. -/
def Node.Nests (spans groups size : Nat) (node : Node) : Prop :=
  ∀ above, ∀ place ∈ node.placed above, ∃ below, place.path = above ++ below ∧
    below.countP isSpan ≤ spans ∧ below.countP isGroup ≤ groups ∧ below.length ≤ size

namespace Node

variable {spans groups size : Nat} {node : Node}

theorem Nests.mono (nests : node.Nests spans groups size) {moreSpans moreGroups larger : Nat}
    (fewer : spans ≤ moreSpans) (less : groups ≤ moreGroups) (smaller : size ≤ larger) :
    node.Nests moreSpans moreGroups larger := by
  intro above place member
  obtain ⟨below, path, spans, groups, length⟩ := nests above place member
  exact ⟨below, path, Nat.le_trans spans fewer, Nat.le_trans groups less,
    Nat.le_trans length smaller⟩

theorem Nests.of_children (deeper : ∀ child ∈ node.children, child.Nests spans groups size) :
    node.Nests (spans + node.isSpan.toNat) (groups + node.isGroup.toNat) (size + 1) := by
  intro above place member
  rcases (mem_placed_iff above node place).1 member with rfl | ⟨child, isChild, inside⟩
  · refine ⟨[node], rfl, ?_, ?_, ?_⟩
    · rw [List.countP_singleton]
      cases node.isSpan <;> simp
    · rw [List.countP_singleton]
      cases node.isGroup <;> simp
    · exact Nat.le_add_left 1 size
  · obtain ⟨below, path, fewSpans, fewGroups, short⟩ :=
      deeper child isChild (above ++ [node]) place inside
    refine ⟨node :: below, by rw [path, List.append_assoc, List.singleton_append], ?_, ?_, ?_⟩
    · rw [List.countP_cons]
      cases node.isSpan <;> simp <;> omega
    · rw [List.countP_cons]
      cases node.isGroup <;> simp <;> omega
    · exact Nat.succ_le_succ short

private theorem Nests.of_childless (none : node.children = []) : node.Nests 1 1 1 := by
  have alone : node.Nests (0 + node.isSpan.toNat) (0 + node.isGroup.toNat) (0 + 1) :=
    of_children (by simp [none])
  apply alone.mono
  · rw [Nat.zero_add]
    exact Bool.toNat_le node.isSpan
  · rw [Nat.zero_add]
    exact Bool.toNat_le node.isGroup
  · exact Nat.le_refl _

end Node

/-! ### Trees -/

namespace Tree

variable {reading : Reading} {interior : Interior} {spans groups size : Nat}

section

variable (deeper : ∀ offset cs, (interior offset cs).Nests spans groups size)

include deeper

private theorem GroupAt.nests {offset : Nat} {taken rest : List Char} {node : Node}
    (groupAt : GroupAt interior offset taken rest node) :
    node.Nests spans (groups + 1) (size + 1) := by
  cases groupAt with
  | opened _ _ => exact Node.Nests.of_children (by simpa [Node.children] using deeper _ _)
  | closed _ _ _ => exact Node.Nests.of_children (by simpa [Node.children] using deeper _ _)

/-- An item is at most a variant with a group around an interior. -/
theorem NodeAt.nests {offset : Nat} {taken rest : List Char} {node : Node}
    (nodeAt : NodeAt reading interior offset taken rest node) :
    node.Nests (spans + 1) (groups + 1) (size + 2) := by
  have childless : ∀ {node : Node}, node.children = [] → node.Nests (spans + 1) (groups + 1) (size + 2) :=
    fun none => (Node.Nests.of_childless none).mono (by omega) (by omega) (by omega)
  cases nodeAt with
  | leaf _ => exact childless rfl
  | group groupAt => exact (groupAt.nests deeper).mono (by omega) (Nat.le_refl _) (by omega)
  | span _ spanAt =>
      cases spanAt with
      | empty _ => exact childless rfl
      | group _ groupAt =>
          exact Node.Nests.of_children (by simpa [Node.children] using groupAt.nests deeper)
      | item _ _ _ _ _ _ =>
          have body : ∀ offset cs, (interior offset cs).Nests spans (groups + 1) (size + 1) :=
            fun offset cs => (deeper offset cs).mono (Nat.le_refl _) (by omega) (by omega)
          exact Node.Nests.of_children (by simpa [Node.children] using body _ _)
  | openVariant _ => exact childless rfl

private theorem ItemsAt.nests {offset : Nat} {cs : List Char} {nodes : List Node}
    (itemsAt : ItemsAt reading interior offset cs nodes) :
    ∀ node ∈ nodes, node.Nests (spans + 1) (groups + 1) (size + 2) := by
  intro node member
  obtain ⟨_, _, _, _, nodeAt⟩ := itemsAt.exists_between node member
  exact nodeAt.nests deeper

end

private theorem nests_collect {offset : Nat} {cs : List Char} {items : List Node}
    (nests : ∀ item ∈ items, item.Nests spans groups size) :
    (collect offset cs items).Nests spans groups (size + 1) := by
  rcases collect_cases offset cs items with ⟨item, rfl⟩ | several
  · exact (nests item List.mem_cons_self).mono (Nat.le_refl _) (Nat.le_refl _) (Nat.le_succ _)
  · rw [several]
    exact Node.Nests.of_children nests

/-- A level takes a sequence, a variant and a group; what is left below the last one is a leaf. -/
theorem nests_sequence (reading : Reading) (levels offset : Nat) (cs : List Char) :
    (sequence reading levels offset cs).Nests levels levels (3 * levels + 1) := by
  induction levels generalizing offset cs with
  | zero =>
      rw [sequence]
      rcases remainder_cases offset cs with ⟨_, read⟩ | ⟨_, _, _, _, _, _, _, read⟩
      · rw [read]
        have blank : (collect offset cs []).Nests 0 0 (0 + 1) := nests_collect (by simp)
        exact blank
      · rw [read]
        apply Node.Nests.mono _ (Nat.zero_le _) (Nat.zero_le _) (Nat.le_refl _)
        exact Node.Nests.of_children (by simp [collect, Node.children])
  | succ levels ih =>
      obtain ⟨nodes, read, itemsAt⟩ :=
        @itemsAt_items reading _ (framed_sequence reading levels) offset cs []
      rw [sequence, read]
      exact nests_collect (itemsAt.nests ih)

end Tree

/-! ### Answers -/

namespace Placed

private theorem length_variants (place : Placed) :
    place.variants.length = place.above.countP Node.isSpan := by
  rw [variants, List.length_filterMap_eq_countP]
  simp only [Node.isSome_identifier?]

def ownVariants (place : Placed) : List Token :=
  place.path.filterMap Node.identifier?

private theorem length_ownVariants (place : Placed) :
    place.ownVariants.length = place.path.countP Node.isSpan := by
  rw [ownVariants, List.length_filterMap_eq_countP]
  simp only [Node.isSome_identifier?]

private theorem length_variants_le (place : Placed) :
    place.variants.length ≤ place.path.countP Node.isSpan := by
  rw [length_variants, path, List.countP_append]
  exact Nat.le_add_right _ _

end Placed

namespace Entry

def variants : Entry → List Token
  | .item value => value.variants
  | .notClosed region => region.variants
  | .emptyGroup region => region.variants
  | .emptyVariants region => region.variants

private theorem variants_of_counted? {place : Placed} {entry : Entry}
    (counted : place.counted? = some entry) :
    entry.variants = place.variants := by
  unfold Placed.counted? Placed.report? at counted
  split at counted
  · cases counted
  · split at counted
    · split at counted <;> (cases counted; rfl)
    · split at counted
      · cases counted
        rfl
      · split at counted
        · cases counted
          rfl
        · cases counted
    · split at counted <;> (cases counted; rfl)
    · cases counted
    · cases counted

end Entry

namespace Hover

variable {position : Nat}

mutual

/-- What is under a position stands at a place of the tree, behind the variants up to there. -/
theorem exists_place_of_resolve (above : List Node) : (node : Node) → {hover : Hover} →
    resolve position (Entry.scopeOf above) node = some hover →
      ∃ place ∈ node.placed above, hover.variants = place.variants
  | .declaration range children, hover, found => by
      rw [resolve] at found
      split at found
      · rw [← Entry.scopeOf_declaration above range children] at found
        obtain ⟨place, member, same⟩ := exists_place_of_resolveFirst _ children found
        exact ⟨place, by simp [Node.placed, member], same⟩
      · cases found
  | .variantSpan range variant none, hover, found => by
      rw [resolve] at found
      split at found
      · cases found
        exact ⟨_, Node.mem_placed_self above _, rfl⟩
      · cases found
  | .variantSpan range variant (some child), hover, found => by
      rw [resolve] at found
      split at found
      · cases found
      · split at found
        · cases found
          exact ⟨_, Node.mem_placed_self above _, rfl⟩
        · rw [← Entry.scopeOf_variantSpan above range variant (some child)] at found
          obtain ⟨place, member, same⟩ := exists_place_of_resolve _ child found
          exact ⟨place, Node.mem_placed_of_child (by simp [Node.children]) member, same⟩
  | .group range child closed important, hover, found => by
      rw [resolve] at found
      split at found
      · dsimp only at found
        cases inner : resolve position ((Entry.scopeOf above).mark important) child with
        | none =>
            rw [inner] at found
            cases found
            exact ⟨_, Node.mem_placed_self above _, rfl⟩
        | some answer =>
            rw [inner] at found
            rw [← Entry.scopeOf_group above range child closed important] at inner
            obtain ⟨place, member, same⟩ := exists_place_of_resolve _ child inner
            cases found
            exact ⟨place, Node.mem_placed_of_child (by simp [Node.children]) member, same⟩
      · cases found
  | .leaf leaf, hover, found => by
      rw [resolve] at found
      split at found
      · cases found
        exact ⟨_, Node.mem_placed_self above _, rfl⟩
      · cases found

private theorem exists_place_of_resolveFirst (above : List Node) : (children : List Node) →
    {hover : Hover} → resolveFirst position (Entry.scopeOf above) children = some hover →
      ∃ place ∈ Node.placedAll above children, hover.variants = place.variants
  | [], hover, found => by
      rw [resolveFirst] at found
      cases found
  | child :: rest, hover, found => by
      rw [resolveFirst] at found
      rw [Node.placedAll]
      split at found
      · obtain ⟨place, member, same⟩ := exists_place_of_resolve above child found
        exact ⟨place, List.mem_append_left _ member, same⟩
      · obtain ⟨place, member, same⟩ := exists_place_of_resolveFirst above rest found
        exact ⟨place, List.mem_append_right _ member, same⟩

end

end Hover

namespace Completion

variable {position : Nat}

mutual

/-- The context of a cursor is that of a place of the tree, or the one behind the variant there. -/
theorem exists_place_of_locate (above : List Node) : (node : Node) →
    ∃ place ∈ node.placed above,
      (locate position (Entry.scopeOf above) node).variants = place.variants ∨
        (locate position (Entry.scopeOf above) node).variants = place.ownVariants
  | .declaration range children => by
      rw [locate, ← Entry.scopeOf_declaration above range children]
      rcases exists_place_of_locateFirst (above ++ [.declaration range children]) children with
        outside | ⟨place, member, same⟩
      · refine ⟨_, Node.mem_placed_self above _, Or.inl ?_⟩
        rw [outside, Entry.scopeOf_declaration]
        rfl
      · exact ⟨place, by simp [Node.placed, member], same⟩
  | .variantSpan range variant none => by
      refine ⟨_, Node.mem_placed_self above _, ?_⟩
      rw [locate]
      split
      · exact Or.inl rfl
      · split
        · exact Or.inl rfl
        · rw [← Entry.scopeOf_variantSpan above range variant none]
          exact Or.inr rfl
  | .variantSpan range variant (some child) => by
      rw [locate]
      split
      · exact ⟨_, Node.mem_placed_self above _, Or.inl rfl⟩
      · split
        · exact ⟨_, Node.mem_placed_self above _, Or.inl rfl⟩
        · rw [← Entry.scopeOf_variantSpan above range variant (some child)]
          dsimp only
          split
          · obtain ⟨place, member, same⟩ :=
              exists_place_of_locate (above ++ [.variantSpan range variant (some child)]) child
            exact ⟨place, Node.mem_placed_of_child (by simp [Node.children]) member, same⟩
          · exact ⟨_, Node.mem_placed_self above _, Or.inr rfl⟩
  | .group range child closed important => by
      rw [locate]
      split
      · exact ⟨_, Node.mem_placed_self above _, Or.inl rfl⟩
      · dsimp only
        split
        · rw [← Entry.scopeOf_group above range child closed important]
          obtain ⟨place, member, same⟩ :=
            exists_place_of_locate (above ++ [Node.group range child closed important]) child
          exact ⟨place, Node.mem_placed_of_child (by simp [Node.children]) member, same⟩
        · exact ⟨_, Node.mem_placed_self above _, Or.inl rfl⟩
  | .leaf leaf => by
      refine ⟨_, Node.mem_placed_self above _, Or.inl ?_⟩
      rw [locate]
      split
      · rfl
      · rfl

private theorem exists_place_of_locateFirst (above : List Node) : (children : List Node) →
    (locateFirst position (Entry.scopeOf above) children).variants =
        (Entry.scopeOf above).variants ∨
      ∃ place ∈ Node.placedAll above children,
        (locateFirst position (Entry.scopeOf above) children).variants = place.variants ∨
          (locateFirst position (Entry.scopeOf above) children).variants = place.ownVariants
  | [] => by
      rw [locateFirst]
      exact Or.inl rfl
  | child :: rest => by
      rw [locateFirst, Node.placedAll]
      split
      · obtain ⟨place, member, same⟩ := exists_place_of_locate above child
        exact Or.inr ⟨place, List.mem_append_left _ member, same⟩
      · rcases exists_place_of_locateFirst above rest with outside | ⟨place, member, same⟩
        · exact Or.inl outside
        · exact Or.inr ⟨place, List.mem_append_right _ member, same⟩

end

end Completion

namespace Spread

def variantLists (spread : Spread) : List (List Token) :=
  spread.items.map (·.variants) ++ spread.notClosed.map (·.variants) ++
    spread.emptyGroup.map (·.variants) ++ spread.emptyVariants.map (·.variants)

private theorem exists_entry_of_mem_variantLists {entries : List Entry} {variants : List Token}
    (member : variants ∈ (ofEntries entries).variantLists) :
    ∃ entry ∈ entries, entry.variants = variants := by
  have selects : ∀ {α : Type} {select : Entry → Option α} {list : α → List Token},
      (∀ entry value, select entry = some value → list value = entry.variants) →
      variants ∈ (entries.filterMap select).map list → ∃ entry ∈ entries, entry.variants = variants := by
    intro α select list same inside
    obtain ⟨value, selected, rfl⟩ := List.mem_map.1 inside
    obtain ⟨entry, isEntry, chosen⟩ := List.mem_filterMap.1 selected
    exact ⟨entry, isEntry, (same entry value chosen).symm⟩
  simp only [variantLists, ofEntries, List.mem_append] at member
  rcases member with ((item | notClosed) | emptyGroup) | emptyVariants
  · exact selects (fun entry value chosen => by cases entry <;> cases chosen; rfl) item
  · exact selects (fun entry value chosen => by cases entry <;> cases chosen; rfl) notClosed
  · exact selects (fun entry value chosen => by cases entry <;> cases chosen; rfl) emptyGroup
  · exact selects (fun entry value chosen => by cases entry <;> cases chosen; rfl) emptyVariants

private theorem exists_place_of_ofText (settings : Settings) (text : String) {variants : List Token}
    (member : variants ∈ (ofText settings text).variantLists) :
    ∃ place ∈ (Tree.read settings text none).placed [], variants = place.variants := by
  rw [ofText_eq] at member
  obtain ⟨entry, isEntry, rfl⟩ := exists_entry_of_mem_variantLists member
  obtain ⟨place, isPlace, counted⟩ := List.mem_filterMap.1 isEntry
  exact ⟨place, isPlace, Entry.variants_of_counted? counted⟩

end Spread

namespace Tree

/-- On every path from the root of a tree there are at most as many variants and as many groups as
levels, and three nodes for each level with one at the end. -/
theorem nests_readRange (settings : Settings) (text : String) (start stop : Nat)
    (limit : Option Nat) :
    let levels := settings.maxDepth + 1
    ∀ place ∈ (readRange settings text start stop limit).placed [],
      place.path.countP Node.isSpan ≤ levels ∧ place.path.countP Node.isGroup ≤ levels ∧
        place.path.length ≤ 3 * levels + 1 := by
  intro levels place member
  obtain ⟨below, path, bounds⟩ := nests_sequence _ levels _ _ [] place member
  rw [path, List.nil_append]
  exact bounds

private theorem length_variants_read (settings : Settings) (text : String) (limit : Option Nat) :
    ∀ place ∈ (read settings text limit).placed [],
      place.variants.length ≤ settings.maxDepth + 1 ∧
        place.ownVariants.length ≤ settings.maxDepth + 1 := by
  intro place member
  have spans := (nests_readRange settings text 0 text.utf8ByteSize limit place member).1
  rw [place.length_ownVariants]
  exact ⟨Nat.le_trans place.length_variants_le spans, spans⟩

private theorem length_variants_atPosition? {settings : Settings} {text : String} {position : Nat}
    {hover : Hover} (found : Hover.atPosition? settings text position = some hover) :
    hover.variants.length ≤ settings.maxDepth + 1 := by
  unfold Hover.atPosition? at found
  split at found
  · cases found
  · obtain ⟨place, isPlace, same⟩ := Hover.exists_place_of_resolve [] _ found
    rw [same]
    exact (length_variants_read settings text _ place isPlace).1

private theorem length_variants_atCursor (settings : Settings) (text : String) (cursor : Nat) :
    (Completion.atCursor settings text cursor).variants.length ≤ settings.maxDepth + 1 := by
  have located : ∀ position,
      (Completion.locate position {} (read settings text (some position))).variants.length ≤
        settings.maxDepth + 1 := by
    intro position
    obtain ⟨place, member, same | same⟩ := @Completion.exists_place_of_locate position []
      (read settings text (some position))
    · exact same ▸ (length_variants_read settings text _ place member).1
    · exact same ▸ (length_variants_read settings text _ place member).2
  unfold Completion.atCursor
  dsimp only
  split
  · exact Nat.zero_le _
  · exact Nat.zero_le _
  · exact located _
  · exact located _

/-- The levels bound every path of every tree; so whatever flattening, hovering or completing finds
has at most one variant for each level. -/
theorem placed_nests (settings : Settings) (text : String) :
    let levels := settings.maxDepth + 1
    (∀ start stop limit, ∀ place ∈ (readRange settings text start stop limit).placed [],
      place.path.countP Node.isSpan ≤ levels ∧ place.path.countP Node.isGroup ≤ levels ∧
        place.path.length ≤ 3 * levels + 1) ∧
      (∀ variants ∈ (Spread.ofText settings text).variantLists, variants.length ≤ levels) ∧
      (∀ position, ∀ hover ∈ Hover.atPosition? settings text position,
        hover.variants.length ≤ levels) ∧
      ∀ cursor, (Completion.atCursor settings text cursor).variants.length ≤ levels := by
  intro levels
  refine ⟨nests_readRange settings text, ?_, ?_, length_variants_atCursor settings text⟩
  · intro variants member
    obtain ⟨place, isPlace, rfl⟩ := Spread.exists_place_of_ofText settings text member
    exact (length_variants_read settings text none place isPlace).1
  · exact fun position hover found => length_variants_atPosition? found

end Tree

end ClassExpr
