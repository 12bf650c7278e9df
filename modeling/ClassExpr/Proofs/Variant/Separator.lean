import ClassExpr.Proofs.Variant.Chain

set_option autoImplicit false

/-! Which separators make chains of variants. What a chain is flattened to has its word under all of
its names. No item can have as many variants where the first variant takes less than the rest of the
chain: variants stand in front of what they apply to, and with their separators they take up all of
the text but the word. -/

namespace ClassExpr

open Text

/-! ### Variants in front of an item -/

def lengthOf (separator : List Char) : List Token → Nat
  | [] => 0
  | token :: rest => token.size + byteLength separator + lengthOf separator rest

private theorem Variant.Spelled.stop_eq_identifier {separator text : List Char} {offset : Nat}
    {variant : Variant}
    (spelled : variant.Spelled separator offset text) :
    variant.range.stop =
      variant.range.start + variant.identifier.size + byteLength separator := by
  rw [spelled.range_eq, Token.stop_ofChars, Token.start_ofChars]
  cases spelled with
  | named _ _ =>
      rw [byteLength_append, ← Nat.add_assoc]
      exact congrArg (offset + · + byteLength separator) (utf8ByteSize_ofList _).symm
  | bracket _ _ =>
      rw [byteLength_append, ← Nat.add_assoc]
      exact congrArg (offset + · + byteLength separator) (utf8ByteSize_ofList _).symm

namespace Node

/-- Behind the start of a node there is room for all variants from there on to a place in it. -/
theorem exists_variants_of_placed {reading : Tree.Reading} {node : Node} (proper : node.AllProper)
    (read : Tree.AllRead reading node) (above : List Node) {place : Placed}
    (member : place ∈ node.placed above) :
    ∃ own, place.variants = above.filterMap identifier? ++ own ∧
      node.range.start + lengthOf reading.separator own ≤ place.node.range.start ∧
      place.node.range.stop ≤ node.range.stop ∧ place.node.AllProper := by
  rcases (mem_placed_iff above node place).1 member with rfl | ⟨child, isChild, inside⟩
  · exact ⟨[], (List.append_nil _).symm, Nat.le_refl _, Nat.le_refl _, proper⟩
  · have smaller := sizeOf_lt_of_mem_children isChild
    have deeper : Tree.AllRead reading child := fun inner below =>
      read inner ((mem_nodes_iff node inner).2 (Or.inr ⟨child, isChild, below⟩))
    obtain ⟨own, variants, start, stop, shape⟩ :=
      exists_variants_of_placed (proper.child isChild) deeper (above ++ [node]) inside
    have within := (proper node (mem_nodes_self node)).2 child isChild
    have startLe := within.start_le
    have stopLe := within.stop_le
    rw [List.filterMap_append] at variants
    cases node with
    | declaration range items =>
        exact ⟨own, by rw [variants, List.append_assoc]; rfl, by omega, by omega, shape⟩
    | group range body closed important =>
        exact ⟨own, by rw [variants, List.append_assoc]; rfl, by omega, by omega, shape⟩
    | leaf item => cases isChild
    | variantSpan range variant body =>
        obtain rfl : body = some child := by simpa [children] using isChild
        obtain ⟨_, offset, text, _, _, spelled, _⟩ := Tree.spanAt_of_isRead
          (read _ (mem_nodes_self _) (by simp [Node.kind]))
        have span : ProperSpan range variant (some child) := (proper _ (mem_nodes_self _)).1
        have attached := span.attached child rfl
        have first := span.start
        have stops := spelled.stop_eq_identifier
        refine ⟨variant.identifier :: own, ?_, ?_, by omega, shape⟩
        · rw [variants, List.append_assoc]
          rfl
        · rw [lengthOf]
          change range.start + _ ≤ _
          omega
termination_by sizeOf node

end Node

private theorem Placed.exists_leaf {place : Placed} {item : Item}
    (counted : place.counted? = some (.item item)) :
    ∃ leaf, place.node = .leaf leaf ∧ item.target = leaf.target ∧ item.variants = place.variants := by
  obtain ⟨above, node⟩ := place
  unfold counted? report? at counted
  split at counted
  · cases counted
  · cases node with
    | leaf leaf =>
        dsimp only at counted
        split at counted
        · cases counted
          exact ⟨leaf, rfl, rfl, rfl⟩
        · cases counted
    | declaration range children => cases counted
    | variantSpan range variant child =>
        cases child with
        | none =>
            dsimp only at counted
            split at counted <;> cases counted
        | some child => cases counted
    | group range child closed important =>
        dsimp only at counted
        split at counted
        · cases counted
        · split at counted <;> cases counted

namespace Spread

private theorem placed_of_item {settings : Settings} {text : String} {item : Item}
    (member : item ∈ (ofText settings text).items) :
    ∃ place ∈ (Tree.read settings text none).placed [], ∃ leaf, place.node = .leaf leaf ∧
      item.target = leaf.target ∧ item.variants = place.variants := by
  rw [ofText_eq] at member
  obtain ⟨entry, isEntry, isItem⟩ := List.mem_filterMap.1 member
  obtain ⟨place, isPlace, counted⟩ := List.mem_filterMap.1 isEntry
  obtain rfl : entry = .item item := by
    cases entry <;> cases isItem
    rfl
  exact ⟨place, isPlace, Placed.exists_leaf counted⟩

end Spread

namespace Chain

open Printing ClassExpr.Tree

variable {separator : List Char} {word : Plain}

/-! ### Flattening -/

def item (separator : List Char) (word : Plain) (offset : Nat) (variants : List Token) :
    List Plain → Item
  | [] => ⟨.ofChars offset word.chars, .className, variants, false, none, none, none⟩
  | name :: names =>
      item separator word (offset + byteLength (name.chars ++ separator))
        (variants ++ [.ofChars offset name.chars]) names

theorem gather_node (offset : Nat) (variants : List Token) (found : List Entry)
    (names : List Plain) :
    Entry.gather ⟨variants, false⟩ found (node separator word offset names) =
      .item (item separator word offset variants names) :: found := by
  induction names generalizing offset variants with
  | nil => rfl
  | cons name names ih =>
      have solid : (node separator word (offset + byteLength (name.chars ++ separator)) names).isBlank
          = false := by
        cases names <;> rfl
      rw [node, Entry.gather, solid]
      exact ih _ _

private theorem ofNode_node (names : List Plain) :
    Spread.ofNode (node separator word 0 names) = ⟨[item separator word 0 [] names], [], [], []⟩ := by
  rw [Spread.ofNode, show ({} : Scope) = ⟨[], false⟩ from rfl, gather_node]
  rfl

/-- The text is one class name behind its variants, and nothing is wrong with it. -/
structure IsChain (names : List Plain) (word : Plain) (spread : Spread) : Prop where
  single : ∃ item, spread.items = [item] ∧ item.kind = .className ∧
    item.target.text = String.ofList word.chars ∧
    item.variants.map (·.text) = names.map (fun name => String.ofList name.chars) ∧
    item.important = false
  sound : spread.hasFaults = false

private theorem item_eq (offset : Nat) (variants : List Token) (names : List Plain) :
    (item separator word offset variants names).kind = .className ∧
      (item separator word offset variants names).target.text = String.ofList word.chars ∧
      (item separator word offset variants names).variants.map (·.text) =
        variants.map (·.text) ++ names.map (fun name => String.ofList name.chars) ∧
      (item separator word offset variants names).important = false := by
  induction names generalizing offset variants with
  | nil => simp [item, Token.ofChars]
  | cons name names ih =>
      obtain ⟨kind, target, listed, unmarked⟩ :=
        ih (offset + byteLength (name.chars ++ separator)) (variants ++ [.ofChars offset name.chars])
      exact ⟨kind, target, by rw [item, listed]; simp [Token.ofChars], unmarked⟩

private theorem isChain_item (names : List Plain) :
    IsChain names word ⟨[item separator word 0 [] names], [], [], []⟩ := by
  obtain ⟨kind, target, listed, unmarked⟩ := @item_eq separator word 0 [] names
  exact ⟨⟨_, rfl, kind, target, listed, unmarked⟩, rfl⟩

/-! ### Chains that are cut off -/

theorem byteLength_print {variants : List Token} (names : List Plain)
    (listed : variants.map (·.text) = names.map (fun name => String.ofList name.chars)) :
    byteLength (print separator word names) =
      lengthOf separator variants + byteLength word.chars := by
  induction names generalizing variants with
  | nil =>
      obtain rfl : variants = [] := by simpa using listed
      simp [print, lengthOf]
  | cons name names ih =>
      cases variants with
      | nil => cases listed
      | cons token variants =>
          rw [List.map_cons, List.map_cons, List.cons.injEq] at listed
          have size : token.size = byteLength name.chars := by
            rw [Token.size, listed.1, utf8ByteSize_ofList]
          rw [print, byteLength_append, byteLength_append, ih listed.2, lengthOf, size]
          omega

/-- Where a line comment is opened behind the first name, its variant does not take all that
follows. -/
theorem stop_variantSpan_lt (bare : Bare separator) {interior : Interior} (framed : Framed interior)
    {name : Plain} {names : List Plain} (cut : ¬Clear separator word (name :: names))
    (proper : (variantSpan (reading separator) interior (variant separator 0 name)
      (print separator word names)).AllProper) :
    (variantSpan (reading separator) interior (variant separator 0 name)
      (print separator word names)).range.stop <
        byteLength (print separator word (name :: names)) := by
  have range : (variant separator 0 name).range = .ofChars 0 (name.chars ++ separator) := rfl
  have whole := Body.split_append separator (print separator word names)
  have left : (Body.split separator (print separator word names)).2 ≠ [] := by
    intro ended
    rw [ended, List.append_nil] at whole
    exact cut ((split_print bare).1 (Prod.ext whole ended))
  have shorter : byteLength (Body.split separator (print separator word names)).1 <
      byteLength (print separator word names) := by
    obtain ⟨c, cs, start⟩ := List.exists_cons_of_ne_nil left
    have positive := c.utf8Size_pos
    have sizes := congrArg byteLength whole
    rw [start, byteLength_append, byteLength_cons] at sizes
    omega
  have built : attached (reading separator) interior (variant separator 0 name).range.stop
      (print separator word names) =
        interior (byteLength (name.chars ++ separator))
          (Body.split separator (print separator word names)).1 := by
    rw [attached_names, range, Token.stop_ofChars, Nat.zero_add]
  have within := range_partOf framed (byteLength (name.chars ++ separator))
    (Body.split separator (print separator word names)).1
  rw [variantSpan_attached _ (isEmptyBody_print separator word names)] at proper ⊢
  have span := (proper _ (Node.mem_nodes_self _)).1
  have stops := Node.ProperSpan.stop span _ rfl
  have stopLe := within.stop_le
  rw [Token.stop_ofChars] at stopLe
  have size : byteLength (print separator word (name :: names)) =
      byteLength (name.chars ++ separator) + byteLength (print separator word names) :=
    byteLength_append _ _
  change (Token.ofChars _ _).stop < _
  rw [stops, built, size]
  omega

private theorem exists_first (bare : Bare separator) {name : Plain} {names : List Plain}
    (cut : ¬Clear separator word (name :: names)) (levels : Nat) :
    ∃ first taken rest nodes,
      NodeAt (reading separator) (sequence (reading separator) levels) 0 taken rest first ∧
      rest ≠ [] ∧ print separator word (name :: names) = taken ++ rest ∧
      items (reading separator) (sequence (reading separator) levels) 0 0
        (print separator word (name :: names)) [] = first :: nodes ∧
      ItemsAt (reading separator) (sequence (reading separator) levels) (byteLength taken) rest
        nodes := by
  obtain ⟨c, cs, start, plain⟩ := exists_start separator word (name :: names)
  have framed := framed_sequence (reading separator) levels
  have scanned := scan?_name bare 0 name (print separator word names)
  have whole : name.chars ++ separator ++ print separator word names = c :: cs := start
  have short := stop_variantSpan_lt bare framed cut
  rw [whole] at scanned
  rw [start] at short ⊢
  obtain ⟨taken, rest, parts, takes, stops, turn⟩ := @items_turn (reading separator) _ framed 0 c cs
    _ _ [] (isBlank_of_isWordChar (isWordChar_of_isAlphanum plain)) scanned
  have begun : node? (reading separator) (sequence (reading separator) levels) 0 (c :: cs)
      (print separator word names) (.variant (.ofChars 0 name.chars)
        (.ofChars (0 + byteLength name.chars) separator)) =
      some (variantSpan (reading separator) (sequence (reading separator) levels)
        (variant separator 0 name) (print separator word names)) := by
    rw [node?, Token.toList_ofChars, Token.toList_ofChars]
    rfl
  rw [begun] at takes turn
  have nodeAt : NodeAt (reading separator) _ 0 taken rest _ := takes
  obtain ⟨nodes, read, itemsAt⟩ :=
    @itemsAt_items (reading separator) _ framed (0 + byteLength taken) rest
      [variantSpan (reading separator) (sequence (reading separator) levels)
        (variant separator 0 name) (print separator word names)]
  have endless : (reading separator).endsAt (0 + byteLength taken) = false := rfl
  rw [Nat.zero_add] at itemsAt
  refine ⟨_, taken, rest, nodes, nodeAt, ?_, parts, ?_, itemsAt⟩
  · rintro rfl
    have size := short (nodeAt.allProper framed fun offset cs => allProper_sequence _ _ offset cs)
    rw [nodeAt.range_eq, Token.stop_ofChars, parts, List.append_nil] at size
    omega
  · rw [turn, endless, if_neg Bool.false_ne_true]
    exact read

/-- A place below a window with some first item is below that item or below a later one. -/
theorem exists_above_of_collect {offset : Nat} {cs : List Char} {nodes : List Node} {place : Placed}
    {leaf : Leaf} (isLeaf : place.node = .leaf leaf)
    (member : place ∈ (collect offset cs nodes).placed []) :
    ∃ above, above.filterMap Node.identifier? = [] ∧ ∃ node ∈ nodes, place ∈ node.placed above := by
  rcases collect_cases offset cs nodes with ⟨node, rfl⟩ | several
  · exact ⟨[], rfl, node, List.mem_cons_self, member⟩
  · rw [several] at member
    rcases (Node.mem_placed_iff _ _ _).1 member with rfl | ⟨child, isChild, inside⟩
    · cases isLeaf
    · exact ⟨_, rfl, child, isChild, inside⟩

/-- No node of a window is as long as the window where something is left behind the first one: that
is cut off, and the others start behind its start. -/
theorem stop_lt_of_left {reading : Reading} {interior : Interior} {taken rest : List Char}
    {first : Node} {nodes : List Node} (nodeAt : NodeAt reading interior 0 taken rest first)
    (left : rest ≠ [])
    (itemsAt : ItemsAt reading interior (byteLength taken) rest nodes) {node : Node}
    (isNode : node ∈ first :: nodes) :
    node.range.stop < node.range.start + byteLength (taken ++ rest) := by
  rcases List.mem_cons.1 isNode with rfl | later
  · obtain ⟨c, cs, rfl⟩ := List.exists_cons_of_ne_nil left
    have positive := c.utf8Size_pos
    rw [nodeAt.range_eq, Token.stop_ofChars, Token.start_ofChars, byteLength_append,
      byteLength_cons]
    omega
  · obtain ⟨-, -, part⟩ := itemsAt.ordered.1 node later
    obtain ⟨c, cs, rfl⟩ := List.exists_cons_of_ne_nil nodeAt.ne_nil
    have positive := c.utf8Size_pos
    have startLe := part.start_le
    have stopLe := part.stop_le
    rw [Token.start_ofChars, byteLength_cons] at startLe
    rw [Token.stop_ofChars, byteLength_cons] at stopLe
    rw [byteLength_append, byteLength_cons]
    omega

private theorem le_stop_of_placed {node : Node} (proper : node.AllProper)
    (read : AllRead (reading separator) node) {above : List Node}
    (noVariants : above.filterMap Node.identifier? = []) {place : Placed}
    (inside : place ∈ node.placed above) {leaf : Leaf} (isLeaf : place.node = .leaf leaf)
    {names : List Plain} (target : leaf.target.text = String.ofList word.chars)
    (listed : place.variants.map (·.text) = names.map (fun name => String.ofList name.chars)) :
    node.range.start + byteLength (print separator word names) ≤ node.range.stop := by
  obtain ⟨own, variants, start, stop, shape⟩ := Node.exists_variants_of_placed proper read above inside
  have total := @byteLength_print separator word _ _ listed
  rw [variants, noVariants, List.nil_append] at total
  rw [isLeaf] at start stop shape
  have within : leaf.Proper := (shape _ (Node.mem_nodes_self _)).1
  have startLe := within.inside.start_le
  have stopLe := within.inside.stop_le
  have ended : leaf.target.stop = leaf.target.start + byteLength word.chars := by
    rw [Token.stop, Token.size, target, utf8ByteSize_ofList]
  change _ ≤ leaf.range.start at start
  change leaf.range.stop ≤ _ at stop
  change node.range.start + lengthOf separator own ≤ _ at start
  omega

/-- An item under all names of a chain would not fit into it. -/
theorem not_isChain (settings : Settings) (bare : Bare settings.separator.toList) {name : Plain}
    {names : List Plain} (cut : ¬Clear settings.separator.toList word (name :: names)) :
    ¬IsChain (name :: names) word (Spread.ofText settings
      (String.ofList (print settings.separator.toList word (name :: names)))) := by
  rintro ⟨⟨item, single, -, target, listed, -⟩, -⟩
  obtain ⟨place, isPlace, leaf, isLeaf, sameTarget, sameVariants⟩ :=
    Spread.placed_of_item (single ▸ List.mem_cons_self : item ∈ _)
  obtain ⟨first, taken, rest, nodes, nodeAt, left, whole, read, itemsAt⟩ :=
    exists_first bare cut settings.maxDepth
  have framed := framed_sequence (reading settings.separator.toList) settings.maxDepth
  rw [read_eq, String.toList_ofList, Tree.sequence, read] at isPlace
  obtain ⟨above, noVariants, node, isNode, inside⟩ := exists_above_of_collect isLeaf isPlace
  have all : ItemsAt (reading settings.separator.toList) _ 0 (taken ++ rest) (first :: nodes) :=
    ItemsAt.node nodeAt (by rwa [Nat.zero_add])
  have proper := all.allProper framed (fun offset cs => allProper_sequence _ _ offset cs) node isNode
  obtain ⟨_, _, _, _, readAt⟩ := all.exists_between node isNode
  rw [sameTarget] at target
  rw [sameVariants] at listed
  have long := le_stop_of_placed proper
    (readAt.allRead fun offset cs => allRead_sequence _ _ offset cs) noVariants inside isLeaf target
    listed
  have short := stop_lt_of_left nodeAt left itemsAt isNode
  rw [whole] at long
  omega

/-! ### Separators -/

private theorem opened_of_not_infix (noLine : ¬['/', '/'] <:+: separator) (count : Nat)
    (inside : Bool) :
    (opened separator count inside).isSome = true := by
  induction count generalizing inside with
  | zero => rfl
  | succ count ih =>
      rw [opened]
      cases first : Comment.inside? inside separator with
      | none => exact absurd (Comment.infix_of_inside? first) noLine
      | some later => exact ih later

private theorem clear_of_short {names : List Plain}
    (short : names.length ≤ 1 ∨ ¬['/', '/'] <:+: separator) : Clear separator word names := by
  rw [Clear, inside?_print]
  rcases short with few | noLine
  · rw [List.length_tail, Nat.sub_eq_zero_of_le few]
    rfl
  · exact opened_of_not_infix noLine _ _

private theorem isChain_of_clear (settings : Settings) (bare : Bare settings.separator.toList)
    {names : List Plain} (few : names.length ≤ settings.maxDepth)
    (clear : Clear settings.separator.toList word names) :
    IsChain names word (Spread.ofText settings
      (String.ofList (print settings.separator.toList word names))) := by
  rw [Spread.ofText, read_eq, String.toList_ofList]
  change IsChain names word (Spread.ofNode (sequence (reading settings.separator.toList) _ _ _))
  rw [sequence_print bare few clear, ofNode_node]
  exact isChain_item names

/-- With an accepted separator that has neither letters nor digits, a chain of at most as many
variants as there are levels is a class name under all of them, exactly if the separators behind the
first variant open no line comment: so for one variant, and for any number of them where there are
no two slashes in a row in the separator. -/
theorem isChain_iff_clear (settings : Settings) (valid : settings.fault? = none)
    (bare : ∀ c ∈ settings.separator.toList, c.isAlphanum = false) (names : List Plain)
    (word : Plain) (few : names.length ≤ settings.maxDepth) :
    let separator := settings.separator.toList
    let spread := Spread.ofText settings (String.ofList (print separator word names))
    (IsChain names word spread ↔
        (Comment.inside? false (print separator word names.tail)).isSome = true) ∧
      (names.length ≤ 1 ∨ ¬['/', '/'] <:+: separator → IsChain names word spread) := by
  intro separator spread
  have sound : Bare separator := ⟨Settings.separator_sound valid, bare⟩
  have whole : Clear separator word names → IsChain names word spread :=
    isChain_of_clear settings sound few
  refine ⟨⟨fun isChain => ?_, whole⟩, fun short => whole (clear_of_short short)⟩
  cases names with
  | nil => exact clear_of_short (Or.inl (Nat.zero_le 1))
  | cons name names =>
      by_cases clear : Clear separator word (name :: names)
      · exact clear
      · exact absurd isChain (not_isChain settings sound clear)

/-- Two low lines separate as well as a colon does. -/
theorem isChain_iff_clear_lowLines :
    let md : Plain := ⟨['m', 'd'], by simp, List.all_eq_true.1 rfl⟩
    let dark : Plain := ⟨['d', 'a', 'r', 'k'], by simp, List.all_eq_true.1 rfl⟩
    let flex : Plain := ⟨['f', 'l', 'e', 'x'], by simp, List.all_eq_true.1 rfl⟩
    ({ separator := "__" } : Settings).fault? = none ∧
      IsChain [md, dark] flex (Spread.ofText { separator := "__" } "md__dark__flex") := by
  have bare : ∀ c ∈ "__".toList, c.isAlphanum = false :=
    List.forall_mem_cons.2 ⟨rfl, List.forall_mem_singleton.2 rfl⟩
  intro md dark flex
  exact ⟨rfl, (isChain_iff_clear { separator := "__" } rfl bare [md, dark] flex (by decide)).2
    (Or.inr (by decide))⟩

/-- Two slashes are accepted, but the second of two variants has nothing to apply to. -/
theorem not_isChain_slashes :
    let a : Plain := ⟨['a'], by simp, List.all_eq_true.1 rfl⟩
    let b : Plain := ⟨['b'], by simp, List.all_eq_true.1 rfl⟩
    let c : Plain := ⟨['c'], by simp, List.all_eq_true.1 rfl⟩
    ({ separator := "//" } : Settings).fault? = none ∧
      (∀ c ∈ "//".toList, c.isAlphanum = false) ∧
      [a, b].length ≤ ({ separator := "//" } : Settings).maxDepth ∧
      ¬IsChain [a, b] c (Spread.ofText { separator := "//" } "a//b//c") := by
  have bare : ∀ c ∈ "//".toList, c.isAlphanum = false :=
    List.forall_mem_cons.2 ⟨rfl, List.forall_mem_singleton.2 rfl⟩
  intro a b c
  exact ⟨rfl, bare, by decide, not_isChain { separator := "//" }
    ⟨Settings.separator_sound rfl, bare⟩ (by unfold Clear; decide)⟩

end Chain

end ClassExpr
