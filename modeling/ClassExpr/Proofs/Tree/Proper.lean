import ClassExpr.Proofs.Node
import ClassExpr.Proofs.Tree.Items

set_option autoImplicit false

/-! Every tree that is read keeps its shape, for every window and wherever reading ends. A step that
builds a node keeps the shape if its interiors do, and so does a loop over such steps. -/

namespace ClassExpr

open Text

namespace Tree

variable {reading : Reading} {interior : Interior}

theorem IsMarker.cases {lead following : List Char} (marked : IsMarker lead following) :
    lead = [] ∨ lead = ['!'] := by
  rcases marked with rfl | ⟨rfl, _⟩
  · exact Or.inr rfl
  · exact Or.inl rfl

/-- Markers are exactly what a range has besides its target. -/
theorem marked_iff_range_ne (offset : Nat) {lead body trail : List Char}
    (leading : lead = [] ∨ lead = ['!']) (trailing : trail = [] ∨ trail = ['!']) :
    (!lead.isEmpty || !trail.isEmpty) = true ↔
      Token.ofChars offset (lead ++ body ++ trail) ≠
        Token.ofChars (offset + byteLength lead) body := by
  rcases leading with rfl | rfl
  · rcases trailing with rfl | rfl
    · simp
    · refine iff_of_true rfl ?_
      intro same
      have texts := congrArg (fun token : Token => token.text.toList) same
      simp at texts
  · refine iff_of_true rfl ?_
    intro same
    have starts := congrArg Token.start same
    have positive := Char.utf8Size_pos '!'
    simp only [Token.start_ofChars, byteLength_cons, byteLength_nil] at starts
    omega

theorem nonempty_ofChars (offset : Nat) {cs : List Char} (nonempty : cs ≠ []) :
    (Token.ofChars offset cs).start < (Token.ofChars offset cs).stop := by
  cases cs with
  | nil => exact absurd rfl nonempty
  | cons c cs =>
      have positive := c.utf8Size_pos
      rw [Token.start_ofChars, Token.stop_ofChars, byteLength_cons]
      omega

theorem partOf_ofChars {offset start : Nat} {whole cs : List Char} (before after : List Char)
    (parts : whole = before ++ cs ++ after) (place : start = offset + byteLength before) :
    (Token.ofChars start cs).PartOf (Token.ofChars offset whole) := by
  subst parts place
  exact Token.partOf_ofChars offset before cs after

private theorem proper_bracketLeaf {range target stem content : Token} {closed important : Bool}
    {opacity : Option Opacity} (nonempty : target.start < target.stop)
    (inside : target.PartOf range) (marked : important = true ↔ range ≠ target)
    (stemInside : stem.PartOf target) (contentInside : content.PartOf target)
    (stemBefore : stem.stop < content.start)
    (opacityInside : ∀ value ∈ opacity, value.range.PartOf target)
    (opacityBehind : ∀ value ∈ opacity, content.stop < value.range.start)
    (opacityValue : ∀ value ∈ opacity, value.value.PartOf value.range) :
    (bracketLeaf range target stem content closed important opacity).Proper := by
  have contentGrows : content.start ≤ content.stop := by
    rw [Token.stop_eq]
    omega
  unfold bracketLeaf
  split
  · refine ⟨nonempty, inside, marked, ?_, ?_, ?_⟩
    · intro part member
      have same : part = content := by simpa [Leaf.parts, Leaf.prop?, Leaf.content?,
        Leaf.opacity?] using member
      rw [same]
      exact contentInside
    · exact List.pairwise_singleton _ _
    · intro value member
      cases member
  · split
    · refine ⟨nonempty, inside, marked, ?_, ?_, opacityValue⟩
      · intro part member
        simp only [Leaf.parts, Leaf.prop?, Leaf.content?, Leaf.opacity?, Option.toList_some,
          List.cons_append, List.nil_append, List.mem_cons, Option.mem_toList,
          Option.map_eq_some_iff] at member
        rcases member with rfl | rfl | ⟨value, found, rfl⟩
        · exact stemInside
        · exact contentInside
        · exact opacityInside value found
      · cases opacity with
        | none => simpa [Leaf.parts, Leaf.prop?, Leaf.content?, Leaf.opacity?] using stemBefore
        | some value =>
            have behind := opacityBehind value rfl
            simp only [Leaf.parts, Leaf.prop?, Leaf.content?, Leaf.opacity?, Option.map_some,
              Option.toList_some, List.cons_append, List.nil_append, List.pairwise_cons,
              List.mem_cons, List.not_mem_nil, or_false, forall_eq_or_imp, forall_eq,
              List.Pairwise.nil, and_true, false_implies, implies_true]
            exact ⟨⟨stemBefore, by omega⟩, behind⟩
    · refine ⟨nonempty, inside, marked, ?_, ?_, ?_⟩
      · intro part member
        simp only [Leaf.parts, Leaf.prop?, Leaf.content?, Leaf.opacity?, Option.toList_some,
          Option.map_none, Option.toList_none, List.append_nil, List.cons_append,
          List.nil_append, List.mem_cons, List.not_mem_nil, or_false] at member
        rcases member with rfl | rfl
        · exact stemInside
        · exact contentInside
      · simpa [Leaf.parts, Leaf.prop?, Leaf.content?, Leaf.opacity?] using stemBefore
      · intro value member
        cases member

private theorem Opacity.Spelled.value_partOf {offset : Nat} {taken rest : List Char}
    {opacity : Opacity}
    (spelled : opacity.Spelled offset taken rest) : opacity.value.PartOf opacity.range := by
  cases spelled with
  | number _ _ => exact partOf_ofChars ['/'] [] (by simp) rfl
  | closed _ => exact partOf_ofChars ['/', '['] [']'] (by simp) rfl
  | opened => exact partOf_ofChars ['/', '['] [] (by simp) rfl

theorem LeafAt.proper {offset : Nat} {taken rest : List Char} {leaf : Leaf}
    (leafAt : LeafAt offset taken rest leaf) : leaf.Proper := by
  have bracketSize : Char.utf8Size '[' = 1 := rfl
  have closerSize : Char.utf8Size ']' = 1 := rfl
  cases leafAt with
  | @className lead _ trail _ marked nonempty _ trailing =>
      refine ⟨nonempty_ofChars _ nonempty, partOf_ofChars lead trail rfl rfl,
        marked_iff_range_ne offset marked.cases trailing.cases, ?_, List.Pairwise.nil, ?_⟩
      · intro part member
        cases member
      · intro value member
        cases member
  | unknown nonempty =>
      refine ⟨nonempty_ofChars _ nonempty, Token.PartOf.refl _, ?_, ?_, List.Pairwise.nil, ?_⟩
      · simp [Leaf.important, Leaf.range, Leaf.target]
      · intro part member
        cases member
      · intro value member
        cases member
  | @openBracket lead stem value marked _ =>
      have iff := @marked_iff_range_ne offset lead (stem ++ '[' :: value) [] marked.cases
        (Or.inl rfl)
      apply proper_bracketLeaf
      · exact nonempty_ofChars _ (by simp)
      · exact partOf_ofChars lead [] (by simp) rfl
      · simpa using iff
      · exact partOf_ofChars [] ('[' :: value) (by simp) rfl
      · exact partOf_ofChars (stem ++ ['[']) [] (by simp) (by simp; omega)
      · simp
      · simp
      · simp
      · simp
  | @closedBracket lead stem value trail _ marked trailing _ _ =>
      apply proper_bracketLeaf
      · exact nonempty_ofChars _ (by simp)
      · exact partOf_ofChars lead trail rfl rfl
      · exact marked_iff_range_ne offset marked.cases trailing.cases
      · exact partOf_ofChars [] ('[' :: value ++ [']']) (by simp) rfl
      · exact partOf_ofChars (stem ++ ['[']) [']'] (by simp) (by simp; omega)
      · simp
      · simp
      · simp
      · simp
  | @withOpacity lead stem value suffix trail _ opacity marked trailing _ _ _ spelled =>
      apply proper_bracketLeaf
      · exact nonempty_ofChars _ (by simp)
      · exact partOf_ofChars lead trail rfl rfl
      · exact marked_iff_range_ne offset marked.cases trailing.cases
      · exact partOf_ofChars [] ('[' :: value ++ [']'] ++ suffix) (by simp) rfl
      · exact partOf_ofChars (stem ++ ['[']) (']' :: suffix) (by simp) (by simp; omega)
      · simp
      · rintro other ⟨⟩
        rw [spelled.range_eq]
        exact partOf_ofChars (stem ++ '[' :: value ++ [']']) [] (by simp) rfl
      · rintro other ⟨⟩
        rw [spelled.range_eq]
        simp
        omega
      · rintro other ⟨⟩
        exact Opacity.Spelled.value_partOf spelled

/-- The markers of a group show at the ends of its text. -/
theorem marked_iff_prefix (inside : List Char) {lead : List Char}
    (leading : lead = [] ∨ lead = ['!']) :
    (!lead.isEmpty) = true ↔ ['!'] <+: lead ++ '(' :: inside := by
  rcases leading with rfl | rfl
  · simp
  · simp

private theorem marked_iff_ends (inside : List Char) {lead trail : List Char}
    (leading : lead = [] ∨ lead = ['!']) (trailing : trail = [] ∨ trail = ['!']) :
    (!lead.isEmpty || !trail.isEmpty) = true ↔
      ['!'] <+: lead ++ '(' :: inside ++ ')' :: trail ∨
        [')', '!'] <:+ lead ++ '(' :: inside ++ ')' :: trail := by
  rw [Bool.or_eq_true, marked_iff_prefix (inside ++ ')' :: trail) leading]
  refine or_congr (by simp) ?_
  rcases trailing with rfl | rfl
  · refine iff_of_false (by simp) ?_
    rintro ⟨before, same⟩
    have lasts := congrArg (fun cs => cs.reverse.head?) same
    simp at lasts
  · exact iff_of_true rfl ⟨lead ++ '(' :: inside, by simp⟩

theorem range_partOf (framed : Framed interior) (offset : Nat) (cs : List Char) :
    (interior offset cs).range.PartOf (.ofChars offset cs) := by
  obtain ⟨lead, taken, rest, whole, range, _⟩ := framed offset cs
  rw [range]
  exact partOf_ofChars lead rest whole rfl

theorem GroupAt.allProper (framed : Framed interior)
    (proper : ∀ offset cs, (interior offset cs).AllProper) {offset : Nat} {taken rest : List Char}
    {node : Node} (groupAt : GroupAt interior offset taken rest node) : node.AllProper := by
  have openerSize : Char.utf8Size '(' = 1 := rfl
  cases groupAt with
  | @opened lead inside marked _ =>
      have within := range_partOf framed (offset + byteLength lead + 1) inside
      refine Node.allProper_group ⟨⟨lead, inside, [], marked.cases, Or.inl rfl, ?_, within⟩, ?_⟩ ?_
        (proper _ _)
      · rw [Token.toList_ofChars]
        simp
      · rw [Token.toList_ofChars, marked_iff_prefix inside marked.cases]
        simp
      · exact within.trans (partOf_ofChars (lead ++ ['(']) [] (by simp) (by simp; omega))
  | @closed lead inside trail _ marked trailing _ =>
      have within := range_partOf framed (offset + byteLength lead + 1) inside
      refine Node.allProper_group
        ⟨⟨lead, inside, trail, marked.cases, trailing.cases, ?_, within⟩, ?_⟩ ?_ (proper _ _)
      · rw [Token.toList_ofChars]
        simp
      · rw [Token.toList_ofChars, marked_iff_ends inside marked.cases trailing.cases]
        simp
      · exact within.trans (partOf_ofChars (lead ++ ['(']) (')' :: trail) (by simp)
          (by simp; omega))

private theorem allProper_span {offset : Nat} {text body : List Char} {variant : Variant}
    {child : Node}
    (range : variant.range = .ofChars offset text)
    (framed : child.range = .ofChars variant.range.stop body) (solid : child.isBlank = false)
    (proper : child.AllProper) :
    (Node.variantSpan (.ofChars variant.range.start (variant.range.text.toList ++ body)) variant
      (some child)).AllProper := by
  have stops : variant.range.stop = offset + byteLength text := by
    rw [range, Token.stop_ofChars]
  have whole : Token.ofChars variant.range.start (variant.range.text.toList ++ body) =
      .ofChars offset (text ++ body) := by
    rw [range, Token.start_ofChars, Token.toList_ofChars]
  have leading : variant.range.PartOf (.ofChars offset (text ++ body)) := by
    rw [range]
    exact partOf_ofChars [] body (by simp) rfl
  have inside : child.range.PartOf (.ofChars offset (text ++ body)) := by
    rw [framed, stops]
    exact partOf_ofChars text [] (by simp) rfl
  rw [whole]
  refine Node.allProper_variantSpan ⟨?_, leading, by simp, ?_, ?_, ?_⟩ inside proper
  · rw [range]
    rfl
  · rintro other ⟨⟩
    exact solid
  · rintro other ⟨⟩
    rw [framed, Token.start_ofChars]
  · rintro other ⟨⟩
    rw [framed, Token.stop_ofChars, Token.stop_ofChars, stops, byteLength_append]
    omega

theorem NodeAt.allProper (framed : Framed interior)
    (proper : ∀ offset cs, (interior offset cs).AllProper) {offset : Nat} {taken rest : List Char}
    {node : Node} (nodeAt : NodeAt reading interior offset taken rest node) :
    node.AllProper := by
  cases nodeAt with
  | leaf leafAt => exact Node.allProper_leaf leafAt.proper
  | group groupAt => exact groupAt.allProper framed proper
  | span spelled spanAt =>
      cases spanAt with
      | empty _ =>
          exact Node.allProper_bare ⟨rfl, Token.PartOf.refl _, fun _ => rfl, by simp, by simp, by simp⟩
      | group _ groupAt =>
          refine allProper_span spelled.range_eq groupAt.range_eq ?_
            (groupAt.allProper framed proper)
          cases groupAt <;> rfl
      | item _ _ _ range _ solid => exact allProper_span spelled.range_eq range solid (proper _ _)
  | openVariant _ =>
      exact Node.allProper_bare ⟨rfl, Token.PartOf.refl _, fun _ => rfl, by simp, by simp, by simp⟩

theorem ItemsAt.ordered {offset : Nat} {cs : List Char} {nodes : List Node}
    (itemsAt : ItemsAt reading interior offset cs nodes) :
    (∀ node ∈ nodes, node.kind ≠ .declaration ∧ node.range.start < node.range.stop ∧
      node.range.PartOf (.ofChars offset cs)) ∧
    nodes.Pairwise (fun left right => left.range.stop ≤ right.range.start) := by
  induction itemsAt with
  | done => exact ⟨by simp, List.Pairwise.nil⟩
  | ended _ => exact ⟨by simp, List.Pairwise.nil⟩
  | @blank offset c cs nodes _ _ ih =>
      obtain ⟨items, ordered⟩ := ih
      refine ⟨fun node member => ?_, ordered⟩
      obtain ⟨item, nonempty, inside⟩ := items node member
      exact ⟨item, nonempty, inside.trans (partOf_ofChars [c] [] (by simp) (by simp))⟩
  | @comment offset taken rest nodes _ _ ih =>
      obtain ⟨items, ordered⟩ := ih
      refine ⟨fun node member => ?_, ordered⟩
      obtain ⟨item, nonempty, inside⟩ := items node member
      exact ⟨item, nonempty, inside.trans (partOf_ofChars taken [] (by simp) rfl)⟩
  | @node offset taken rest first nodes nodeAt _ ih =>
      obtain ⟨items, ordered⟩ := ih
      have range := nodeAt.range_eq
      refine ⟨fun node member => ?_, List.pairwise_cons.2 ⟨fun node member => ?_, ordered⟩⟩
      · rcases List.mem_cons.1 member with rfl | later
        · refine ⟨nodeAt.kind_ne, ?_, ?_⟩
          · rw [range]
            exact nonempty_ofChars _ nodeAt.ne_nil
          · rw [range]
            exact partOf_ofChars [] rest (by simp) rfl
        · obtain ⟨item, nonempty, inside⟩ := items node later
          exact ⟨item, nonempty, inside.trans (partOf_ofChars taken [] (by simp) rfl)⟩
      · have later := (items node member).2.2.start_le
        rw [range, Token.stop_ofChars]
        exact later

theorem ItemsAt.allProper (framed : Framed interior)
    (proper : ∀ offset cs, (interior offset cs).AllProper) {offset : Nat} {cs : List Char}
    {nodes : List Node} (itemsAt : ItemsAt reading interior offset cs nodes) :
    ∀ node ∈ nodes, node.AllProper := by
  intro node member
  obtain ⟨_, _, _, _, nodeAt⟩ := itemsAt.exists_between node member
  exact nodeAt.allProper framed proper

theorem allProper_sequence (reading : Reading) (levels offset : Nat) (cs : List Char) :
    (sequence reading levels offset cs).AllProper := by
  induction levels generalizing offset cs with
  | zero =>
      rw [sequence]
      rcases remainder_cases offset cs with ⟨_, read⟩ | ⟨front, kept, _, _, _, _, nonempty, read⟩
      · rw [read]
        exact Node.allProper_declaration ⟨by simp, by simp, by simp, by simp, List.Pairwise.nil⟩
          (by simp)
      · rw [read]
        exact Node.allProper_leaf (LeafAt.unknown nonempty : LeafAt _ kept [] _).proper
  | succ levels ih =>
      have framed := framed_sequence reading levels
      obtain ⟨nodes, read, itemsAt⟩ := @itemsAt_items reading _ framed offset cs []
      rw [sequence, read, List.reverse_nil, List.nil_append]
      have proper := itemsAt.allProper framed ih
      by_cases single : nodes.length = 1
      · obtain ⟨node, rfl⟩ := List.length_eq_one_iff.1 single
        exact proper node List.mem_cons_self
      · rw [collect_of_length_ne single]
        obtain ⟨items, ordered⟩ := itemsAt.ordered
        exact Node.allProper_declaration ⟨single, fun child member => (items child member).1,
          fun child member => (items child member).2.1, fun child member => (items child member).2.2,
          ordered⟩ proper

theorem allProper_read (settings : Settings) (text : String) (limit : Option Nat) :
    (read settings text limit).AllProper := by
  rw [read_eq]
  exact allProper_sequence _ _ _ _

theorem read_partOf (settings : Settings) (text : String) (limit : Option Nat) :
    (read settings text limit).range.PartOf (.ofChars 0 text.toList) := by
  rw [read_eq]
  exact range_partOf (framed_sequence _ _) 0 text.toList

/-- A tree read between any two offsets lies in the window of these offsets, moved back to
boundaries, and keeps its shape at every node. -/
theorem readRange_proper (settings : Settings) (text : String) (start stop : Nat)
    (limit : Option Nat) :
    let last := floorBoundary text.toList stop
    let first := min (floorBoundary text.toList start) last
    ∃ window, Token.ofSource? text first last = some window ∧
      ∀ node ∈ (readRange settings text start stop limit).nodes,
        node.Proper ∧ (∀ child ∈ node.children, child.range.PartOf node.range) ∧
          node.range.PartOf window := by
  intro last first
  have lastBoundary : isBoundary text.toList last = true := isBoundary_floorBoundary _ _
  have firstBoundary : isBoundary text.toList first = true := by
    rcases Nat.le_total (floorBoundary text.toList start) last with before | behind
    · rw [show first = floorBoundary text.toList start from Nat.min_eq_left before]
      exact isBoundary_floorBoundary _ _
    · rw [show first = last from Nat.min_eq_right behind]
      exact lastBoundary
  obtain ⟨occurs, stops⟩ :=
    occurs_between (Nat.min_le_right _ _ : first ≤ last) firstBoundary lastBoundary
  have cut := Token.ofSource?_eq occurs
  rw [stops] at cut
  refine ⟨_, cut, ?_⟩
  intro node member
  have proper := allProper_sequence ⟨settings.separator.toList, limit⟩ (settings.maxDepth + 1) first
    (between first last text.toList)
  have framed := range_partOf (framed_sequence ⟨settings.separator.toList, limit⟩
    (settings.maxDepth + 1)) first (between first last text.toList)
  obtain ⟨shape, children⟩ := proper node member
  exact ⟨shape, children, (proper.inside node member).trans framed⟩

end Tree

end ClassExpr
