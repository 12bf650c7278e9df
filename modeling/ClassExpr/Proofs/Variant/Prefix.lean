import ClassExpr.Proofs.Printing.Nodes
import ClassExpr.Proofs.Spread
import ClassExpr.Proofs.Tree.Shift
import ClassExpr.Proofs.Variant.Extent

set_option autoImplicit false

/-! Variants put in front of an item. An item with a variant in front of it means what it means
alone, further on in the text and under one more variant, exactly if it is all that the variant
takes: then its tree is the tree of the item, one level down. -/

namespace ClassExpr

open Text Printing

namespace Tree

/-- For one character as a separator the weight is the number of its occurrences and of the opening
parentheses. -/
theorem weight_colon (cs : List Char) : weight [':'] cs = cs.count '(' + cs.count ':' := by
  induction cs with
  | nil => rfl
  | cons c cs ih =>
      have starts : ([':'] : List Char).isPrefixOf (c :: cs) = (c == ':') := by
        rw [List.isPrefixOf, List.isPrefixOf, Bool.and_true, Bool.beq_comm]
      rw [weight_cons, ih, starts, List.count_cons, List.count_cons]
      cases c == '(' <;> cases c == ':' <;> simp <;> omega

private theorem start_of_items {interior : Interior} (framed : Framed interior) {offset : Nat}
    {cs : List Char} {node : Node} (single : items reading interior offset 0 cs [] = [node]) :
    offset ≤ node.range.start := by
  obtain ⟨nodes, result, itemsAt⟩ := @itemsAt_items reading _ framed offset cs []
  rw [single] at result
  obtain rfl : [node] = nodes := result
  obtain ⟨lead, taken, rest, _, nodeAt⟩ := itemsAt.exists_single
  rw [nodeAt.range_eq, Token.start_ofChars]
  omega

private theorem isEmptyBody_of_begins {interior : Interior} {offset : Nat} {c : Char}
    {cs : List Char}
    {node : Node} (solid : isBlank c = false) (begins : Begins interior offset (c :: cs) node) :
    isEmptyBody (c :: cs) = false := by
  obtain ⟨lexeme, after, scanned, begun⟩ := begins
  cases line : Comment.startsLine (c :: cs) with
  | true =>
      rw [Lexeme.scan?, if_pos line] at scanned
      cases scanned
      cases begun
  | false =>
      cases block : Comment.startsBlock (c :: cs) with
      | true =>
          rw [Lexeme.scan?, if_neg (by rw [line]; decide), if_pos block] at scanned
          cases scanned
          cases begun
      | false => rw [isEmptyBody, List.head?_cons, Option.all_some, solid, line, block]; rfl

private theorem eq_singleton_of_collect {offset : Nat} {cs : List Char} {nodes : List Node}
    {node : Node}
    (single : node.kind ≠ .declaration) (collected : collect offset cs nodes = node) :
    nodes = [node] := by
  match nodes with
  | [] => exact absurd (by rw [← collected]; rfl) single
  | [_] => rw [← collected]; rfl
  | _ :: _ :: _ => exact absurd (by rw [← collected]; rfl) single

private theorem begins_of_items {interior : Interior} (framed : Framed interior) {offset : Nat}
    {cs : List Char} {node : Node} (single : items reading interior offset 0 cs [] = [node])
    (covers : node.range = .ofChars offset cs) :
    Begins interior offset cs node ∧ isEmptyBody cs = false := by
  have start : node.range.start = offset := by rw [covers]; rfl
  cases cs with
  | nil => cases single
  | cons c cs =>
      cases white : isBlank c with
      | true =>
          rw [items_blank white] at single
          have later := start_of_items framed single
          have positive := c.utf8Size_pos
          omega
      | false =>
          have found : (Lexeme.scan? [':'] offset (c :: cs)).isSome = true :=
            Lexeme.scan?_isSome white
          obtain ⟨⟨lexeme, after⟩, scanned⟩ := Option.isSome_iff_exists.1 found
          obtain ⟨taken, rest, _, takes, _, turn⟩ :=
            @items_turn reading _ framed offset c cs after lexeme [] white scanned
          have endless : reading.endsAt (offset + byteLength taken) = false := rfl
          rw [turn, List.append_nil, endless, if_neg Bool.false_ne_true] at single
          cases begun : node? reading interior offset (c :: cs) after lexeme with
          | none =>
              rw [begun, Option.toList_none] at single
              have later := start_of_items framed single
              obtain ⟨d, others, rfl⟩ := List.exists_cons_of_ne_nil takes.ne_nil
              have positive := d.utf8Size_pos
              rw [byteLength_cons] at later
              omega
          | some first =>
              obtain ⟨nodes, result, _⟩ :=
                @itemsAt_items reading _ framed (offset + byteLength taken) rest [first]
              rw [begun, Option.toList_some, result, List.reverse_singleton, List.singleton_append,
                List.cons.injEq] at single
              have begins : Begins interior offset (c :: cs) node :=
                ⟨lexeme, after, scanned, single.1 ▸ begun⟩
              exact ⟨begins, isEmptyBody_of_begins white begins⟩

private theorem sequence_of_begins {levels offset : Nat} {cs : List Char} {node : Node}
    (begins : Begins (sequence reading levels) offset cs node) (solid : isEmptyBody cs = false)
    (covers : node.range = .ofChars offset cs) : sequence reading (levels + 1) offset cs = node := by
  obtain ⟨lexeme, after, scanned, begun⟩ := begins
  cases cs with
  | nil => cases solid
  | cons c cs =>
      have white : isBlank c = false := by
        simp only [isEmptyBody, Bool.or_eq_false_iff, List.head?_cons, Option.all_some] at solid
        exact solid.1.1
      exact sequence_of_node? rfl white scanned begun covers

private theorem moves_reading (distance : Nat) : Moves distance reading reading :=
  ⟨rfl, by decide, fun _ _ => rfl⟩

private theorem group_of_begins {interior : Interior} {offset : Nat} {lead inside : List Char}
    {node : Node}
    (begins : Begins interior offset (lead ++ '(' :: inside) node)
    (marked : IsMarker lead ('(' :: inside)) :
    node = group interior offset (lead ++ '(' :: inside) := by
  obtain ⟨lexeme, after, scanned, begun⟩ := begins
  obtain ⟨leading, rfl⟩ : ∃ leading, lead = mark leading := by
    rcases marked.cases with empty | bang
    · exact ⟨false, empty⟩
    · exact ⟨true, bang⟩
  rw [scan?_group leading offset inside] at scanned
  cases scanned
  cases begun
  rfl

/-- What a variant has for its own is read one level down as it is read alone. -/
theorem attached_of_enclosed {levels : Nat} {cs : List Char} {node : Node}
    (begins : Begins (sequence reading levels) 0 cs node)
    (alone : sequence reading (levels + 1) 0 cs = node) (enclosed : Enclosed cs)
    (shallow : weight [':'] cs < levels) (distance : Nat) :
    attached reading (sequence reading levels) distance cs = node.shift distance := by
  have shifts : Shifts [':'] distance levels (sequence reading levels) (sequence reading levels) :=
    fun offset _ _ => sequence_shift (moves_reading distance) (Or.inl rfl) offset
  -- a group is read on the level of the variant, all else one below
  rcases group_cases cs with ⟨lead, inside, rfl, marked⟩ | single
  · have here := attached_group reading (sequence reading levels) 0 marked
    rw [← group_of_begins begins marked] at here
    have there := attached_shift (moves_reading distance) shifts 0 shallow
    rwa [Nat.zero_add, here] at there
  · have split := enclosed.resolve_left single
    have below := @sequence_shift _ _ distance (moves_reading distance) (levels + 1) levels cs
      (Or.inr ⟨Nat.lt_succ_of_lt shallow, shallow⟩) 0
    rw [Nat.zero_add, alone] at below
    rw [attached_single reading _ distance single]
    exact (congrArg (fun body => sequence reading levels distance body.1) split).trans below

private theorem stop_variant (modifier : Modifier) :
    (modifier.variant 0).range.stop = byteLength modifier.print := by
  rw [modifier.range_variant, Token.stop_ofChars, Nat.zero_add]

/-- A variant in front of an item that it has for its own is a span over both. -/
theorem sequence_modified {levels : Nat} {cs : List Char} {node : Node} (modifier : Modifier)
    (begins : Begins (sequence reading levels) 0 cs node) (solid : isEmptyBody cs = false)
    (covers : node.range = .ofChars 0 cs) (enclosed : Enclosed cs)
    (shallow : weight [':'] cs < levels) :
    sequence reading (levels + 1) 0 (modifier.print ++ cs) =
      .variantSpan (.ofChars 0 (modifier.print ++ cs)) (modifier.variant 0)
        (some (node.shift (byteLength modifier.print))) := by
  have alone := sequence_of_begins begins solid covers
  have child := attached_of_enclosed begins alone enclosed shallow (byteLength modifier.print)
  have ended : (node.shift (byteLength modifier.print)).range.stop -
      byteLength modifier.print = byteLength cs := by
    rw [Node.range_shift, covers, Token.stop_shift, Token.stop_ofChars]
    omega
  have span : variantSpan reading (sequence reading levels) (modifier.variant 0) cs =
      .variantSpan (.ofChars 0 (modifier.print ++ cs)) (modifier.variant 0)
        (some (node.shift (byteLength modifier.print))) := by
    have whole := splitBytes_byteLength cs []
    rw [List.append_nil] at whole
    rw [variantSpan_attached _ solid]
    simp only [stop_variant, child, ended, whole]
    rw [modifier.range_variant, Token.start_ofChars, Token.toList_ofChars]
  have begun := begins_variantSpan (sequence reading levels) 0 modifier cs
  rw [span] at begun
  exact sequence_of_begins begun (modifier.isEmptyBody_print cs) rfl

private theorem enclosed_of_sequence {levels : Nat} {cs : List Char} {modifier : Modifier}
    {variant : Variant} {child : Node}
    (whole : sequence reading (levels + 1) 0 (modifier.print ++ cs) =
      .variantSpan (.ofChars 0 (modifier.print ++ cs)) variant (some child))
    (solid : isEmptyBody cs = false)
    (covers : child.range = .ofChars (byteLength modifier.print) cs) : Enclosed cs := by
  rw [sequence] at whole
  have single := eq_singleton_of_collect (by simp [Node.kind]) whole
  have framed := framed_sequence reading levels
  obtain ⟨⟨lexeme, after, scanned, begun⟩, _⟩ := begins_of_items framed single rfl
  obtain ⟨lexeme, after, scanned', begun'⟩ :=
    begins_variantSpan (sequence reading levels) 0 modifier cs
  rw [scanned'] at scanned
  cases scanned
  rw [begun', variantSpan_attached _ solid] at begun
  simp only [stop_variant, Option.some.injEq, Node.variantSpan.injEq] at begun
  obtain ⟨_, _, rfl⟩ := begun
  by_cases grouped : (cs.drop (marker cs).length).head? = some '('
  · exact Or.inl grouped
  · rw [attached_single reading _ _ grouped] at covers
    have parts := Body.split_append [':'] cs
    obtain ⟨lead, taken, rest, within, range, _⟩ :=
      framed (byteLength modifier.print) (Body.split [':'] cs).1
    -- the item goes as far as the window does only if the body does so too
    have texts : taken = cs := Token.ofChars_inj (range.symm.trans covers)
    have sizes := congrArg List.length parts
    rw [within, texts] at sizes
    simp only [List.length_append] at sizes
    have ended : (Body.split [':'] cs).2 = [] := List.eq_nil_of_length_eq_zero (by omega)
    rw [ended, List.append_nil] at parts
    exact Or.inr (Prod.ext parts ended)

theorem read_colon {settings : Settings} (colon : settings.separator = ":") (text : String) :
    read settings text none = sequence reading (settings.maxDepth + 1) 0 text.toList := by
  rw [read_eq, colon]
  rfl

end Tree

namespace Spread

open ClassExpr.Tree

/-- The text is a single item from its start to its end, without faults and known for what it is. -/
structure IsItem (settings : Settings) (text : String) : Prop where
  single : (read settings text none).kind ≠ .declaration
  covers : (read settings text none).range = ⟨0, text⟩
  sound : (ofText settings text).hasFaults = false
  known : (ofText settings text).unknown = []

/-- With the variant in front the text means what it means alone, under one more variant and as much
further on, and none of it falls outside of the variant. -/
structure Prefixed (settings : Settings) (name text : String) : Prop where
  items : (ofText settings (name ++ ":" ++ text)).items =
    (ofText settings text).items.map (Item.under [⟨0, name⟩] (name.utf8ByteSize + 1))
  sound : (ofText settings (name ++ ":" ++ text)).hasFaults = false
  whole : ∃ variant child, read settings (name ++ ":" ++ text) none =
      .variantSpan ⟨0, name ++ ":" ++ text⟩ variant (some child) ∧
    variant.identifier = ⟨0, name⟩ ∧ child.range = ⟨name.utf8ByteSize + 1, text⟩

variable {settings : Settings} {name text : String}

private theorem isBlank_of_kind_ne {node : Node} (single : node.kind ≠ .declaration) :
    node.isBlank = false := by
  cases node with
  | declaration => exact absurd rfl single
  | variantSpan => rfl
  | group => rfl
  | leaf => rfl

theorem IsItem.begins (item : IsItem settings text) (separator : settings.separator = ":") :
    Begins (sequence reading settings.maxDepth) 0 text.toList (read settings text none) ∧
      isEmptyBody text.toList = false ∧
      (read settings text none).range = .ofChars 0 text.toList := by
  have covers : (read settings text none).range = .ofChars 0 text.toList := by
    rw [item.covers, Token.ofChars, String.ofList_toList]
  have single := eq_singleton_of_collect item.single (read_colon separator text).symm
  obtain ⟨begins, solid⟩ :=
    begins_of_items (framed_sequence reading settings.maxDepth) single covers
  exact ⟨begins, solid, covers⟩

private theorem exists_name (nonempty : name ≠ "") (letters : ∀ c ∈ name.toList, c.isAlpha = true) :
    ∃ variant : Name, String.ofList variant.chars = name := by
  refine ⟨⟨name.toList, by simpa using nonempty, fun c member => ?_⟩, String.ofList_toList⟩
  rw [isNameChar, isAsciiWord, Char.isAlphanum, letters c member]
  rfl

section

variable (variant : Name)

private theorem ofChars_print (text : String) :
    Token.ofChars 0 ((Modifier.named variant).print ++ text.toList) =
      ⟨0, String.ofList variant.chars ++ ":" ++ text⟩ := by
  have same : (Modifier.named variant).print ++ text.toList =
      (String.ofList variant.chars ++ ":" ++ text).toList := by
    rw [String.toList_append, String.toList_append, String.toList_ofList]
    rfl
  rw [Token.ofChars, same, String.ofList_toList]

theorem read_print (separator : settings.separator = ":") (text : String) :
    read settings (String.ofList variant.chars ++ ":" ++ text) none =
      sequence reading (settings.maxDepth + 1) 0
        ((Modifier.named variant).print ++ text.toList) := by
  rw [read_colon separator, String.toList_append, String.toList_append, String.toList_ofList]
  rfl

theorem byteLength_print :
    byteLength (Modifier.named variant).print = (String.ofList variant.chars).utf8ByteSize + 1 := by
  rw [utf8ByteSize_ofList, Modifier.print, byteLength_append]
  rfl

end

private theorem prefixed_of_enclosed (variant : Name) (separator : settings.separator = ":")
    (item : IsItem settings text) (shallow : weight [':'] text.toList < settings.maxDepth)
    (enclosed : Enclosed text.toList) :
    Prefixed settings (String.ofList variant.chars) text := by
  obtain ⟨begins, solid, covers⟩ := item.begins separator
  have tree := sequence_modified (.named variant) begins solid covers enclosed shallow
  rw [← read_print variant separator, ofChars_print, byteLength_print] at tree
  have filled : (read settings text none).isBlank = false := isBlank_of_kind_ne item.single
  have spread : ofText settings (String.ofList variant.chars ++ ":" ++ text) =
      (ofText settings text).under [⟨0, String.ofList variant.chars⟩]
        ((String.ofList variant.chars).utf8ByteSize + 1) := by
    rw [ofText, tree]
    exact ofNode_span _ _ ((Modifier.named variant).closed_variant 0) filled
  refine ⟨by rw [spread]; rfl, by rw [spread, hasFaults_under, item.sound], _, _, tree, rfl, ?_⟩
  rw [Node.range_shift, item.covers, Token.shift, Nat.zero_add]

private theorem enclosed_of_prefixed (variant : Name) (separator : settings.separator = ":")
    (item : IsItem settings text)
    (fixed : Prefixed settings (String.ofList variant.chars) text) : Enclosed text.toList := by
  obtain ⟨_, solid, _⟩ := item.begins separator
  obtain ⟨outer, child, tree, _, range⟩ := fixed.whole
  rw [read_print variant separator, ← ofChars_print] at tree
  refine enclosed_of_sequence tree solid ?_
  rw [range, byteLength_print, Token.ofChars, String.ofList_toList]

/-- A variant of letters in front of an item leaves its meaning as it is exactly if it has the item
for its own, and so does every such variant if the item hides no bracket from it. -/
theorem prefixed_iff_enclosed (separator : settings.separator = ":")
    (nonempty : name ≠ "") (letters : ∀ c ∈ name.toList, c.isAlpha = true)
    (item : IsItem settings text)
    (shallow : text.toList.count '(' + text.toList.count ':' < settings.maxDepth) :
    (Prefixed settings name text ↔ Enclosed text.toList) ∧
      (Overt text.toList → Prefixed settings name text) := by
  obtain ⟨variant, rfl⟩ := exists_name nonempty letters
  rw [← weight_colon] at shallow
  refine ⟨⟨enclosed_of_prefixed variant separator item,
    prefixed_of_enclosed variant separator item shallow⟩, fun overt => ?_⟩
  obtain ⟨begins, _, covers⟩ := item.begins separator
  have enclosed := enclosed_of_begins (framed_sequence reading settings.maxDepth) begins covers
    item.sound item.known overt
  exact prefixed_of_enclosed variant separator item shallow enclosed

theorem prefixed_iff_enclosed_nested :
    IsItem {} "md:(p-1 hover:mt-[2px]!)" ∧ Prefixed {} "dark" "md:(p-1 hover:mt-[2px]!)" := by
  have item : IsItem {} "md:(p-1 hover:mt-[2px]!)" :=
    ⟨by decide +kernel, by decide +kernel, by decide +kernel, by decide +kernel⟩
  have unquoted : "md:(p-1 hover:mt-[2px]!)".toList.all (!Bracket.isQuote ·) = true := by
    decide +kernel
  have overt : Overt "md:(p-1 hover:mt-[2px]!)".toList :=
    ⟨by decide +kernel, fun _ => by simpa using List.all_eq_true.1 unquoted⟩
  have letters : "dark".toList.all Char.isAlpha = true := by decide +kernel
  refine ⟨item, (prefixed_iff_enclosed rfl ?_ (List.all_eq_true.1 letters) item ?_).2 overt⟩
  · decide +kernel
  · decide +kernel

/-- A quoted parenthesis does not close the group of `md`, but it ends the body of `dark`. -/
theorem not_prefixed_quoted :
    IsItem {} "md:(content-[')'] p-1)" ∧
      "md:(content-[')'] p-1)".toList.count '(' + "md:(content-[')'] p-1)".toList.count ':' < 128 ∧
      ¬Prefixed {} "dark" "md:(content-[')'] p-1)" := by
  refine ⟨⟨by decide +kernel, by decide +kernel, by decide +kernel, by decide +kernel⟩,
    by decide +kernel, ?_⟩
  intro fixed
  have broken : (ofText {} ("dark" ++ ":" ++ "md:(content-[')'] p-1)")).hasFaults = true := by
    decide +kernel
  rw [fixed.sound] at broken
  cases broken

end Spread

end ClassExpr
