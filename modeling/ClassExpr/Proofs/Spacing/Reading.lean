import ClassExpr.Proofs.Spacing.Extent
import ClassExpr.Proofs.Spacing.Wording
import ClassExpr.Proofs.Tree.Complete

set_option autoImplicit false

/-! Reading two texts that differ in white space only. Where the body of every variant is still one
body once its white space is replaced, both texts are read as the same items: what is taken at the
start of the two differs in white space only, and so does what is left of them. -/

namespace ClassExpr

open Text

/-- A text, less the white space at its end, that is one body even if all its white space is spaces.
-/
def Body.isSteady (separator cs : List Char) : Bool :=
  (split separator ((trimEnd cs).map spaced)).2.isEmpty

namespace Node

/-- What a variant applies to is such a text, unless it is a group. -/
def keepsBody (separator : List Char) : Node → Bool
  | .variantSpan _ _ (some child) =>
      child.kind == .group || Body.isSteady separator child.range.text.toList
  | _ => true

def Steady (separator : List Char) (node : Node) : Prop :=
  ∀ inner ∈ node.nodes, inner.keepsBody separator = true

instance (separator : List Char) (node : Node) : Decidable (node.Steady separator) :=
  inferInstanceAs (Decidable (∀ inner ∈ node.nodes, inner.keepsBody separator = true))

theorem Steady.child {separator : List Char} {node child : Node} (steady : node.Steady separator)
    (member : child ∈ node.children) : child.Steady separator :=
  fun inner inside => steady inner ((mem_nodes_iff node _).2 (Or.inr ⟨child, member, inside⟩))

theorem Steady.body {separator : List Char} {range : Token} {variant : Variant} {child : Node}
    (steady : (variantSpan range variant (some child)).Steady separator)
    (single : child.kind ≠ .group) : Body.isSteady separator child.range.text.toList = true := by
  rcases Bool.or_eq_true_iff.1 (steady _ (mem_nodes_self _)) with group | body
  · exact absurd (eq_of_beq group) single
  · exact body

end Node

namespace Tree

variable {reading : Reading} {interior : Interior}

def Spaces (separator : List Char) (interior : Interior) : Prop :=
  ∀ offset offset' cs others, Free cs → Spaced cs others →
    (interior offset cs).Steady separator →
    (interior offset cs).Respaced (interior offset' others)

/-- An interior that does not start with white space is read up to the white space at its end. -/
def Tight (interior : Interior) : Prop :=
  ∀ offset cs, Free cs → isEmptyBody cs = false →
    ∃ taken back, cs = taken ++ back ∧ (∀ c ∈ back, isBlank c = true) ∧
      (interior offset cs).range = .ofChars offset taken

/-- Nodes at the start of two texts that say the same and leave the same but for white space. -/
inductive Matches (offset offset' : Nat) (cs others : List Char) (node other : Node) : Prop
  | intro {taken rest taken' rest' : List Char} (whole : cs = taken ++ rest)
      (whole' : others = taken' ++ rest') (range : node.range = .ofChars offset taken)
      (range' : other.range = .ofChars offset' taken') (rests : Loose rest rest')
      (same : node.Respaced other)

/-! ### Interiors -/

private theorem not_free_of_spans {taken rest : List Char} (spans : Comment.Spans taken rest) :
    ¬Free (taken ++ rest) := by
  intro free
  obtain ⟨inside, rfl⟩ := List.head?_eq_some_iff.1 spans.head?
  exact absurd (free '/' List.mem_cons_self) (by decide)

private theorem blank_of_itemsAt_nil {offset : Nat} {cs : List Char}
    (endless : reading.limit = none)
    (free : Free cs) (itemsAt : ItemsAt reading interior offset cs []) :
    ∀ c ∈ cs, isBlank c = true := by
  generalize none : ([] : List Node) = nodes at itemsAt
  induction itemsAt with
  | done => simp
  | ended limited =>
      rw [Reading.endsAt, endless] at limited
      cases limited
  | blank white _ ih =>
      rw [List.forall_mem_cons]
      exact ⟨white, ih (fun c member => free c (List.mem_cons_of_mem _ member)) none⟩
  | comment spans _ _ => exact absurd free (not_free_of_spans spans)
  | node _ _ _ => cases none

private theorem exists_single_of_free {offset : Nat} {cs : List Char} {node : Node}
    (endless : reading.limit = none) (free : Free cs)
    (itemsAt : ItemsAt reading interior offset cs [node]) :
    ∃ front taken back, cs = front ++ taken ++ back ∧ (∀ c ∈ front, isBlank c = true) ∧
      (∀ c ∈ back, isBlank c = true) ∧ node.range = .ofChars (offset + byteLength front) taken := by
  generalize single : [node] = nodes at itemsAt
  induction itemsAt with
  | done => cases single
  | ended _ => cases single
  | @blank offset c cs nodes white _ ih =>
      obtain ⟨front, taken, back, rfl, before, behind, range⟩ :=
        ih (fun d member => free d (List.mem_cons_of_mem c member)) single
      refine ⟨c :: front, taken, back, rfl, List.forall_mem_cons.2 ⟨white, before⟩, behind, ?_⟩
      rw [byteLength_cons, ← Nat.add_assoc]
      exact range
  | comment spans _ _ => exact absurd free (not_free_of_spans spans)
  | @node offset taken rest other nodes nodeAt later _ =>
      cases single
      exact ⟨[], taken, rest, rfl, by simp, blank_of_itemsAt_nil endless free.of_append.2 later,
        nodeAt.range_eq⟩

private theorem isEmptyBody_of_head {front rest : List Char} (blank : ∀ c ∈ front, isBlank c = true)
    (something : isEmptyBody (front ++ rest) = false) : front = [] := by
  cases front with
  | nil => rfl
  | cons c front =>
      rw [List.cons_append, isEmptyBody_of_blank _ (blank c List.mem_cons_self)] at something
      cases something

theorem tight_sequence (endless : reading.limit = none) (levels : Nat) :
    Tight (sequence reading levels) := by
  intro offset cs free something
  have alone : ∀ {front taken back : List Char} {node : Node}, cs = front ++ taken ++ back →
      (∀ c ∈ front, isBlank c = true) → (∀ c ∈ back, isBlank c = true) →
      node.range = .ofChars (offset + byteLength front) taken →
      ∃ taken back, cs = taken ++ back ∧ (∀ c ∈ back, isBlank c = true) ∧
        node.range = .ofChars offset taken := by
    rintro front taken back node rfl before behind range
    rw [List.append_assoc] at something
    obtain rfl := isEmptyBody_of_head before something
    exact ⟨taken, back, rfl, behind, range⟩
  cases levels with
  | zero =>
      rw [sequence]
      rcases remainder_cases offset cs with ⟨_, read⟩ | ⟨_, _, _, whole, before, behind, _, read⟩
      · rw [read]
        exact ⟨cs, [], by simp, by simp, rfl⟩
      · rw [read]
        exact alone whole before behind rfl
  | succ levels =>
      obtain ⟨nodes, read, itemsAt⟩ :=
        @itemsAt_items reading _ (framed_sequence reading levels) offset cs []
      rw [sequence, read, List.reverse_nil, List.nil_append]
      rcases collect_cases offset cs nodes with ⟨node, rfl⟩ | several
      · obtain ⟨_, _, _, whole, before, behind, range⟩ := exists_single_of_free endless free itemsAt
        exact alone whole before behind range
      · rw [several]
        exact ⟨cs, [], by simp, by simp, rfl⟩

/-! ### Groups -/

theorem group_matches {separator : List Char} (spaces : Spaces separator interior)
    (offset offset' : Nat) {lead inside inside' : List Char} (marked : IsMarker lead ('(' :: inside))
    (free : Free inside) (later : Spaced inside inside')
    (steady : (group interior offset (lead ++ '(' :: inside)).Steady separator) :
    Matches offset offset' (lead ++ '(' :: inside) (lead ++ '(' :: inside')
      (group interior offset (lead ++ '(' :: inside))
      (group interior offset' (lead ++ '(' :: inside')) := by
  have opened : Spaced ('(' :: inside) ('(' :: inside') := later.cons '('
  have freeOpened : Free ('(' :: inside) := List.forall_mem_cons.2 ⟨rfl, free⟩
  have marked' : IsMarker lead ('(' :: inside') := marked
  rcases Bracket.split?_spaced freeOpened opened with ⟨none, none'⟩ |
    ⟨content, closed, closed', found, found', spaced⟩
  · rw [group_open interior offset marked none,
      group_open interior offset' marked' none']
    exact Matches.intro (List.append_nil _).symm (List.append_nil _).symm rfl rfl
      (Loose.of_spaced (Spaced.map [])) (Node.respaced_open _ _ _ _ _)
  · obtain ⟨content, after, rfl, rfl, rfl⟩ := Bracket.split?_parens found
    obtain ⟨content', after', same, rfl, rfl⟩ := Bracket.split?_parens found'
    obtain rfl : content' = content.map Text.spaced := (List.cons.inj same).2.symm
    have behind : Spaced after after' := spaced.of_cons rfl
    have grouped := group_of_split interior offset marked found
    have grouped' := group_of_split interior offset' marked' found'
    rw [List.cons_append] at grouped grouped'
    rw [grouped] at steady ⊢
    rw [grouped']
    obtain ⟨sameTrail, rest, rest', parts, parts', _, _, rests⟩ := Lexeme.marker_spaced behind
    rw [sameTrail]
    generalize marker after = trail at *
    subst parts parts'
    refine Matches.intro (by simp) (by simp) rfl rfl (Loose.of_spaced rests)
      (Node.Respaced.group ?_ _ _ _)
    exact spaces _ _ _ _ free.of_append.1 (Spaced.map content)
      (steady.child (by simp [Node.children]))

/-! ### Variants -/

private theorem isEmptyBody_spaced {cs others : List Char} (free : Free cs)
    (later : Spaced cs others) :
    isEmptyBody others = isEmptyBody cs := by
  obtain ⟨noLine, noBlock⟩ := free.no_comment
  obtain ⟨noLine', noBlock'⟩ := (free.spaced later).no_comment
  rw [isEmptyBody, isEmptyBody, later.head?_all, noLine, noBlock, noLine', noBlock']

theorem getLast?_trimEnd (cs : List Char) : ∀ c ∈ (trimEnd cs).getLast?, isBlank c = false := by
  intro c isLast
  rw [trimEnd, List.getLast?_reverse] at isLast
  have refused := List.head?_dropWhile_not isBlank cs.reverse
  rw [Option.mem_def.1 isLast] at refused
  simpa using refused

private theorem body_matches (sound : Settings.SoundSeparator reading.separator)
    (spaces : Spaces reading.separator interior) (tight : Tight interior)
    (proper : ∀ offset cs, (interior offset cs).AllProper) (offset offset' : Nat)
    {cs others : List Char} (free : Free cs) (later : Spaced cs others)
    (something : isEmptyBody cs = false) (single : (cs.drop (marker cs).length).head? ≠ some '(')
    (steady : (interior offset (Body.split reading.separator cs).1).Steady reading.separator)
    (stays : (interior offset (Body.split reading.separator cs).1).kind ≠ .group →
      Body.isSteady reading.separator
        (interior offset (Body.split reading.separator cs).1).range.text.toList = true) :
    Matches offset offset' cs others (interior offset (Body.split reading.separator cs).1)
      (interior offset' (Body.split reading.separator others).1) := by
  have whole := Body.split_append reading.separator cs
  have solid : isEmptyBody (Body.split reading.separator cs).1 = false := isEmptyBody_split something
  generalize delimited : Body.split reading.separator cs = parts at *
  obtain ⟨body, rest⟩ := parts
  dsimp only at whole solid steady stays ⊢
  have freeBody : Free body := (whole ▸ free).of_append.1
  obtain ⟨taken, back, rfl, blank, range⟩ := tight offset body freeBody solid
  have other : (interior offset (taken ++ back)).kind ≠ .group := by
    rw [← whole, List.append_assoc] at single
    exact kind_ne_group (proper _ _) range single
  have steadyBody := stays other
  rw [range, Token.toList_ofChars, Body.isSteady, List.isEmpty_iff] at steadyBody
  obtain ⟨white, trimmed, blankEnd⟩ := trimEnd_eq taken
  have ends := getLast?_trimEnd taken
  generalize trimEnd taken = core at *
  have blankBack : ∀ c ∈ white ++ back, isBlank c = true := fun c member =>
    (List.mem_append.1 member).elim (blankEnd c) (blank c)
  subst whole
  rw [trimmed, List.append_assoc core] at delimited later free
  obtain ⟨back', rest', delimited', spacesBack, loose⟩ :=
    Body.split_spaced sound free later delimited blankBack ends steadyBody
  have bodies : Spaced (taken ++ back) (core.map spaced ++ back') := by
    rw [trimmed, List.append_assoc]
    exact Spaced.append core (Spaced.ended blankBack spacesBack)
  have solid' := (isEmptyBody_spaced freeBody bodies).trans solid
  obtain ⟨taken', behind', parts', blank', range'⟩ :=
    tight offset' _ (freeBody.spaced bodies) solid'
  have whole' := Body.split_append reading.separator others
  rw [delimited'] at whole' ⊢
  refine Matches.intro (List.append_assoc ..) ?_ range range'
    (Loose.append blank blank' loose) (spaces _ _ _ _ freeBody bodies steady)
  rw [← whole', parts', List.append_assoc]

private theorem attached_matches (sound : Settings.SoundSeparator reading.separator)
    (spaces : Spaces reading.separator interior) (tight : Tight interior)
    (proper : ∀ offset cs, (interior offset cs).AllProper) (offset offset' : Nat)
    {cs others : List Char} (free : Free cs) (later : Spaced cs others)
    (something : isEmptyBody cs = false)
    (steady : (attached reading interior offset cs).Steady reading.separator)
    (stays : (attached reading interior offset cs).kind ≠ .group →
      Body.isSteady reading.separator
        (attached reading interior offset cs).range.text.toList = true) :
    Matches offset offset' cs others (attached reading interior offset cs)
      (attached reading interior offset' others) := by
  obtain ⟨sameLead, follow, follow', whole, whole', marked, marked', rests⟩ :=
    Lexeme.marker_spaced later
  have first := rests.head?_beq (d := '(') rfl
  cases opens : follow.head? == some '(' with
  | true =>
      rw [opens] at first
      obtain ⟨inside, rfl⟩ := List.head?_eq_some_iff.1 (beq_iff_eq.1 opens)
      obtain ⟨inside', rfl⟩ := List.head?_eq_some_iff.1 (beq_iff_eq.1 first)
      have within : Spaced inside inside' := rests.of_cons rfl
      generalize marker cs = lead at *
      subst whole whole'
      rw [attached_group reading interior offset marked] at steady ⊢
      rw [attached_group reading interior offset' marked']
      refine group_matches spaces offset offset' marked ?_ within steady
      exact fun c member => free c (by simp [member])
  | false =>
      have dropped : cs.drop (marker cs).length = follow := by
        rw [whole, marker_append marked, List.drop_left]
      have dropped' : others.drop (marker others).length = follow' := by
        rw [whole', marker_append marked', List.drop_left]
      have single : (cs.drop (marker cs).length).head? ≠ some '(' := by
        rw [dropped]
        exact beq_eq_false_iff_ne.1 opens
      have single' : (others.drop (marker others).length).head? ≠ some '(' := by
        rw [dropped']
        exact beq_eq_false_iff_ne.1 (first.trans opens)
      rw [attached_single reading interior offset single] at steady stays ⊢
      rw [attached_single reading interior offset' single']
      exact body_matches sound spaces tight proper offset offset' free later something single steady
        stays

private theorem span_range {offset : Nat} {front : List Char} {variant : Variant}
    {child : Option Node}
    (range : variant.range = .ofChars offset front) (taken : List Char) :
    (Node.variantSpan (.ofChars variant.range.start (variant.range.text.toList ++ taken)) variant
      child).range = .ofChars offset (front ++ taken) := by
  rw [Node.range, range, Token.start_ofChars, Token.toList_ofChars]

theorem variantSpan_matches (sound : Settings.SoundSeparator reading.separator)
    (spaces : Spaces reading.separator interior) (tight : Tight interior)
    (proper : ∀ offset cs, (interior offset cs).AllProper) {offset offset' : Nat}
    {front cs others : List Char} {variant variant' : Variant}
    (range : variant.range = .ofChars offset front)
    (range' : variant'.range = .ofChars offset' front) (closed : variant'.closed = variant.closed)
    (named : variant'.identifier.text = variant.identifier.text) (free : Free cs)
    (later : Spaced cs others)
    (steady : (variantSpan reading interior variant cs).Steady reading.separator) :
    Matches offset offset' (front ++ cs) (front ++ others)
      (variantSpan reading interior variant cs) (variantSpan reading interior variant' others) := by
  have same := isEmptyBody_spaced free later
  cases something : isEmptyBody cs with
  | true =>
      rw [something] at same
      unfold variantSpan
      rw [something, same]
      exact Matches.intro rfl rfl range range' (Loose.of_spaced later)
        (Node.respaced_childless _ _ _ _)
  | false =>
      rw [something] at same
      rw [variantSpan_attached variant something] at steady
      obtain ⟨whole, whole', spans, spans', rests, respaced⟩ := attached_matches sound spaces tight
        proper variant.range.stop variant'.range.stop free later something
        (steady.child (by simp [Node.children])) steady.body
      rw [variantSpan_of_child something rfl spans whole,
        variantSpan_of_child same rfl spans' whole']
      refine Matches.intro ?_ ?_ (span_range range _) (span_range range' _) rests
        (respaced.variantSpan closed named _ _)
      · rw [List.append_assoc, ← whole]
      · rw [List.append_assoc, ← whole']

end Tree

end ClassExpr
