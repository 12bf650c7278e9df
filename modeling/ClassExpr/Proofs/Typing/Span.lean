import ClassExpr.Proofs.Printing.Scanning
import ClassExpr.Proofs.Typing.Group

set_option autoImplicit false

/-! Typing behind a variant. What is typed right behind the variant is what the variant applies to;
what is typed behind its body is none of it; and a body takes what is typed in it. -/

namespace ClassExpr

open Text Completion Hover Printing

private theorem Variant.Spelled.start_lt_stop {offset : Nat} {front : List Char} {variant : Variant}
    (spelled : variant.Spelled [':'] offset front) :
    variant.range.start < variant.range.stop := by
  obtain ⟨c, cs, rfl⟩ := List.exists_cons_of_ne_nil spelled.ne_nil
  have positive := c.utf8Size_pos
  rw [spelled.range_eq, Token.start_ofChars, Token.stop_ofChars, byteLength_cons]
  omega

theorem Variant.Spelled.stop_eq {offset : Nat} {front : List Char} {variant : Variant}
    (spelled : variant.Spelled [':'] offset front) :
    variant.range.stop = offset + byteLength front := by
  rw [spelled.range_eq, Token.stop_ofChars]

namespace Tree

variable {text : String} {position bound : Nat} {interior : Interior} {all : List Node}
  {windows : List Window} {offset : Nat} {left right tail : List Char} {scope : Scope}
  {variant : Variant}

private theorem isEmptyBody_ahead {c : Char} {cs other more : List Char}
    (next : cs ≠ [] ∨ c ≠ '/') :
    isEmptyBody (c :: cs ++ other) = isEmptyBody (c :: cs ++ more) := by
  have same : Comment.startsLine (c :: cs ++ other) = Comment.startsLine (c :: cs ++ more) ∧
      Comment.startsBlock (c :: cs ++ other) = Comment.startsBlock (c :: cs ++ more) := by
    cases cs with
    | nil =>
        have plain : c ≠ '/' := next.resolve_left (by simp)
        obtain ⟨line, block⟩ := @Comment.no_start ([c] ++ other) (by simpa using plain)
        obtain ⟨noLine, noBlock⟩ := @Comment.no_start ([c] ++ more) (by simpa using plain)
        rw [line, block, noLine, noBlock]
        exact ⟨rfl, rfl⟩
    | cons d cs => exact Comment.starts_ahead rfl
  rw [isEmptyBody, isEmptyBody, same.1, same.2]
  rfl

private theorem isEmptyBody_typed (nonempty : left ≠ [])
    (something : isEmptyBody (left ++ right) = false) :
    isEmptyBody (left ++ 'x' :: tail) = false := by
  obtain ⟨c, cs, rfl⟩ := List.exists_cons_of_ne_nil nonempty
  by_cases slash : cs = [] ∧ c = '/'
  · obtain ⟨rfl, rfl⟩ := slash
    rfl
  · rw [@isEmptyBody_ahead c cs ('x' :: tail) right (Decidable.not_and_iff_not_or_not.1 slash)]
    exact something

private theorem meets_child {node child : Node} {range : Token} {steady : Prop}
    (proper : (Node.variantSpan range variant (some child)).AllProper)
    (past : variant.range.stop ≤ position) (touched : node.range.touches position = true)
    (lands : Lands position (scope.enter variant) (locate position scope node)
      (fun scope => resolve position scope child) (node.Around position) steady) :
    Meets position offset left scope node (.variantSpan range variant (some child)) steady := by
  have contains : range.contains position = true := by
    obtain ⟨_, _, _, _, there, _⟩ := lands
    have name := there {}
    dsimp only at name
    have within : child.range.contains position = true := by
      apply Classical.byContradiction
      intro outside
      rw [resolve_eq_none (by simpa using outside)] at name
      cases name
    have part := (proper _ (Node.mem_nodes_self _)).2 child (by simp [Node.children])
    exact part.contains within
  refine Meets.inside touched (by exact contains) ?_
  obtain ⟨variants, least, most, here, there, outside, same⟩ := lands.enter
  refine ⟨variants, least, most, here, fun scope => ?_, outside, same⟩
  have name := there scope
  have behind : variant.range.contains position = false := by
    rw [Token.not_contains_iff]
    omega
  dsimp only at name ⊢
  rw [resolve_variantSpan, contains, behind]
  exact name

section

variable {front : List Char}

theorem spanAt_allProper (framed : Framed interior)
    (proper : ∀ offset cs, (interior offset cs).AllProper)
    (spelled : variant.Spelled [':'] offset front) (cs : List Char) :
    (variantSpan reading interior variant cs).AllProper := by
  obtain ⟨_, _, _, spanAt⟩ := @spanAt_variantSpan reading _ framed variant cs
  have nodeAt : NodeAt reading interior offset _ _ (variantSpan reading interior variant cs) :=
    NodeAt.span spelled spanAt
  exact nodeAt.allProper framed proper

theorem exists_variantSpan (interior : Interior) (variant : Variant)
    (cs : List Char) :
    ∃ range child, variantSpan reading interior variant cs = .variantSpan range variant child := by
  unfold variantSpan
  split
  · exact ⟨_, _, rfl⟩
  · exact ⟨_, _, rfl⟩

private theorem locate_stop {range : Token} {child : Option Node}
    (proper : (Node.variantSpan range variant child).AllProper)
    (starts : variant.range.start < position) (place : variant.range.stop = position) :
    range.touches position = true ∧
      locate position scope (.variantSpan range variant child) = .ofScope (scope.enter variant) := by
  have shape : Node.ProperSpan range variant child := (proper _ (Node.mem_nodes_self _)).1
  have touched : range.touches position = true := by
    have first := shape.start
    have last := shape.leading.stop_le
    rw [Token.touches_iff]
    omega
  refine ⟨touched, ?_⟩
  have inside : ¬position < variant.range.stop := by omega
  have front : ¬position ≤ variant.range.start := by omega
  have behind : ¬variant.range.stop < position := by omega
  cases child with
  | none => simp [locate, touched, inside, front]
  | some child => simp [locate, touched, inside, front, behind]

private theorem meets_bare (tracks : Tracks text position bound interior) (framed : Framed interior)
    (proper : ∀ offset cs, (interior offset cs).AllProper) (positive : 0 < bound)
    (spelled : variant.Spelled [':'] offset front) (site : Site text position offset front right tail)
    {steady : Prop} :
    Meets position offset front scope (variantSpan reading interior variant right)
      (variantSpan reading interior variant ('x' :: tail)) steady := by
  have range := spelled.range_eq
  have place : variant.range.stop = position := by rw [range, Token.stop_ofChars, site.place]
  have allProper := spanAt_allProper framed proper spelled right
  have typedProper := spanAt_allProper framed proper spelled ('x' :: tail)
  have body : (Body.split [':'] ('x' :: tail)).1 = ['x'] := by
    rcases site.isTail with rfl | ⟨later, rfl⟩
    · rfl
    · rfl
  rw [variantSpan_attached variant (show isEmptyBody ('x' :: tail) = false from rfl)] at typedProper ⊢
  have child : attached reading interior variant.range.stop ('x' :: tail) =
      interior position ['x'] := by
    rw [attached, if_neg (by simp [marker]), place]
    exact congrArg (interior position) body
  rw [child] at typedProper ⊢
  have starts : variant.range.start < position := place ▸ spelled.start_lt_stop
  obtain ⟨wider, body, shape⟩ := exists_variantSpan interior variant right
  rw [shape] at allProper ⊢
  obtain ⟨touched, found⟩ := @locate_stop position scope variant _ _ allProper starts place
  apply meets_child typedProper (Nat.le_of_eq place) (by exact touched)
  exact Lands.fresh found (tracks.fresh positive [] (Or.inl rfl))

private theorem locate_child {range : Token} {child : Node}
    (proper : (Node.variantSpan range variant (some child)).AllProper)
    (starts : variant.range.start < position) (past : variant.range.stop ≤ position)
    (reaches : position ≤ child.range.stop) :
    range.touches position = true ∧
      locate position scope (.variantSpan range variant (some child)) =
        locate position (scope.enter variant) child := by
  have shape : Node.ProperSpan range variant (some child) := (proper _ (Node.mem_nodes_self _)).1
  have touched : range.touches position = true := by
    have first := shape.start
    have last := shape.stop child rfl
    rw [Token.touches_iff]
    omega
  refine ⟨touched, ?_⟩
  rw [locate_span proper, touched, if_neg (by simp), if_neg (by omega)]

private theorem untouched_child {range : Token} {child : Node}
    (proper : (Node.variantSpan range variant (some child)).AllProper)
    (past : variant.range.stop ≤ position)
    (untouched : (locate position scope (.variantSpan range variant (some child))).target = none) :
    (locate position (scope.enter variant) child).target = none := by
  have isChild : child ∈ (Node.variantSpan range variant (some child)).children := by
    simp [Node.children]
  rw [locate_span proper, if_neg (by omega : ¬position < variant.range.stop)] at untouched
  cases touched : range.touches position with
  | true =>
      rw [touched] at untouched
      exact untouched
  | false =>
      have part := (proper _ (Node.mem_nodes_self _)).2 child isChild
      have outside : child.range.touches position = false := by
        rw [Bool.eq_false_iff]
        intro inside
        have wider := part.touches inside
        rw [Node.range, touched] at wider
        cases wider
      rw [locate_eq_ofScope (proper.child isChild) outside]
      rfl

private theorem around_of_child {range : Token} {child : Node} (around : child.Around position) :
    (Node.variantSpan range variant (some child)).Around position := by
  obtain ⟨inner, member, surrounds⟩ := around
  rw [Node.Around, Node.nodes_variantSpan_some]
  exact ⟨inner, List.mem_cons_of_mem _ member, surrounds⟩

private theorem around_child {range : Token} {child : Node}
    (around : (Node.variantSpan range variant (some child)).Around position) :
    child.Around position := by
  obtain ⟨inner, member, surrounds⟩ := around
  rw [Node.nodes_variantSpan_some] at member
  rcases List.mem_cons.1 member with rfl | below
  · cases surrounds
  · exact ⟨inner, below, surrounds⟩

theorem Known.child {stop : Nat} {range : Token} {child : Node}
    (known : Known text all windows stop (.variantSpan range variant (some child)))
    (grouped : child.kind = .group) : Known text all windows stop child := by
  obtain ⟨nodes, below⟩ := known
  rw [Node.nodes_variantSpan_some] at nodes
  rw [Node.windows, if_pos grouped] at below
  exact ⟨fun inner member => nodes (List.mem_cons_of_mem _ member), below⟩

private theorem meets_grouped {stop : Nat} {lead : List Char}
    (tracks : Tracks text position bound interior)
    (framed : Framed interior) (proper : ∀ offset cs, (interior offset cs).AllProper)
    (isOpen : Open text position all windows) (spelled : variant.Spelled [':'] offset front)
    (marked : IsMarker lead ('(' :: (left ++ right)))
    (site : Site text position offset (front ++ (lead ++ '(' :: left)) right tail)
    (shallow : weight [':'] left < bound)
    (known : Known text all windows stop
      (variantSpan reading interior variant (lead ++ '(' :: (left ++ right))))
    (untouched : (locate position scope
      (variantSpan reading interior variant (lead ++ '(' :: (left ++ right)))).target = none) :
    Meets position offset (front ++ (lead ++ '(' :: left)) scope
      (variantSpan reading interior variant (lead ++ '(' :: (left ++ right)))
      (variantSpan reading interior variant (lead ++ '(' :: (left ++ 'x' :: tail)))
      (tail = ' ' :: right ∧ Steady text position all windows) := by
  have range := spelled.range_eq
  have place : variant.range.stop = offset + byteLength front := by rw [range, Token.stop_ofChars]
  have typedMark : IsMarker lead ('(' :: (left ++ 'x' :: tail)) := marked.ahead rfl
  have allProper := spanAt_allProper framed proper spelled (lead ++ '(' :: (left ++ right))
  have typedProper := spanAt_allProper framed proper spelled (lead ++ '(' :: (left ++ 'x' :: tail))
  obtain ⟨taken, rest, whole, groupAt⟩ := groupAt_group interior variant.range.stop marked
  obtain ⟨typedTaken, typedRest, typedWhole, typedGroupAt⟩ :=
    groupAt_group interior variant.range.stop typedMark
  have inner := site.behind
  rw [← place] at inner
  have here := variantSpan_of_child (isEmptyBody_group marked.cases)
    (attached_group reading interior variant.range.stop marked) groupAt.range_eq whole
  have there := variantSpan_of_child (isEmptyBody_group marked.cases)
    (attached_group reading interior variant.range.stop typedMark) typedGroupAt.range_eq typedWhole
  rw [here] at known untouched allProper ⊢
  rw [there] at typedProper ⊢
  have past : variant.range.stop ≤ position := by
    rw [place, site.place, byteLength_append]
    omega
  have starts : variant.range.start < position := Nat.lt_of_lt_of_le spelled.start_lt_stop past
  have text_eq : variant.range.text.toList = front := by rw [range, Token.toList_ofChars]
  have start_eq : variant.range.start = offset := by rw [range, Token.start_ofChars]
  have meets := meets_group tracks framed proper isOpen marked inner shallow
    (known.child groupAt.kind_eq) (untouched_child allProper past untouched)
  have member := known.nodes (Node.mem_nodes_self _)
  generalize group interior variant.range.stop (lead ++ '(' :: (left ++ right)) = child at *
  generalize group interior variant.range.stop (lead ++ '(' :: (left ++ 'x' :: tail)) = typed at *
  rw [text_eq, start_eq] at *
  cases meets with
  | @behind before after split nonempty here there =>
      have same : taken = before := Token.ofChars_inj (groupAt.range_eq.symm.trans here)
      have typedSame : typedTaken = before :=
        Token.ofChars_inj (typedGroupAt.range_eq.symm.trans there)
      subst same typedSame
      exact Meets.behind (by rw [split, List.append_assoc]) nonempty rfl rfl
  | beside group past _ _ =>
      subst group
      exact absurd past (isOpen.attached _ _ _ _ _ member)
  | inside touched _ lands =>
      obtain ⟨touched, found⟩ := @locate_child position scope variant _ _ allProper starts past
        ((Token.touches_iff _ _).1 touched).2
      apply meets_child typedProper past (by exact touched)
      rw [found]
      exact lands.imp around_of_child fun settled _ => settled

private theorem single_typed (nonempty : left ≠ [])
    (single : ((left ++ right).drop (marker (left ++ right)).length).head? ≠ some '(') :
    ((left ++ 'x' :: tail).drop (marker (left ++ 'x' :: tail)).length).head? ≠ some '(' := by
  obtain ⟨c, cs, rfl⟩ := List.exists_cons_of_ne_nil nonempty
  rw [List.cons_append, marker_head c (cs ++ 'x' :: tail) (cs ++ right)]
  rw [List.cons_append] at single
  by_cases bang : c = '!'
  · subst bang
    cases cs with
    | nil => simp [marker]
    | cons d cs => simpa [marker] using single
  · have none : marker (c :: (cs ++ right)) = [] := by simp [marker, bang]
    rw [none] at single ⊢
    exact single

/-- The body that a variant applies to where no group follows it, and what is read in the body. -/
structure BodyAt (interior : Interior) (variant : Variant) (cs body rest taken behind : List Char) :
    Prop where
  split : Body.split [':'] cs = (body, rest)
  whole : cs = body ++ rest
  parts : body = taken ++ behind
  filled : taken ≠ []
  range : (interior variant.range.stop body).range = .ofChars variant.range.stop taken
  notGroup : (interior variant.range.stop body).kind ≠ .group
  span : variantSpan reading interior variant cs =
    .variantSpan (.ofChars variant.range.start (variant.range.text.toList ++ taken)) variant
      (some (interior variant.range.stop body))

private theorem exists_bodyAt {cs : List Char} (framed : Framed interior)
    (proper : ∀ offset cs, (interior offset cs).AllProper) (variant : Variant)
    (something : isEmptyBody cs = false)
    (single : (cs.drop (marker cs).length).head? ≠ some '(') :
    ∃ body rest taken behind, BodyAt interior variant cs body rest taken behind := by
  have delimited := Body.split_append [':'] cs
  have solid := @isEmptyBody_split [':'] _ something
  have built : attached reading interior variant.range.stop cs =
      interior variant.range.stop (Body.split [':'] cs).1 :=
    attached_single reading interior variant.range.stop single
  cases split : Body.split [':'] cs with
  | mk body rest =>
      rw [split] at delimited solid built
      dsimp only at delimited solid built
      obtain ⟨lead, taken, behind, parts, range, start⟩ := framed variant.range.stop body
      obtain ⟨rfl, filled, _⟩ := start solid
      rw [List.nil_append] at parts
      rw [byteLength_nil, Nat.add_zero] at range
      have whole : cs = taken ++ (behind ++ rest) := by rw [← List.append_assoc, ← parts, delimited]
      refine ⟨body, rest, taken, behind, split, delimited.symm, parts, filled, range, ?_,
        variantSpan_of_child something built range whole⟩
      rw [whole] at single
      exact kind_ne_group (proper _ _) range single

theorem BodyAt.findEnd_eq {cs body rest taken behind : List Char} {stop : Nat}
    (bodyAt : BodyAt interior variant cs body rest taken behind)
    (occurs : Occurs text.toList variant.range.stop cs)
    (ends : stop = variant.range.stop + byteLength cs) :
    Body.findEnd text variant.range.stop stop ":" = variant.range.stop + byteLength body := by
  have found := Body.findEnd_eq ":" occurs
  rw [ends, found]
  exact congrArg (fun parts => variant.range.stop + byteLength parts.1) bodyAt.split

section

variable {body rest taken behind : List Char}

theorem BodyAt.known {cs : List Char} {stop : Nat}
    (bodyAt : BodyAt interior variant cs body rest taken behind)
    (known : Known text all windows stop (variantSpan reading interior variant cs))
    (occurs : Occurs text.toList variant.range.stop cs)
    (ends : stop = variant.range.stop + byteLength cs) :
    (interior variant.range.stop body).nodes ⊆ all ∧
      (interior variant.range.stop body).allWindows text ":" variant.range.stop
        (variant.range.stop + byteLength body) ⊆ windows := by
  obtain ⟨nodes, below⟩ := known
  rw [bodyAt.span] at nodes below
  rw [Node.windows, if_neg bodyAt.notGroup, bodyAt.findEnd_eq occurs ends] at below
  rw [Node.nodes_variantSpan_some] at nodes
  exact ⟨fun inner isInner => nodes (List.mem_cons_of_mem _ isInner), below⟩

end

/-- Where typing does not move the end of a body, what follows the body is the same. -/
theorem rest_of_steady {window : Window} {range : Token} {child : Node}
    (steady : Steady text position all windows) (inWindow : window ∈ windows)
    (isItem : .variantSpan range variant (some child) ∈ window.items) (notGroup : child.kind ≠ .group)
    (around : child.Around position) (site : Site text position variant.range.stop left right tail)
    (ends : window.stop = variant.range.stop + byteLength (left ++ right)) :
    (Body.split [':'] (left ++ 'x' :: ' ' :: right)).2 = (Body.split [':'] (left ++ right)).2 := by
  have same := steady.body window inWindow range variant child isItem notGroup around
  have behind : position - variant.range.stop = byteLength left := by
    rw [site.place, Nat.add_sub_cancel_left]
  rw [ends, site.occurs.between_eq] at same
  simp only [behind, typeName_byteLength] at same
  exact same

private theorem meets_item {window : Window} (tracks : Tracks text position bound interior)
    (framed : Framed interior) (proper : ∀ offset cs, (interior offset cs).AllProper)
    (isOpen : Open text position all windows) (spelled : variant.Spelled [':'] offset front)
    (nonempty : left ≠ []) (something : isEmptyBody (left ++ right) = false)
    (single : ((left ++ right).drop (marker (left ++ right)).length).head? ≠ some '(')
    (site : Site text position offset (front ++ left) right tail)
    (shallow : weight [':'] left < bound)
    (known : Known text all windows window.stop (variantSpan reading interior variant (left ++ right)))
    (inWindow : window ∈ windows)
    (isItem : variantSpan reading interior variant (left ++ right) ∈ window.items)
    (ends : window.stop = offset + byteLength (front ++ left ++ right))
    (untouched : (locate position scope
      (variantSpan reading interior variant (left ++ right))).target = none) :
    Meets position offset (front ++ left) scope
      (variantSpan reading interior variant (left ++ right))
      (variantSpan reading interior variant (left ++ 'x' :: tail))
      (tail = ' ' :: right ∧ Steady text position all windows) := by
  have range := spelled.range_eq
  have place : variant.range.stop = offset + byteLength front := by rw [range, Token.stop_ofChars]
  have text_eq : variant.range.text.toList = front := by rw [range, Token.toList_ofChars]
  have start_eq : variant.range.start = offset := by rw [range, Token.start_ofChars]
  have allProper := spanAt_allProper framed proper spelled (left ++ right)
  have typedProper := spanAt_allProper framed proper spelled (left ++ 'x' :: tail)
  have inner := site.behind
  rw [← place] at inner
  obtain ⟨body, rest, taken, behind, here⟩ := exists_bodyAt framed proper variant something single
  obtain ⟨typedBody, typedRest, typedTaken, typedBehind, there⟩ := exists_bodyAt framed proper variant
    (@isEmptyBody_typed left right tail nonempty something)
    (@single_typed left right tail nonempty single)
  have reach : window.stop = variant.range.stop + byteLength (left ++ right) := by
    rw [ends, place, List.append_assoc, byteLength_append, ← Nat.add_assoc]
  obtain ⟨deeper, below⟩ := here.known known inner.occurs reach
  rw [here.span] at known untouched allProper isItem ⊢
  rw [there.span] at typedProper ⊢
  have sized := inner.place
  have past : variant.range.stop ≤ position := by omega
  have within : position ≤ window.stop := by
    rw [reach, byteLength_append]
    omega
  have takes := isOpen.body window inWindow _ _ _ isItem here.notGroup past within
  rw [Body.Takes, sized, inner.occurs.left.between_eq, Token.stop_ofChars, byteLength_append, ← sized,
    text_eq, start_eq, ← Nat.add_assoc, ← place] at takes
  by_cases kept : (Body.split [':'] (left ++ ['x'])).2 = []
  · have reaches := takes.1 kept
    obtain ⟨more, rfl, rfl⟩ := append_of_longer here.whole (by
      rw [here.parts, byteLength_append]
      omega)
    obtain ⟨typedInner, later, rfl, typed⟩ := @Body.split_behind _ _ tail _ kept (by decide)
    rw [there.split, Prod.mk.injEq] at typed
    obtain ⟨rfl, rfl⟩ := typed
    have starts : variant.range.start < position := Nat.lt_of_lt_of_le spelled.start_lt_stop past
    have reached : position ≤ (interior variant.range.stop (left ++ more)).range.stop := by
      rw [here.range, Token.stop_ofChars]
      exact reaches
    have lands := tracks.inside (inner.within inner.isTail.left) shallow (isOpen.mono deeper below)
      (untouched_child allProper past untouched)
    obtain ⟨touched, found⟩ := @locate_child position scope variant _ _ allProper starts past reached
    apply meets_child typedProper past (by exact touched)
    rw [found]
    apply lands.imp around_of_child
    rintro ⟨same, steady⟩ around
    have kept_rest := rest_of_steady steady inWindow isItem here.notGroup (around_child around) inner
      reach
    rw [← same, there.split, here.split] at kept_rest
    dsimp only at kept_rest
    subst kept_rest
    rw [← List.cons_append, List.append_cancel_right_eq] at same
    exact ⟨same, steady.mono deeper below⟩
  · -- the body ends in front of the cursor, here and once a name is typed
    obtain ⟨ended, more, rfl, again⟩ := Body.split_refused (by decide) (by decide) kept
    have delimited := again right
    have typed := again ('x' :: tail)
    rw [here.split, Prod.mk.injEq] at delimited
    rw [there.split, Prod.mk.injEq] at typed
    obtain ⟨rfl, rfl⟩ := delimited
    obtain ⟨rfl, rfl⟩ := typed
    have sameTaken := Token.ofChars_inj (there.range.symm.trans here.range)
    have longer : behind ++ more ≠ [] := by
      intro none
      have shorter := mt takes.2 kept
      rw [here.parts, List.append_assoc, none, List.append_nil] at sized
      omega
    rw [sameTaken, text_eq, start_eq]
    refine Meets.behind ?_ longer rfl rfl
    rw [here.parts]
    simp

theorem Known.attached_group {stop : Nat} {lead cs : List Char}
    (known : Known text all windows stop (variantSpan reading interior variant (lead ++ '(' :: cs)))
    (something : isEmptyBody (lead ++ '(' :: cs) = false) (marked : IsMarker lead ('(' :: cs)) :
    Known text all windows stop (group interior variant.range.stop (lead ++ '(' :: cs)) := by
  obtain ⟨taken, rest, whole, groupAt⟩ := groupAt_group interior variant.range.stop marked
  have span := variantSpan_of_child something (Tree.attached_group reading interior _ marked)
    groupAt.range_eq whole
  rw [span] at known
  exact known.child groupAt.kind_eq

private theorem meets_marked {stop : Nat} {cs : List Char}
    (tracks : Tracks text position bound interior)
    (framed : Framed interior) (proper : ∀ offset cs, (interior offset cs).AllProper)
    (positive : 0 < bound) (spelled : variant.Spelled [':'] offset front)
    (site : Site text position offset (front ++ ['!']) ('(' :: cs) tail)
    (known : Known text all windows stop (variantSpan reading interior variant (['!'] ++ '(' :: cs)))
    {same : Prop} :
    Meets position offset (front ++ ['!']) scope
      (variantSpan reading interior variant (['!'] ++ '(' :: cs))
      (variantSpan reading interior variant (['!'] ++ 'x' :: tail))
      (same ∧ Steady text position all windows) := by
  have markSize : Char.utf8Size '!' = 1 := rfl
  have marked : IsMarker ['!'] ('(' :: cs) := Or.inl rfl
  have place : position = variant.range.stop + 1 := by
    rw [site.place, spelled.stop_eq, byteLength_append, ← Nat.add_assoc]
    rfl
  have starts : variant.range.start < position := by
    have ordered := spelled.start_lt_stop
    omega
  have past : variant.range.stop ≤ position := by omega
  have something : isEmptyBody (['!'] ++ '(' :: cs) = false := rfl
  have child := known.attached_group something marked
  have allProper := spanAt_allProper framed proper spelled (['!'] ++ '(' :: cs)
  have typedProper := spanAt_allProper framed proper spelled (['!'] ++ 'x' :: tail)
  obtain ⟨taken, rest, whole, groupAt⟩ := groupAt_group interior variant.range.stop marked
  have here := variantSpan_of_child something (Tree.attached_group reading interior _ marked)
    groupAt.range_eq whole
  have typedBody : (Body.split [':'] ('!' :: 'x' :: tail)).1 = ['!', 'x'] := by
    rcases site.isTail with rfl | ⟨later, rfl⟩
    · rfl
    · rfl
  have there : attached reading interior variant.range.stop (['!'] ++ 'x' :: tail) =
      interior variant.range.stop ['!', 'x'] := by
    rw [attached_single reading interior _ (by simp [marker])]
    exact congrArg (interior variant.range.stop) typedBody
  rw [variantSpan_attached variant (show isEmptyBody (['!'] ++ 'x' :: tail) = false from rfl), there]
    at typedProper ⊢
  rw [here] at allProper ⊢
  obtain ⟨near, lands⟩ := @lands_marked _ _ _ _ _ _ _ (scope.enter variant) _ _ same place child
    (tracks.marked positive variant.range.stop place [] (Or.inl rfl))
  obtain ⟨touched, found⟩ := @locate_child position scope variant _ _ allProper starts past
    ((Token.touches_iff _ _).1 near).2
  apply meets_child typedProper past (by exact touched)
  rw [found]
  exact lands.imp around_of_child fun settled _ => settled

/-- Nothing is attached where nothing was, unless what is typed turns a comment into something else.
-/
theorem meets_empty {steady : Prop} (spelled : variant.Spelled [':'] offset front) (nonempty : left ≠ [])
    (nothing : isEmptyBody (left ++ right) = true) (clear : left ≠ ['/']) :
    Meets position offset (front ++ left) scope (variantSpan reading interior variant (left ++ right))
      (variantSpan reading interior variant (left ++ 'x' :: tail)) steady := by
  have typed : isEmptyBody (left ++ 'x' :: tail) = true := by
    obtain ⟨c, cs, rfl⟩ := List.exists_cons_of_ne_nil nonempty
    have next : cs ≠ [] ∨ c ≠ '/' := by
      rw [← Decidable.not_and_iff_not_or_not]
      rintro ⟨rfl, rfl⟩
      exact clear rfl
    rw [@isEmptyBody_ahead c cs ('x' :: tail) right next]
    exact nothing
  have bare : ∀ cs, isEmptyBody cs = true →
      (variantSpan reading interior variant cs).range = .ofChars offset front := by
    intro cs nothing
    rw [variantSpan, if_pos nothing]
    exact spelled.range_eq
  exact Meets.behind rfl nonempty (bare _ nothing) (bare _ typed)

/-- Typing behind a variant. -/
theorem meets_variantSpan {window : Window} (tracks : Tracks text position bound interior)
    (framed : Framed interior) (proper : ∀ offset cs, (interior offset cs).AllProper)
    (isOpen : Open text position all windows) (spelled : variant.Spelled [':'] offset front)
    (site : Site text position offset (front ++ left) right tail)
    (positive : 0 < bound) (shallow : weight [':'] left < bound)
    (known : Known text all windows window.stop (variantSpan reading interior variant (left ++ right)))
    (inWindow : window ∈ windows)
    (isItem : variantSpan reading interior variant (left ++ right) ∈ window.items)
    (ends : window.stop = offset + byteLength (front ++ left ++ right))
    (clear : isEmptyBody (left ++ right) = true → left ≠ ['/'])
    (untouched : (locate position scope
      (variantSpan reading interior variant (left ++ right))).target = none) :
    Meets position offset (front ++ left) scope
      (variantSpan reading interior variant (left ++ right))
      (variantSpan reading interior variant (left ++ 'x' :: tail))
      (tail = ' ' :: right ∧ Steady text position all windows) := by
  cases left with
  | nil =>
      rw [List.append_nil] at site ⊢
      exact meets_bare tracks framed proper positive spelled site
  | cons c left =>
      cases nothing : isEmptyBody (c :: left ++ right) with
      | true => exact meets_empty spelled (List.cons_ne_nil c left) nothing (clear nothing)
      | false =>
          rcases group_cases (c :: left ++ right) with ⟨lead, inside, whole, marked⟩ | single
          · rcases opened_or_marked (List.cons_ne_nil c left) marked whole with
              ⟨inner, same, rfl⟩ | ⟨rfl, same, rfl⟩
            · rw [same] at site shallow known untouched ⊢
              simp only [List.append_assoc, List.cons_append] at known untouched ⊢
              have lower : weight [':'] inner < bound := by
                have opened := weight_opener [':'] inner
                have part := weight_append_le [':'] lead ('(' :: inner)
                omega
              exact meets_grouped tracks framed proper isOpen spelled marked site lower known untouched
            · rw [same] at site known ⊢
              exact meets_marked tracks framed proper positive spelled site known
          · exact meets_item tracks framed proper isOpen spelled (List.cons_ne_nil c left) nothing
              single site shallow known inWindow isItem ends untouched

end

end Tree

end ClassExpr
