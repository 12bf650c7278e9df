import ClassExpr.Proofs.Printing.Nodes
import ClassExpr.Proofs.Typing.Span

set_option autoImplicit false

/-! Typing behind the start of an item. An item whose text ends in front of the cursor is read as
before, and there is no other one behind whose start a cursor touches nothing, but those that take
what is typed. -/

namespace ClassExpr.Tree

open Text Completion Hover Printing

variable {text : String} {position bound : Nat} {interior : Interior} {all : List Node}
  {windows : List Window} {window : Window} {offset : Nat} {left right tail : List Char}
  {scope : Scope}

/-- A cursor behind the start of an item of a window, that touches nothing of the item. -/
structure Faces (text : String) (position : Nat) (all : List Node) (windows : List Window)
    (window : Window) (offset : Nat) (left right : List Char) (scope : Scope) (node : Node) :
    Prop where
  started : left ≠ []
  known : Known text all windows window.stop node
  inWindow : window ∈ windows
  isItem : node ∈ window.items
  ends : window.stop = offset + byteLength (left ++ right)
  clear : ∀ before, left = before ++ ['/'] → node.range ≠ .ofChars offset before
  untouched : (locate position scope node).target = none

/-- A leaf that a cursor behind its start does not touch ends in front of the cursor. -/
theorem leaf_passed {leaf : Leaf} {taken rest : List Char} (range : leaf.range = .ofChars offset taken)
    (whole : left ++ right = taken ++ rest) (nonempty : left ≠ [])
    (place : position = offset + byteLength left)
    (untouched : (locate position scope (.leaf leaf)).target = none) :
    ∃ d more, left = taken ++ d :: more ∧ rest = d :: (more ++ right) := by
  apply append_of_shorter whole
  apply Nat.lt_of_not_le
  intro longer
  have touched : leaf.range.touches position = true := by
    rw [range, Token.touches_iff, Token.start_ofChars, Token.stop_ofChars]
    have positive := byteLength_pos nonempty
    omega
  rw [locate, if_pos touched] at untouched
  cases untouched

/-- A slash in front of the cursor does not follow the item, so what comes next there is the same.
-/
theorem Faces.near {node : Node} {taken more : List Char} {d : Char}
    (faces : Faces text position all windows window offset (taken ++ d :: more) right scope node)
    (range : node.range = .ofChars offset taken) :
    d = '/' → (more ++ right).head? = (more ++ 'x' :: tail).head? := by
  rintro rfl
  cases more with
  | nil => exact absurd range (faces.clear taken rfl)
  | cons c more => rfl

private theorem meets_leaf {lexeme : Lexeme} {leaf : Leaf} {steady : Prop} {taken rest : List Char}
    (scanned : Lexeme.scan? [':'] offset (left ++ right) = some (lexeme, rest))
    (isLeaf : lexeme.isLeaf = true) (whole : left ++ right = taken ++ rest)
    (begun : ∀ cs rest, node? reading interior offset cs rest lexeme = some (.leaf leaf))
    (range : leaf.range = .ofChars offset taken) (place : position = offset + byteLength left)
    (faces : Faces text position all windows window offset left right scope (.leaf leaf)) :
    ∃ typed, Begins interior offset (left ++ 'x' :: tail) typed ∧
      Meets position offset left scope (.leaf leaf) typed steady := by
  obtain ⟨d, more, rfl, rfl⟩ := leaf_passed range whole faces.started place faces.untouched
  rw [List.append_assoc, List.cons_append] at scanned ⊢
  have again := Lexeme.scan?_item_ahead scanned isLeaf (@Faces.near _ _ _ _ _ _ _ tail _ _ _ _ _
    faces range)
  refine ⟨.leaf leaf, ⟨_, _, again, begun _ _⟩, ?_⟩
  exact Meets.behind rfl (List.cons_ne_nil d more) range range

theorem locate_front {variant : Variant} {range : Token} {child : Option Node}
    (proper : (Node.variantSpan range variant child).AllProper)
    (starts : variant.range.start < position) (inside : position < variant.range.stop) :
    locate position scope (.variantSpan range variant child) = ofVariant position scope variant := by
  have shape : Node.ProperSpan range variant child := (proper _ (Node.mem_nodes_self _)).1
  have touched : range.touches position = true := by
    have first := shape.start
    have last := shape.leading.stop_le
    rw [Token.touches_iff]
    omega
  have front : ¬position ≤ variant.range.start := by omega
  cases child with
  | none => simp [locate, touched, inside, front]
  | some child => simp [locate, touched, inside, front]

private theorem weight_spelled {variant : Variant} {front : List Char}
    (spelled : variant.Spelled [':'] offset front) (more : List Char) :
    weight [':'] more < weight [':'] (front ++ more) := by
  have separated := weight_separator (by decide : ([':'] : List Char) ≠ []) more
  cases spelled with
  | @named name _ _ =>
      have part := weight_append_le [':'] name ([':'] ++ more)
      rw [List.append_assoc]
      omega
  | @bracket stem value =>
      have part := weight_append_le [':'] (stem ++ '[' :: value ++ [']']) ([':'] ++ more)
      rw [List.append_assoc]
      omega

private theorem meets_spelled {variant : Variant} {front rest : List Char}
    (tracks : Tracks text position bound interior) (framed : Framed interior)
    (proper : ∀ offset cs, (interior offset cs).AllProper) (isOpen : Open text position all windows)
    (site : Site text position offset left right tail) (shallow : weight [':'] left ≤ bound)
    (spelled : variant.Spelled [':'] offset front) (whole : left ++ right = front ++ rest)
    (faces : Faces text position all windows window offset left right scope
      (variantSpan reading interior variant rest)) :
    ∃ more, left = front ++ more ∧ rest = more ++ right ∧
      Meets position offset left scope (variantSpan reading interior variant rest)
        (variantSpan reading interior variant (more ++ 'x' :: tail))
        (tail = ' ' :: right ∧ Steady text position all windows) := by
  have start_eq : variant.range.start = offset := by rw [spelled.range_eq, Token.start_ofChars]
  have reaches : variant.range.stop ≤ position := by
    apply Nat.le_of_not_lt
    intro inside
    have starts : variant.range.start < position := by
      have positive := byteLength_pos faces.started
      rw [start_eq, site.place]
      omega
    have untouched := faces.untouched
    have allProper := spanAt_allProper framed proper spelled rest
    obtain ⟨range, child, shape⟩ := exists_variantSpan interior variant rest
    rw [shape] at untouched allProper
    rw [locate_front allProper starts inside] at untouched
    cases untouched
  have longer : byteLength front ≤ byteLength left := by
    rw [spelled.stop_eq, site.place] at reaches
    omega
  obtain ⟨more, rfl, rfl⟩ := append_of_longer whole.symm longer
  have lower := weight_spelled spelled more
  refine ⟨more, rfl, rfl, meets_variantSpan tracks framed proper isOpen spelled site (by omega)
    (by omega) faces.known faces.inWindow faces.isItem faces.ends ?_ faces.untouched⟩
  rintro nothing rfl
  apply faces.clear front rfl
  rw [variantSpan, if_pos nothing]
  exact spelled.range_eq

private theorem meets_named {name rest : List Char} (tracks : Tracks text position bound interior)
    (framed : Framed interior) (proper : ∀ offset cs, (interior offset cs).AllProper)
    (isOpen : Open text position all windows) (site : Site text position offset left right tail)
    (shallow : weight [':'] left ≤ bound) (nonempty : name ≠ [])
    (named : ∀ c ∈ name, Lexeme.isName c = true) (whole : left ++ right = name ++ [':'] ++ rest)
    {lexeme : Lexeme} (scanned : Lexeme.scan? [':'] offset (left ++ right) = some (lexeme, rest))
    (spelling : lexeme =
      .variant (.ofChars offset name) (.ofChars (offset + byteLength name) [':'])) {node : Node}
    (begun : node? reading interior offset (left ++ right) rest lexeme = some node)
    (faces : Faces text position all windows window offset left right scope node) :
    ∃ typed, Begins interior offset (left ++ 'x' :: tail) typed ∧
      Meets position offset left scope node typed
        (tail = ' ' :: right ∧ Steady text position all windows) := by
  subst spelling
  have spelled : Variant.Spelled [':'] offset (name ++ [':']) _ := Variant.Spelled.named nonempty named
  simp only [node?, Token.toList_ofChars, Option.some.injEq] at begun
  subst begun
  obtain ⟨more, rfl, rfl, meets⟩ := meets_spelled tracks framed proper isOpen site shallow spelled
    whole faces
  rw [List.append_assoc] at scanned ⊢
  have again := Lexeme.scan?_begins_ahead scanned rfl (more ++ 'x' :: tail)
  refine ⟨_, ⟨_, _, again, ?_⟩, meets⟩
  simp only [node?, Token.toList_ofChars]

theorem begins_marked (interior : Interior) (place : position = offset + 1) (isTail : IsTail tail) :
    ∃ leaf, Begins interior offset ('!' :: 'x' :: tail) (.leaf leaf) ∧
      leaf.range = .ofChars offset ['!', 'x'] ∧
      ∀ scope, resolve position scope (.leaf leaf) =
        some (.ofLeaf (scope.mark true) (.typed position)) := by
  refine ⟨.className (.ofChars offset ['!', 'x']) (.ofChars (offset + 1) ['x']) true, ?_, rfl, ?_⟩
  · rcases isTail with rfl | ⟨later, rfl⟩
    · exact ⟨_, _, rfl, rfl⟩
    · exact ⟨_, _, rfl, rfl⟩
  · intro scope
    have contains : (Token.ofChars offset ['!', 'x']).contains position = true := by
      have markSize : Char.utf8Size '!' = 1 := rfl
      have nameSize : Char.utf8Size 'x' = 1 := rfl
      rw [Token.contains_iff, Token.start_ofChars, Token.stop_ofChars]
      simp
      omega
    rw [resolve_leaf]
    refine (if_pos contains).trans ?_
    rw [← place]
    simp [Hover.ofLeaf, Leaf.typed, Leaf.target, Leaf.kind, Leaf.important, Leaf.prop?, Leaf.content?,
      Scope.mark]

private theorem meets_parenthesis {lead rest : List Char}
    (tracks : Tracks text position bound interior)
    (framed : Framed interior) (proper : ∀ offset cs, (interior offset cs).AllProper)
    (isOpen : Open text position all windows) (site : Site text position offset left right tail)
    (shallow : weight [':'] left ≤ bound) (marked : IsMarker lead ('(' :: rest))
    (whole : left ++ right = lead ++ ['('] ++ rest) {important : Bool}
    (scanned : Lexeme.scan? [':'] offset (left ++ right) = some (.group offset important, rest))
    (faces : Faces text position all windows window offset left right scope
      (group interior offset (left ++ right))) :
    ∃ typed, Begins interior offset (left ++ 'x' :: tail) typed ∧
      Meets position offset left scope (group interior offset (left ++ right)) typed
        (tail = ' ' :: right ∧ Steady text position all windows) := by
  have parts : left ++ right = lead ++ '(' :: rest := by
    rw [whole, List.append_assoc]
    rfl
  rcases opened_or_marked faces.started marked parts with ⟨inner, rfl, rfl⟩ | ⟨rfl, rfl, rfl⟩
  · have parts : ∀ tail : List Char,
        lead ++ '(' :: inner ++ tail = lead ++ ['('] ++ (inner ++ tail) := by
      simp
    have again : Lexeme.scan? [':'] offset (lead ++ '(' :: inner ++ 'x' :: tail) =
        some (.group offset important, inner ++ 'x' :: tail) := by
      rw [parts] at scanned ⊢
      exact Lexeme.scan?_begins_ahead scanned rfl (inner ++ 'x' :: tail)
    have lower : weight [':'] inner < bound := by
      have opened := weight_opener [':'] inner
      have part := weight_append_le [':'] lead ('(' :: inner)
      omega
    refine ⟨_, ⟨_, _, again, rfl⟩, ?_⟩
    have known := faces.known
    have untouched := faces.untouched
    rw [List.append_assoc, List.cons_append] at known untouched ⊢
    rw [List.append_assoc, List.cons_append]
    exact meets_group tracks framed proper isOpen marked site lower known untouched
  · have place : position = offset + 1 := site.place
    obtain ⟨leaf, begins, range, name⟩ := begins_marked interior place site.isTail
    obtain ⟨touched, lands⟩ := lands_marked place faces.known name
    refine ⟨_, begins, Meets.inside touched ?_ lands⟩
    have markSize : Char.utf8Size '!' = 1 := rfl
    have nameSize : Char.utf8Size 'x' = 1 := rfl
    rw [show (Node.leaf leaf).range = _ from range, Token.contains_iff, Token.start_ofChars,
      Token.stop_ofChars]
    simp
    omega

/-! ### Brackets -/

private theorem opacity?_bracketed_ahead {front inside other : List Char} {e : Char}
    (short : ∀ opacity, opacity? offset ('/' :: '[' :: (front ++ e :: inside)) = some opacity →
      ∃ more, '/' :: '[' :: front = opacity.range.text.toList ++ more) :
    opacity? offset ('/' :: '[' :: (front ++ e :: other)) =
      opacity? offset ('/' :: '[' :: (front ++ e :: inside)) := by
  cases matching : Bracket.split? .square [] ('[' :: (front ++ e :: inside)) with
  | none =>
      obtain ⟨more, whole⟩ := short _ (opacity?_open matching)
      have size := congrArg List.length whole
      simp at size
  | some parts =>
      obtain ⟨content, closed⟩ := parts
      obtain ⟨value, after, rfl, rfl, whole⟩ := Bracket.split?_square matching
      rw [whole] at short matching ⊢
      obtain ⟨more, same⟩ := short _ (opacity?_closed matching)
      rw [Token.toList_ofChars] at same
      obtain rfl : front = value ++ ']' :: more := by simpa using same
      obtain rfl : more ++ e :: inside = after := by simpa using whole
      have again := Bracket.split?_square_ahead matching (more ++ e :: other)
      have there := @opacity?_closed offset _ _ again
      have here := @opacity?_closed offset _ _ matching
      simp only [List.append_assoc, List.cons_append] at here there ⊢
      rw [here, there]

private theorem opacity?_digits_ahead {front inside other : List Char} {e : Char}
    (unbracketed : (front ++ e :: inside).head? ≠ some '[')
    (short : ∀ opacity, opacity? offset ('/' :: (front ++ e :: inside)) = some opacity →
      ∃ more, '/' :: front = opacity.range.text.toList ++ more) :
    opacity? offset ('/' :: (front ++ e :: other)) =
      opacity? offset ('/' :: (front ++ e :: inside)) := by
  have unbracketed' : (front ++ e :: other).head? ≠ some '[' := by cases front <;> exact unbracketed
  rw [opacity?_digits offset unbracketed] at short
  rw [opacity?_digits offset unbracketed, opacity?_digits offset unbracketed']
  have whole := splitRun_append (fun c _ => c.isDigit) (front ++ e :: inside)
  cases split : splitRun (fun c _ => c.isDigit) (front ++ e :: inside) with
  | mk run after =>
      rw [split] at short whole
      dsimp only at whole
      have kept : ∃ more, front = run ++ more := by
        cases run with
        | nil => exact ⟨front, rfl⟩
        | cons c run =>
            obtain ⟨more, same⟩ := short _ rfl
            exact ⟨more, by simpa using same⟩
      obtain ⟨more, rfl⟩ := kept
      rw [List.append_assoc, List.append_cancel_left_eq] at whole
      subst whole
      have again : splitRun (fun c _ => c.isDigit) (run ++ (more ++ e :: other)) =
          (run, more ++ e :: other) := by
        rw [List.append_assoc] at split
        cases more with
        | nil => exact splitRun_ahead (fun _ _ _ _ => rfl) split rfl
        | cons c more => exact splitRun_ahead (fun _ _ _ _ => rfl) split rfl
      rw [List.append_assoc, again]

private theorem opacity?_isSome_bracketed (offset : Nat) (inside : List Char) :
    ∃ opacity, opacity? offset ('/' :: '[' :: inside) = some opacity ∧
      ['/', '['] <+: opacity.range.text.toList := by
  cases matching : Bracket.split? .square [] ('[' :: inside) with
  | none =>
      refine ⟨_, opacity?_open matching, inside, ?_⟩
      rw [Token.toList_ofChars]
      rfl
  | some parts =>
      obtain ⟨content, closed⟩ := parts
      obtain ⟨value, after, rfl, rfl, rfl⟩ := Bracket.split?_square matching
      refine ⟨_, opacity?_closed matching, value ++ [']'], ?_⟩
      rw [Token.toList_ofChars]
      rfl

/-- An opacity that ends in front of a character is read alike if the text goes on with it, and with
the same second one if it is a slash. -/
theorem opacity?_ahead {front rest other : List Char} {d : Char}
    (same : d = '/' → rest.head? = other.head?)
    (short : ∀ opacity, opacity? offset (front ++ d :: rest) = some opacity →
      ∃ more, front = opacity.range.text.toList ++ more) :
    opacity? offset (front ++ d :: other) = opacity? offset (front ++ d :: rest) := by
  have long : ∀ inside, front ++ d :: rest = '/' :: '[' :: inside → 2 ≤ front.length := by
    intro inside whole
    obtain ⟨opacity, found, starts⟩ := opacity?_isSome_bracketed offset inside
    obtain ⟨more, same⟩ := short opacity (by rw [whole, found])
    have size := starts.length_le
    rw [same, List.length_append]
    exact Nat.le_trans size (Nat.le_add_right _ _)
  match front with
  | [] =>
      rw [List.nil_append] at short ⊢
      by_cases slash : d = '/'
      · subst slash
        match rest, other, same rfl with
        | [], [], _ => rfl
        | c :: rest, e :: other, next =>
            rw [List.head?_cons, List.head?_cons, Option.some.injEq] at next
            subst next
            have unbracketed : c ≠ '[' := by
              rintro rfl
              exact absurd (long rest rfl) (by decide)
            refine @opacity?_digits_ahead offset [] rest other c (by simpa using unbracketed) ?_
            intro opacity found
            obtain ⟨more, none⟩ := short opacity found
            rw [List.nil_eq_append_iff] at none
            exact ⟨['/'], by rw [none.1]; rfl⟩
      · rw [List.nil_append, opacity?_none offset (by simpa using slash),
          opacity?_none offset (by simpa using slash)]
  | e :: front =>
      rw [List.cons_append] at short ⊢
      by_cases slash : e = '/'
      · subst slash
        match front with
        | [] =>
            have unbracketed : d ≠ '[' := by
              rintro rfl
              exact absurd (long rest rfl) (by decide)
            exact @opacity?_digits_ahead offset [] rest other d (by simpa using unbracketed) short
        | c :: front =>
            by_cases bracketed : c = '['
            · subst bracketed
              exact opacity?_bracketed_ahead short
            · exact opacity?_digits_ahead (by simpa using bracketed) short
      · rw [List.cons_append, opacity?_none offset (by simpa using slash),
          opacity?_none offset (by simpa using slash)]

private theorem closedLeaf_range (offset : Nat) (lead : List Char) (stem : Token) (body : List Char)
    (content : Token) (rest : List Char) :
    ∃ front, (closedLeaf offset lead stem body content rest).range =
      .ofChars offset (lead ++ body ++ front) := by
  unfold closedLeaf
  rw [bracketLeaf_range]
  exact ⟨_, congrArg (Token.ofChars offset) (List.append_assoc ..)⟩

private theorem closedLeaf_ahead {lead body front rest other : List Char} {stem content : Token}
    {d : Char}
    (range : (closedLeaf offset lead stem body content (front ++ d :: rest)).range =
      .ofChars offset (lead ++ body ++ front))
    (same : d = '/' → rest.head? = other.head?) :
    closedLeaf offset lead stem body content (front ++ d :: other) =
      closedLeaf offset lead stem body content (front ++ d :: rest) := by
  unfold closedLeaf at range ⊢
  rw [bracketLeaf_range] at range
  dsimp only
  have taken := Token.ofChars_inj range
  simp only [List.append_assoc, List.append_cancel_left_eq] at taken
  have opacities : (if stem.text.toList.getLast? == some '-' then
        opacity? (offset + byteLength lead + byteLength body) (front ++ d :: other) else none) =
      (if stem.text.toList.getLast? == some '-' then
        opacity? (offset + byteLength lead + byteLength body) (front ++ d :: rest) else none) := by
    by_cases styled : (stem.text.toList.getLast? == some '-') = true
    · rw [if_pos styled] at taken
      rw [if_pos styled, if_pos styled]
      apply opacity?_ahead same
      intro opacity found
      rw [found] at taken
      exact ⟨_, taken.symm⟩
    · rw [if_neg styled, if_neg styled]
  rw [opacities]
  generalize (if stem.text.toList.getLast? == some '-' then
        opacity? (offset + byteLength lead + byteLength body) (front ++ d :: rest) else none) = opacity
    at taken ⊢
  generalize (opacity.map (·.range.text.toList)).getD [] = suffix at taken ⊢
  obtain ⟨trail, trailing⟩ : ∃ trail, marker ((front ++ d :: rest).drop suffix.length) = trail := ⟨_, rfl⟩
  rw [trailing] at taken ⊢
  have drops : ∀ tail, (front ++ d :: tail).drop suffix.length = trail ++ d :: tail := by
    intro tail
    rw [← taken, List.append_assoc, List.drop_left]
  have marks : marker (trail ++ d :: other) = marker (trail ++ d :: rest) := by
    cases trail with
    | nil => exact marker_head d other rest
    | cons e trail => exact marker_head e _ _
  rw [drops] at trailing ⊢
  rw [marks, trailing]

section

variable {lead stem value after : List Char}

/-- In a bracket that is never closed, and at its end, a cursor touches it. -/
theorem not_in_open_bracket {inside : List Char} (framed : Framed interior)
    (proper : ∀ offset cs, (interior offset cs).AllProper) (isOpen : Open text position all windows)
    (marked : IsMarker lead (stem ++ '[' :: inside))
    (unmatched : Bracket.split? .square [] ('[' :: inside) = none)
    (place : position = offset + byteLength left)
    (whole : left ++ right = lead ++ stem ++ '[' :: inside)
    (faces : Faces text position all windows window offset left right scope
      (openBracket offset lead (.ofChars (offset + byteLength lead) stem)
        (lead ++ stem ++ '[' :: inside) inside)) : False := by
  have nodeAt : NodeAt reading interior offset _ _ _ := nodeAt_openBracket offset marked unmatched
  have allProper := nodeAt.allProper framed proper
  have member := faces.known.nodes (Node.mem_nodes_self _)
  have untouched := faces.untouched
  unfold openBracket at allProper member untouched
  simp only [Token.isEmpty_ofChars, Token.stop_ofChars] at allProper member untouched
  by_cases bare : (stem.isEmpty && lead.isEmpty) = true
  · rw [if_pos bare] at allProper member untouched
    have stop : (Token.ofChars offset (lead ++ stem ++ '[' :: inside)).stop =
        position + byteLength right := by
      rw [Token.stop_ofChars, ← whole, byteLength_append, place, Nat.add_assoc]
    by_cases last : right = []
    · rw [last] at stop
      exact isOpen.bracket _ _ member rfl stop.symm
    · have further := byteLength_pos last
      have behind := byteLength_pos faces.started
      have starts : offset < position := by omega
      have ends : position < (Token.ofChars offset (lead ++ stem ++ '[' :: inside)).stop := by omega
      rw [locate_front allProper (by exact starts) (by exact ends)] at untouched
      cases untouched
  · rw [if_neg bare] at untouched
    obtain ⟨d, more, _, none⟩ := @leaf_passed _ _ _ right _ _ _ [] (bracketLeaf_range ..)
      (by rw [List.append_nil]; exact whole) faces.started place untouched
    cases none

private theorem marked_ahead {inside other : List Char}
    (marked : IsMarker lead (stem ++ '[' :: inside)) :
    IsMarker lead (stem ++ '[' :: other) := by
  apply marked.ahead
  cases stem with
  | nil => rfl
  | cons c stem => rfl

private theorem meets_square_variant (tracks : Tracks text position bound interior)
    (framed : Framed interior) (proper : ∀ offset cs, (interior offset cs).AllProper)
    (isOpen : Open text position all windows) (site : Site text position offset left right tail)
    (shallow : weight [':'] left ≤ bound)
    (marked : IsMarker [] (stem ++ '[' :: (value ++ ']' :: (reading.separator ++ after))))
    (isStem : Lexeme.IsStem stem)
    (matched : Bracket.split? .square [] ('[' :: (value ++ ']' :: (reading.separator ++ after))) =
      some ('[' :: value, ']' :: (reading.separator ++ after)))
    (whole : left ++ right = stem ++ '[' :: (value ++ ']' :: (reading.separator ++ after)))
    {important : Bool}
    (begins : ∀ other, Lexeme.scan? [':'] offset (stem ++ '[' :: other) =
      some (.bracket offset important (.ofChars offset stem), other))
    (faces : Faces text position all windows window offset left right scope
      (bracket reading interior offset (.ofChars offset stem) (left ++ right))) :
    ∃ typed, Begins interior offset (left ++ 'x' :: tail) typed ∧
      Meets position offset left scope
        (bracket reading interior offset (.ofChars offset stem) (left ++ right)) typed
        (tail = ' ' :: right ∧ Steady text position all windows) := by
  have spelled : Variant.Spelled [':'] offset
      (stem ++ '[' :: value ++ [']'] ++ reading.separator) _ :=
    Variant.Spelled.bracket isStem ⟨_, matched⟩
  rw [whole, bracket_variant reading interior offset marked matched] at faces ⊢
  have front : left ++ right = stem ++ '[' :: value ++ [']'] ++ reading.separator ++ after := by
    rw [whole]
    simp
  obtain ⟨more, left_eq, rfl, meets⟩ := meets_spelled tracks framed proper isOpen site shallow spelled
    front faces
  have typed : left ++ 'x' :: tail =
      stem ++ '[' :: (value ++ ']' :: (reading.separator ++ (more ++ 'x' :: tail))) := by
    rw [left_eq]
    simp
  have again := Bracket.split?_square_ahead matched (reading.separator ++ (more ++ 'x' :: tail))
  rw [typed]
  refine ⟨_, ⟨_, _, begins _, ?_⟩, meets⟩
  exact congrArg some (bracket_variant reading interior offset (marked_ahead marked) again)

private theorem meets_square_leaf {steady : Prop} (place : position = offset + byteLength left)
    (marked : IsMarker lead (stem ++ '[' :: (value ++ ']' :: after))) (isStem : Lexeme.IsStem stem)
    (matched : Bracket.split? .square [] ('[' :: (value ++ ']' :: after)) =
      some ('[' :: value, ']' :: after))
    (plain : (lead.isEmpty && reading.separator.isPrefixOf after) = false)
    (whole : left ++ right = lead ++ stem ++ '[' :: (value ++ ']' :: after)) {important : Bool}
    (begins : ∀ other, Lexeme.scan? [':'] offset (lead ++ stem ++ '[' :: other) =
      some (.bracket offset important (.ofChars (offset + byteLength lead) stem), other))
    (faces : Faces text position all windows window offset left right scope
      (bracket reading interior offset (.ofChars (offset + byteLength lead) stem) (left ++ right))) :
    ∃ typed, Begins interior offset (left ++ 'x' :: tail) typed ∧
      Meets position offset left scope
        (bracket reading interior offset (.ofChars (offset + byteLength lead) stem) (left ++ right))
        typed steady := by
  rw [whole, bracket_leaf reading interior offset marked matched plain] at faces ⊢
  obtain ⟨taken, rest, parts, leafAt⟩ := @leafAt_closedLeaf offset lead stem value after
    (by simpa using marked) isStem ⟨after, matched⟩
  have split : left ++ right = taken ++ rest := by
    rw [whole, ← parts]
    simp
  obtain ⟨d, more, left_eq, rfl⟩ := leaf_passed leafAt.range_eq split faces.started place
    faces.untouched
  obtain ⟨front, range⟩ := closedLeaf_range offset lead (.ofChars (offset + byteLength lead) stem)
    (stem ++ '[' :: value ++ [']']) (.ofChars (offset + byteLength lead + byteLength stem + 1) value)
    after
  obtain rfl : taken = lead ++ (stem ++ '[' :: value ++ [']']) ++ front :=
    Token.ofChars_inj (leafAt.range_eq.symm.trans range)
  obtain rfl : after = front ++ d :: (more ++ right) := by
    rw [List.append_assoc _ front, List.append_cancel_left_eq] at parts
    exact parts
  subst left_eq
  have again := closedLeaf_ahead range (@Faces.near _ _ _ _ _ _ _ tail _ _ _ _ _ faces range)
  have plain' : (lead.isEmpty &&
      reading.separator.isPrefixOf (front ++ d :: (more ++ 'x' :: tail))) = false := by
    cases front <;> exact plain
  have matched' := Bracket.split?_square_ahead matched (front ++ d :: (more ++ 'x' :: tail))
  have typed : lead ++ (stem ++ '[' :: value ++ [']']) ++ front ++ d :: more ++ 'x' :: tail =
      lead ++ stem ++ '[' :: (value ++ ']' :: (front ++ d :: (more ++ 'x' :: tail))) := by
    simp
  rw [typed]
  refine ⟨_, ⟨_, _, begins _, congrArg some (bracket_leaf reading interior offset
    (marked_ahead marked) matched' plain')⟩, ?_⟩
  rw [again]
  exact Meets.behind rfl (List.cons_ne_nil d more) range range

private theorem meets_square {inside : List Char} (tracks : Tracks text position bound interior)
    (framed : Framed interior) (proper : ∀ offset cs, (interior offset cs).AllProper)
    (isOpen : Open text position all windows) (site : Site text position offset left right tail)
    (shallow : weight [':'] left ≤ bound) (marked : IsMarker lead (stem ++ '[' :: inside))
    (isStem : Lexeme.IsStem stem) (whole : left ++ right = lead ++ stem ++ ['['] ++ inside)
    {important : Bool}
    (scanned : Lexeme.scan? [':'] offset (left ++ right) =
      some (.bracket offset important (.ofChars (offset + byteLength lead) stem), inside))
    (faces : Faces text position all windows window offset left right scope
      (bracket reading interior offset (.ofChars (offset + byteLength lead) stem) (left ++ right))) :
    ∃ typed, Begins interior offset (left ++ 'x' :: tail) typed ∧
      Meets position offset left scope
        (bracket reading interior offset (.ofChars (offset + byteLength lead) stem) (left ++ right))
        typed (tail = ' ' :: right ∧ Steady text position all windows) := by
  have begins : ∀ other, Lexeme.scan? [':'] offset (lead ++ stem ++ '[' :: other) =
      some (.bracket offset important (.ofChars (offset + byteLength lead) stem), other) := by
    intro other
    rw [whole] at scanned
    have again := Lexeme.scan?_begins_ahead scanned rfl other
    rwa [List.append_assoc, List.singleton_append] at again
  rw [List.append_assoc, List.singleton_append] at whole
  cases matching : Bracket.split? .square [] ('[' :: inside) with
  | none =>
      rw [whole, bracket_open reading interior offset marked matching] at faces
      exact (not_in_open_bracket framed proper isOpen marked matching site.place whole faces).elim
  | some parts =>
      obtain ⟨content, closed⟩ := parts
      obtain ⟨value, after, rfl, rfl, rfl⟩ := Bracket.split?_square matching
      rcases separated_cases reading.separator lead after with ⟨rfl, after, rfl⟩ | plain
      · exact meets_square_variant tracks framed proper isOpen site shallow marked isStem matching whole
          begins faces
      · exact meets_square_leaf site.place marked isStem matching plain whole begins faces

end

/-- Typing behind the start of an item. -/
theorem meets_node {node : Node} (tracks : Tracks text position bound interior)
    (framed : Framed interior) (proper : ∀ offset cs, (interior offset cs).AllProper)
    (isOpen : Open text position all windows) (site : Site text position offset left right tail)
    (shallow : weight [':'] left ≤ bound) (begins : Begins interior offset (left ++ right) node)
    (faces : Faces text position all windows window offset left right scope node) :
    ∃ typed, Begins interior offset (left ++ 'x' :: tail) typed ∧
      Meets position offset left scope node typed
        (tail = ' ' :: right ∧ Steady text position all windows) := by
  obtain ⟨lexeme, rest, scanned, begun⟩ := begins
  obtain ⟨taken, whole, scans⟩ := Lexeme.scans_of_scan? scanned
  cases scans with
  | lineComment _ _ => cases begun
  | blockComment => cases begun
  | variant nonempty named =>
      exact meets_named tracks framed proper isOpen site shallow nonempty named whole scanned rfl begun
        faces
  | bracket marked isStem =>
      cases begun
      exact meets_square tracks framed proper isOpen site shallow marked isStem whole scanned faces
  | className _ _ _ _ =>
      cases begun
      exact meets_leaf scanned rfl whole (fun _ _ => rfl) rfl site.place faces
  | group marked =>
      cases begun
      exact meets_parenthesis tracks framed proper isOpen site shallow marked whole scanned faces
  | unhandled nonempty =>
      cases begun
      exact meets_leaf scanned rfl whole (fun _ _ => rfl) rfl site.place faces

end ClassExpr.Tree
