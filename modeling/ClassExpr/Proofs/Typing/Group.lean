import ClassExpr.Proofs.Tree.Shift
import ClassExpr.Proofs.Typing.Lookahead
import ClassExpr.Proofs.Typing.Open

set_option autoImplicit false

/-! Typing into a group. A group that is closed in front of the cursor is read as before; otherwise
its closer, if it has one, stays behind what is typed, and the interior takes it. -/

namespace ClassExpr.Tree

open Text Completion Hover

def IsTail (tail : List Char) : Prop :=
  tail = [] ∨ ∃ later, tail = ' ' :: later

theorem IsTail.left {inner after : List Char} (isTail : IsTail (inner ++ after)) : IsTail inner := by
  cases inner with
  | nil => exact Or.inl rfl
  | cons c inner =>
      rcases isTail with none | ⟨later, same⟩
      · cases none
      · rw [List.cons_append, List.cons.injEq] at same
        exact Or.inr ⟨inner, by rw [same.1]⟩

/-- A cursor behind the first part of a window of the text, and what follows the class name that is
typed there. -/
structure Site (text : String) (position offset : Nat) (left right tail : List Char) : Prop where
  place : position = offset + byteLength left
  occurs : Occurs text.toList offset (left ++ right)
  isTail : IsTail tail

theorem Site.behind {text : String} {position offset : Nat} {front left right tail : List Char}
    (site : Site text position offset (front ++ left) right tail) :
    Site text position (offset + byteLength front) left right tail := by
  obtain ⟨place, occurs, isTail⟩ := site
  rw [List.append_assoc] at occurs
  refine ⟨?_, occurs.right, isTail⟩
  rw [place, byteLength_append, Nat.add_assoc]

theorem Site.within {text : String} {position offset : Nat}
    {left right after tail inner : List Char}
    (site : Site text position offset left (right ++ after) tail) (isTail : IsTail inner) :
    Site text position offset left right inner := by
  obtain ⟨place, occurs, _⟩ := site
  rw [← List.append_assoc] at occurs
  exact ⟨place, occurs.left, isTail⟩

theorem Site.interior {text : String} {position offset : Nat} {lead left right tail : List Char}
    (site : Site text position offset (lead ++ '(' :: left) right tail) :
    Site text position (offset + byteLength lead + 1) left right tail := by
  have parts : lead ++ '(' :: left = (lead ++ ['(']) ++ left := by simp
  have place : offset + byteLength (lead ++ ['(']) = offset + byteLength lead + 1 := by
    have openerSize : Char.utf8Size '(' = 1 := rfl
    simp
    omega
  rw [parts] at site
  rw [← place]
  exact site.behind

/-- Interiors in which a cursor finds the context that a class name typed there has, where the
levels suffice. -/
structure Tracks (text : String) (position bound : Nat) (interior : Interior) : Prop where
  fresh : 0 < bound → ∀ tail, IsTail tail → ∀ scope,
    resolve position scope (interior position ('x' :: tail)) = some (.ofLeaf scope (.typed position))
  marked : 0 < bound → ∀ offset, position = offset + 1 → ∀ tail, IsTail tail → ∀ scope,
    resolve position scope (interior offset ('!' :: 'x' :: tail)) =
      some (.ofLeaf (scope.mark true) (.typed position))
  inside : ∀ {offset : Nat} {left right tail : List Char} {scope : Scope},
    Site text position offset left right tail → weight [':'] left < bound →
    let node := interior offset (left ++ right)
    let windows := node.allWindows text ":" offset (offset + byteLength (left ++ right))
    Open text position node.nodes windows → (locate position scope node).target = none →
    Lands position scope (locate position scope node)
      (fun scope => resolve position scope (interior offset (left ++ 'x' :: tail)))
      (node.Around position) (tail = ' ' :: right ∧ Steady text position node.nodes windows)

/-- A node at the start of a window whose cursor stands behind `left`, and the node that is read
there once a class name is typed: the cursor is behind both, right behind the second one, or in
them. -/
inductive Meets (position offset : Nat) (left : List Char) (scope : Scope) (node typed : Node)
    (steady : Prop) : Prop
  | behind {front rest : List Char} (split : left = front ++ rest) (nonempty : rest ≠ [])
      (here : node.range = .ofChars offset front) (there : typed.range = .ofChars offset front)
  | beside {range : Token} {child : Node} {important : Bool}
      (group : node = .group range child true important)
      (past : (Node.closer range).start < position ∧ position ≤ range.stop)
      (found : locate position scope node = .ofScope scope)
      (there : typed.range = .ofChars offset left)
  | inside (touched : node.range.touches position = true)
      (contains : typed.range.contains position = true)
      (lands : Lands position scope (locate position scope node)
        (fun scope => resolve position scope typed) (node.Around position) steady)

structure Known (text : String) (all : List Node) (windows : List Window) (stop : Nat)
    (node : Node) : Prop where
  nodes : node.nodes ⊆ all
  windows : node.windows text ":" stop ⊆ windows

variable {text : String} {position bound : Nat} {interior : Interior}

/-- Behind the start of a group a cursor is behind its parenthesis or right behind its marker. -/
theorem opened_or_marked {lead left right inside : List Char} (nonempty : left ≠ [])
    (marked : IsMarker lead ('(' :: inside)) (whole : left ++ right = lead ++ '(' :: inside) :
    (∃ inner, left = lead ++ '(' :: inner ∧ inside = inner ++ right) ∨
      lead = ['!'] ∧ left = ['!'] ∧ right = '(' :: inside := by
  obtain ⟨c, cs, rfl⟩ := List.exists_cons_of_ne_nil nonempty
  rcases marked.cases with rfl | rfl
  · cases whole
    exact Or.inl ⟨cs, rfl, rfl⟩
  · cases cs with
    | nil =>
        cases whole
        exact Or.inr ⟨rfl, rfl, rfl⟩
    | cons d cs =>
        cases whole
        exact Or.inl ⟨cs, rfl, rfl⟩

private theorem isInside_closed (offset : Nat) (inside : List Char) {lead trail : List Char}
    (leading : lead = [] ∨ lead = ['!']) (trailing : trail = [] ∨ trail = ['!']) :
    isInside (.ofChars offset (lead ++ '(' :: inside ++ ')' :: trail)) true position =
      (decide (offset + byteLength lead < position) &&
        decide (position ≤ offset + byteLength lead + 1 + byteLength inside)) := by
  have openerSize : Char.utf8Size '(' = 1 := rfl
  have closerSize : Char.utf8Size ')' = 1 := rfl
  have markSize : Char.utf8Size '!' = 1 := rfl
  have opening : offset + ((lead ++ '(' :: inside ++ ')' :: trail).head? == some '!').toNat =
      offset + byteLength lead := by
    rcases leading with rfl | rfl
    · rfl
    · rfl
  have closing : (Token.ofChars offset (lead ++ '(' :: inside ++ ')' :: trail)).stop -
      (if [')', '!'].isSuffixOf (lead ++ '(' :: inside ++ ')' :: trail) then 2 else 1) =
        offset + byteLength lead + 1 + byteLength inside := by
    rw [Token.stop_ofChars, byteLength_append, byteLength_append, byteLength_cons, byteLength_cons]
    rcases trailing with rfl | rfl
    · have unmarked : [')', '!'].isSuffixOf (lead ++ '(' :: inside ++ [')']) = false := by
        rw [Bool.eq_false_iff, Ne, List.isSuffixOf_iff_suffix]
        rintro ⟨front, same⟩
        have last := congrArg (fun cs => cs.reverse.head?) same
        simp at last
      rw [unmarked]
      simp
      omega
    · have marked : [')', '!'].isSuffixOf (lead ++ '(' :: inside ++ [')', '!']) = true := by
        rw [List.isSuffixOf_iff_suffix]
        exact ⟨_, rfl⟩
      rw [marked]
      simp
      omega
  unfold isInside
  simp only [Token.toList_ofChars, Token.start_ofChars, Bool.not_true, Bool.false_or, opening, closing]

private theorem isInside_open (offset : Nat) (inside : List Char) {lead : List Char}
    (leading : lead = [] ∨ lead = ['!']) :
    isInside (.ofChars offset (lead ++ '(' :: inside)) false position =
      decide (offset + byteLength lead < position) := by
  unfold isInside
  simp only [Token.toList_ofChars, Token.start_ofChars, Bool.not_false, Bool.true_or, Bool.and_true]
  rcases leading with rfl | rfl
  · rfl
  · rfl

/-- Where typing moves no closer, the text behind the closer of a group is the same. -/
theorem split?_of_steady {all : List Node} {windows : List Window} {offset : Nat}
    {lead left rest : List Char} {child : Node} {closed important : Bool}
    (steady : Steady text position all windows) (leading : lead = [] ∨ lead = ['!'])
    (member : .group (.ofChars offset (lead ++ '(' :: (left ++ rest))) child closed important ∈ all)
    (surrounds : (Node.group (.ofChars offset (lead ++ '(' :: (left ++ rest))) child closed
      important).Surrounds position)
    (place : position = offset + byteLength (lead ++ '(' :: left)) :
    (Bracket.split? .parens [] ('(' :: (left ++ 'x' :: ' ' :: rest))).map (·.2) =
      (Bracket.split? .parens [] ('(' :: (left ++ rest))).map (·.2) := by
  have same := steady.group _ _ _ _ member surrounds
  have marks : marker (lead ++ '(' :: (left ++ rest)) = lead := by
    rcases leading with rfl | rfl
    · rfl
    · rfl
  have behind : position - (offset + byteLength lead) = byteLength ('(' :: left) := by
    rw [place, byteLength_append]
    omega
  simp only [Token.toList_ofChars, Token.start_ofChars, marks, List.drop_left, behind] at same
  rw [← List.cons_append, typeName_byteLength] at same
  exact same

private theorem meets_interior {offset : Nat} {left : List Char} {scope : Scope}
    {range wider : Token}
    {child typed : Node} {closed important closes marks : Bool} {further steady : Prop}
    (proper : (Node.group range child closed important).AllProper)
    (touched : range.touches position = true) (within : isInside range closed position = true)
    (contains : wider.contains position = true)
    (surrounds : (Node.group range child closed important).Surrounds position)
    (lands : Lands position (scope.mark important) (locate position (scope.mark important) child)
      (fun scope => resolve position scope typed) (child.Around position) further)
    (calm : steady → further ∧ important = marks) :
    Meets position offset left scope (.group range child closed important)
      (.group wider typed closes marks) steady := by
  have around : (Node.group range child closed important).Around position :=
    ⟨_, Node.mem_nodes_self _, surrounds⟩
  have found : locate position scope (.group range child closed important) =
      locate position (scope.mark important) child := by
    rw [locate_group proper, touched, within]
    rfl
  refine Meets.inside (by exact touched) (by exact contains) ?_
  rw [found]
  have inner := (lands.imp (fun _ => around) fun settled _ => settled).mark around calm
  obtain ⟨variants, least, most, here, there, outside, same⟩ := inner
  refine ⟨variants, least, most, here, fun scope => ?_, outside, same⟩
  have name := there scope
  dsimp only at name ⊢
  rw [resolve.eq_def]
  dsimp only
  rw [if_pos contains, name]
  rfl

/-- The group around what is typed: its closer, if it has one, is among what follows. -/
theorem exists_typed_group (interior : Interior) (offset : Nat) {lead left tail : List Char}
    (marked : IsMarker lead ('(' :: (left ++ 'x' :: tail))) (isTail : IsTail tail)
    (behind : Bracket.split? .parens [] ('(' :: (left ++ 'x' :: tail)) = none ∨
      ∃ inner after, tail = inner ++ ')' :: after ∧
        Bracket.split? .parens [] ('(' :: (left ++ 'x' :: tail)) =
          some ('(' :: (left ++ 'x' :: inner), ')' :: after)) :
    ∃ range inner closed important, IsTail inner ∧
      group interior offset (lead ++ '(' :: (left ++ 'x' :: tail)) =
        .group range (interior (offset + byteLength lead + 1) (left ++ 'x' :: inner)) closed
          important ∧
      range.contains (offset + byteLength (lead ++ '(' :: left)) = true ∧
      (Bracket.split? .parens [] ('(' :: (left ++ 'x' :: tail)) = none →
        inner = tail ∧ important = !lead.isEmpty) ∧
      ∀ content after, Bracket.split? .parens [] ('(' :: (left ++ 'x' :: tail)) =
        some (content, ')' :: after) →
          tail = inner ++ ')' :: after ∧ important = (!lead.isEmpty || !(marker after).isEmpty) := by
  have openerSize : Char.utf8Size '(' = 1 := rfl
  have nameSize : Char.utf8Size 'x' = 1 := rfl
  rcases behind with none | ⟨inner, after, rfl, some⟩
  · refine ⟨.ofChars offset (lead ++ '(' :: (left ++ 'x' :: tail)), tail, false, !lead.isEmpty,
      isTail, group_open interior offset marked none, ?_, fun _ => ⟨rfl, rfl⟩,
      fun content after found => ?_⟩
    · rw [Token.contains_iff, Token.stop_ofChars, Token.start_ofChars]
      simp only [byteLength_append, byteLength_cons]
      omega
    · rw [none] at found
      cases found
  · have matched : Bracket.split? .parens [] ('(' :: (left ++ 'x' :: inner) ++ ')' :: after) =
        Option.some ('(' :: (left ++ 'x' :: inner), ')' :: after) := by
      rw [← some]
      simp
    have marks : IsMarker lead ('(' :: (left ++ 'x' :: inner) ++ ')' :: after) := marked.ahead rfl
    have built := group_of_split interior offset marks matched
    refine ⟨.ofChars offset (lead ++ '(' :: (left ++ 'x' :: inner) ++ [')'] ++ marker after), inner,
      true, !lead.isEmpty || !(marker after).isEmpty, isTail.left, ?_, ?_, fun none => ?_,
      fun content other found => ?_⟩
    · rw [← built]
      simp
    · rw [Token.contains_iff, Token.stop_ofChars, Token.start_ofChars]
      simp only [byteLength_append, byteLength_cons]
      omega
    · rw [some] at none
      cases none
    · rw [some] at found
      cases found
      exact ⟨rfl, rfl⟩

section

variable {all : List Node} {windows : List Window} {offset stop : Nat} {lead left right tail : List Char}
  {scope : Scope}

private theorem inside_open (right : List Char) (child : Node) (important : Bool)
    (leading : lead = [] ∨ lead = ['!'])
    (place : position = offset + byteLength (lead ++ '(' :: left)) :
    (Token.ofChars offset (lead ++ '(' :: (left ++ right))).touches position = true ∧
      isInside (.ofChars offset (lead ++ '(' :: (left ++ right))) false position = true ∧
      (Node.group (.ofChars offset (lead ++ '(' :: (left ++ right))) child false
        important).Surrounds position := by
  have openerSize : Char.utf8Size '(' = 1 := rfl
  refine ⟨?_, ?_, ?_⟩
  · rw [Token.touches_iff, Token.start_ofChars, Token.stop_ofChars]
    simp only [byteLength_append, byteLength_cons] at place ⊢
    omega
  · rw [isInside_open offset (left ++ right) leading, decide_eq_true_eq]
    simp only [byteLength_append, byteLength_cons] at place
    omega
  · rw [Node.Surrounds, Token.start_ofChars]
    simp only [Bool.false_eq_true, if_false, Token.stop_ofChars, byteLength_append, byteLength_cons]
      at place ⊢
    omega

private theorem inside_closed {trail : List Char} (right : List Char) (child : Node)
    (important : Bool)
    (leading : lead = [] ∨ lead = ['!']) (trailing : trail = [] ∨ trail = ['!'])
    (place : position = offset + byteLength (lead ++ '(' :: left)) :
    (Token.ofChars offset (lead ++ '(' :: (left ++ right) ++ ')' :: trail)).touches position = true ∧
      isInside (.ofChars offset (lead ++ '(' :: (left ++ right) ++ ')' :: trail)) true position =
        true ∧
      (Node.group (.ofChars offset (lead ++ '(' :: (left ++ right) ++ ')' :: trail)) child true
        important).Surrounds position := by
  have openerSize : Char.utf8Size '(' = 1 := rfl
  refine ⟨?_, ?_, ?_⟩
  · rw [Token.touches_iff, Token.start_ofChars, Token.stop_ofChars]
    simp only [byteLength_append, byteLength_cons] at place ⊢
    omega
  · rw [isInside_closed offset (left ++ right) leading trailing, Bool.and_eq_true,
      decide_eq_true_eq, decide_eq_true_eq]
    simp only [byteLength_append, byteLength_cons] at place ⊢
    omega
  · rw [Node.Surrounds, closer_eq offset (lead ++ '(' :: (left ++ right)) trailing,
      Token.start_ofChars]
    simp only [if_true, Token.start_ofChars, byteLength_append, byteLength_cons] at place ⊢
    omega

/-- What is typed into a group is found in its interior, in the context that a cursor has there. -/
theorem meets_nested {inside : Nat} {front inner : List Char} {range wider : Token}
    {closed important closes marks : Bool} {steady : Prop}
    (tracks : Tracks text position bound interior) (isOpen : Open text position all windows)
    (site : Site text position inside left right inner) (shallow : weight [':'] left < bound)
    (proper : (Node.group range (interior inside (left ++ right)) closed important).AllProper)
    (nodes : (Node.group range (interior inside (left ++ right)) closed important).nodes ⊆ all)
    (deeper : (interior inside (left ++ right)).allWindows text ":" inside
      (inside + byteLength (left ++ right)) ⊆ windows)
    (within : range.touches position = true ∧ isInside range closed position = true ∧
      (Node.group range (interior inside (left ++ right)) closed important).Surrounds position)
    (contains : wider.contains position = true)
    (untouched : (locate position scope
      (.group range (interior inside (left ++ right)) closed important)).target = none)
    (calm : steady →
      (inner = ' ' :: right ∧ Steady text position all windows) ∧ important = marks) :
    Meets position offset front scope (.group range (interior inside (left ++ right)) closed important)
      (.group wider (interior inside (left ++ 'x' :: inner)) closes marks) steady := by
  obtain ⟨touched, isInside, surrounds⟩ := within
  have below : (interior inside (left ++ right)).nodes ⊆ all := by
    rw [Node.nodes_group] at nodes
    exact fun node isNode => nodes (List.mem_cons_of_mem _ isNode)
  refine meets_interior proper touched isInside contains surrounds
    (tracks.inside site shallow (isOpen.mono below deeper) ?_) fun settled => ?_
  · rw [locate_group proper, touched, isInside] at untouched
    exact untouched
  · obtain ⟨⟨tail, steady⟩, same⟩ := calm settled
    exact ⟨⟨tail, steady.mono below deeper⟩, same⟩

private theorem meets_open (tracks : Tracks text position bound interior) (framed : Framed interior)
    (proper : ∀ offset cs, (interior offset cs).AllProper) (isOpen : Open text position all windows)
    (marked : IsMarker lead ('(' :: (left ++ right)))
    (unmatched : Bracket.split? .parens [] ('(' :: (left ++ right)) = none)
    (site : Site text position offset (lead ++ '(' :: left) right tail)
    (shallow : weight [':'] left < bound)
    (known : Known text all windows stop (group interior offset (lead ++ '(' :: (left ++ right))))
    (untouched : (locate position scope
      (group interior offset (lead ++ '(' :: (left ++ right)))).target = none) :
    Meets position offset (lead ++ '(' :: left) scope
      (group interior offset (lead ++ '(' :: (left ++ right)))
      (group interior offset (lead ++ '(' :: (left ++ 'x' :: tail)))
      (tail = ' ' :: right ∧ Steady text position all windows) := by
  have typedMark : IsMarker lead ('(' :: (left ++ 'x' :: tail)) := marked.ahead rfl
  have behind := @Bracket.split?_behind .parens (Or.inl rfl) left right tail 'x' (by decide)
    fun inside after _ found => by
      have none := unmatched.symm.trans found
      cases none
  obtain ⟨wider, inner, closes, marks, innerTail, built, contains, whole, _⟩ :=
    exists_typed_group interior offset typedMark site.isTail behind
  have groupAt : GroupAt interior offset _ [] _ := GroupAt.opened marked unmatched
  have sized := site.place
  rw [built]
  rw [group_open interior offset marked unmatched] at known untouched ⊢
  obtain ⟨nodes, allWindows⟩ := known
  rw [windows_open text stop offset _ _ marked.cases] at allWindows
  have within := inside_open right (interior (offset + byteLength lead + 1) (left ++ right))
    (!lead.isEmpty) marked.cases sized
  refine meets_nested tracks isOpen ⟨site.interior.place, site.interior.occurs, innerTail⟩ shallow
    (groupAt.allProper framed proper) nodes allWindows within (by rwa [sized]) untouched ?_
  rintro ⟨rfl, steady⟩
  have none := split?_of_steady steady marked.cases (nodes (Node.mem_nodes_self _)) within.2.2 sized
  rw [unmatched, Option.map_none, Option.map_eq_none_iff] at none
  obtain ⟨rfl, rfl⟩ := whole none
  exact ⟨⟨rfl, steady⟩, rfl⟩

/-- Where typing moves no closer, the interior of a group is as before but for what is typed in it.
-/
theorem matched_of_steady {after trail : List Char} {child : Node} {important : Bool}
    (steady : Steady text position all windows) (leading : lead = [] ∨ lead = ['!'])
    (matched : Bracket.split? .parens [] ('(' :: (left ++ right) ++ ')' :: after) =
      some ('(' :: (left ++ right), ')' :: after))
    (member : .group (.ofChars offset (lead ++ '(' :: (left ++ right) ++ ')' :: trail)) child true
      important ∈ all)
    (surrounds : (Node.group (.ofChars offset (lead ++ '(' :: (left ++ right) ++ ')' :: trail)) child
      true important).Surrounds position)
    (place : position = offset + byteLength (lead ++ '(' :: left)) :
    Bracket.split? .parens [] ('(' :: (left ++ 'x' :: ' ' :: (right ++ ')' :: after))) =
      some ('(' :: (left ++ 'x' :: ' ' :: right), ')' :: after) := by
  have shaped : lead ++ '(' :: (left ++ right) ++ ')' :: trail =
      lead ++ '(' :: (left ++ (right ++ ')' :: trail)) := by simp
  rw [shaped] at member surrounds
  have same := split?_of_steady steady leading member surrounds place
  have here := Bracket.split?_parens_ahead matched trail
  rw [show '(' :: (left ++ (right ++ ')' :: trail)) =
    '(' :: (left ++ right) ++ ')' :: trail by simp, here, Option.map_some,
    Option.map_eq_some_iff] at same
  obtain ⟨⟨content, closed⟩, typedMatch, rfl⟩ := same
  obtain ⟨inside, later, rfl, closing, split⟩ := Bracket.split?_parens typedMatch
  rw [List.cons.injEq] at closing
  obtain ⟨_, rfl⟩ := closing
  have typed : inside = left ++ 'x' :: ' ' :: right := by
    have whole : inside ++ ')' :: trail = (left ++ 'x' :: ' ' :: right) ++ ')' :: trail := by
      rw [← split]
      simp
    exact List.append_cancel_right whole
  rw [split] at typedMatch
  have there := Bracket.split?_parens_ahead typedMatch after
  rw [typed] at there
  rw [← there]
  simp

private theorem meets_closed {after : List Char} (tracks : Tracks text position bound interior)
    (framed : Framed interior) (proper : ∀ offset cs, (interior offset cs).AllProper)
    (isOpen : Open text position all windows)
    (marked : IsMarker lead ('(' :: (left ++ right) ++ ')' :: after))
    (matched : Bracket.split? .parens [] ('(' :: (left ++ right) ++ ')' :: after) =
      some ('(' :: (left ++ right), ')' :: after))
    (site : Site text position offset (lead ++ '(' :: left) (right ++ ')' :: after) tail)
    (shallow : weight [':'] left < bound)
    (known : Known text all windows stop
      (group interior offset (lead ++ ('(' :: (left ++ right) ++ ')' :: after))))
    (untouched : (locate position scope
      (group interior offset (lead ++ ('(' :: (left ++ right) ++ ')' :: after)))).target = none) :
    Meets position offset (lead ++ '(' :: left) scope
      (group interior offset (lead ++ ('(' :: (left ++ right) ++ ')' :: after)))
      (group interior offset (lead ++ '(' :: (left ++ 'x' :: tail)))
      (tail = ' ' :: (right ++ ')' :: after) ∧ Steady text position all windows) := by
  have typedMark : IsMarker lead ('(' :: (left ++ 'x' :: tail)) := marked.ahead rfl
  have behind := @Bracket.split?_behind .parens (Or.inl rfl) left (right ++ ')' :: after) tail 'x'
    (by decide) fun inside rest whole found => by
      have parts : '(' :: (left ++ (right ++ ')' :: after)) =
          '(' :: (left ++ right) ++ ')' :: after := by simp
      have same := (congrArg (Bracket.split? .parens []) parts).trans matched
      have front := congrArg (fun parts => parts.map (·.1.length)) (same.symm.trans found)
      simp [whole] at front
  obtain ⟨wider, inner, closes, marks, innerTail, built, contains, whole, found⟩ :=
    exists_typed_group interior offset typedMark site.isTail behind
  have sized := site.place
  obtain ⟨rest, parts, trailing, _⟩ := exists_marker after
  have grouped := group_of_split interior offset marked matched
  have shape : ∀ trail : List Char, lead ++ '(' :: (left ++ right) ++ [')'] ++ trail =
      lead ++ '(' :: (left ++ right) ++ ')' :: trail := by simp
  rw [grouped, shape] at known untouched
  rw [built, grouped, shape]
  -- what follows the group is of no matter but for its marker
  obtain ⟨trail, mark⟩ : ∃ trail, marker after = trail := ⟨_, rfl⟩
  rw [mark] at parts trailing known untouched ⊢
  have allProper : (Node.group (.ofChars offset (lead ++ '(' :: (left ++ right) ++ ')' :: trail))
      (interior (offset + byteLength lead + 1) (left ++ right)) true
      (!lead.isEmpty || !trail.isEmpty)).AllProper := by
    rw [parts] at marked matched
    exact (GroupAt.closed marked trailing matched).allProper framed proper
  obtain ⟨nodes, allWindows⟩ := known
  rw [windows_closed text stop offset _ _ marked.cases trailing.cases] at allWindows
  have within := inside_closed right (interior (offset + byteLength lead + 1) (left ++ right))
    (!lead.isEmpty || !trail.isEmpty) marked.cases trailing.cases sized
  refine meets_nested tracks isOpen (site.interior.within innerTail) shallow allProper nodes allWindows
    within (by rwa [sized]) untouched ?_
  rintro ⟨rfl, steady⟩
  obtain ⟨rest_eq, rfl⟩ := found _ after
    (matched_of_steady steady marked.cases matched (nodes (Node.mem_nodes_self _)) within.2.2 sized)
  rw [← List.cons_append, List.append_cancel_right_eq] at rest_eq
  exact ⟨⟨rest_eq.symm, steady⟩, by rw [mark]⟩

theorem marker_head (c : Char) (cs other : List Char) : marker (c :: cs) = marker (c :: other) := by
  rw [marker, marker, List.head?_cons, List.head?_cons]
  cases some c == some '!' with
  | true => rfl
  | false => rfl

private theorem locate_behind {inside trail : List Char} {child : Node} {important : Bool}
    (leading : lead = [] ∨ lead = ['!']) (trailing : trail = [] ∨ trail = ['!'])
    (past : offset + byteLength (lead ++ '(' :: inside) < position) :
    locate position scope (.group (.ofChars offset (lead ++ '(' :: inside ++ ')' :: trail)) child true
      important) = .ofScope scope := by
  have openerSize : Char.utf8Size '(' = 1 := rfl
  have outside : isInside (.ofChars offset (lead ++ '(' :: inside ++ ')' :: trail)) true position =
      false := by
    rw [isInside_closed offset inside leading trailing, Bool.and_eq_false_iff, decide_eq_false_iff_not,
      decide_eq_false_iff_not]
    simp only [byteLength_append, byteLength_cons] at past
    omega
  rw [locate, outside, Bool.not_false, Bool.or_true]
  rfl

private theorem meets_passed {inside after : List Char} {steady : Prop}
    (marked : IsMarker lead ('(' :: inside ++ ')' :: (after ++ right)))
    (matched : Bracket.split? .parens [] ('(' :: inside ++ ')' :: (after ++ right)) =
      some ('(' :: inside, ')' :: (after ++ right)))
    (place : position = offset + byteLength (lead ++ '(' :: inside ++ ')' :: after)) :
    Meets position offset (lead ++ '(' :: inside ++ ')' :: after) scope
      (group interior offset (lead ++ ('(' :: inside ++ ')' :: (after ++ right))))
      (group interior offset (lead ++ ('(' :: inside ++ ')' :: (after ++ 'x' :: tail)))) steady := by
  have openerSize : Char.utf8Size '(' = 1 := rfl
  have closerSize : Char.utf8Size ')' = 1 := rfl
  have typedMark : IsMarker lead ('(' :: inside ++ ')' :: (after ++ 'x' :: tail)) := marked.ahead rfl
  have shape : ∀ trail : List Char, lead ++ '(' :: inside ++ [')'] ++ trail =
      lead ++ '(' :: inside ++ ')' :: trail := by simp
  rw [group_of_split interior offset marked matched, group_of_split interior offset typedMark
    (Bracket.split?_parens_ahead matched (after ++ 'x' :: tail)), shape, shape]
  obtain ⟨_, parts, trailing, _⟩ := exists_marker (after ++ right)
  have past : offset + byteLength (lead ++ '(' :: inside) < position := by
    rw [place]
    simp only [byteLength_append, byteLength_cons]
    omega
  have ends : ∀ trail : List Char, (trail = [] ∨ trail = ['!']) →
      byteLength after ≤ byteLength trail →
      (Node.closer (.ofChars offset (lead ++ '(' :: inside ++ ')' :: trail))).start < position ∧
        position ≤ (Token.ofChars offset (lead ++ '(' :: inside ++ ')' :: trail)).stop := by
    intro trail trailing longer
    rw [closer_eq offset (lead ++ '(' :: inside) trailing, Token.start_ofChars, Token.stop_ofChars,
      place]
    simp only [byteLength_append, byteLength_cons]
    omega
  cases after with
  | nil =>
      exact Meets.beside rfl (ends _ trailing.cases (Nat.zero_le _))
        (locate_behind marked.cases trailing.cases past) rfl
  | cons d after =>
      have same : marker (d :: after ++ right) = marker (d :: after ++ 'x' :: tail) :=
        marker_head d _ _
      by_cases bang : d = '!'
      · subst bang
        have here : marker ('!' :: after ++ right) = ['!'] := rfl
        rw [← same, here]
        cases after with
        | nil =>
            exact Meets.beside rfl (ends _ (Or.inr rfl) (Nat.le_refl _))
              (locate_behind marked.cases (Or.inr rfl) past) rfl
        | cons e after =>
            have split : lead ++ '(' :: inside ++ ')' :: '!' :: e :: after =
                lead ++ '(' :: inside ++ [')', '!'] ++ e :: after := by simp
            exact Meets.behind split (List.cons_ne_nil e after) rfl rfl
      · have here : marker (d :: after ++ right) = [] := by simp [marker, bang]
        have split : lead ++ '(' :: inside ++ ')' :: d :: after =
            lead ++ '(' :: inside ++ [')'] ++ d :: after := by simp
        rw [← same, here]
        exact Meets.behind split (List.cons_ne_nil d after) rfl rfl

/-- Typing behind the opening parenthesis of a group. -/
theorem meets_group (tracks : Tracks text position bound interior) (framed : Framed interior)
    (proper : ∀ offset cs, (interior offset cs).AllProper) (isOpen : Open text position all windows)
    (marked : IsMarker lead ('(' :: (left ++ right)))
    (site : Site text position offset (lead ++ '(' :: left) right tail)
    (shallow : weight [':'] left < bound)
    (known : Known text all windows stop (group interior offset (lead ++ '(' :: (left ++ right))))
    (untouched : (locate position scope
      (group interior offset (lead ++ '(' :: (left ++ right)))).target = none) :
    Meets position offset (lead ++ '(' :: left) scope
      (group interior offset (lead ++ '(' :: (left ++ right)))
      (group interior offset (lead ++ '(' :: (left ++ 'x' :: tail)))
      (tail = ' ' :: right ∧ Steady text position all windows) := by
  cases matching : Bracket.split? .parens [] ('(' :: (left ++ right)) with
  | none => exact meets_open tracks framed proper isOpen marked matching site shallow known untouched
  | some parts =>
      obtain ⟨content, closed⟩ := parts
      obtain ⟨inside, after, rfl, rfl, whole⟩ := Bracket.split?_parens matching
      have around : ∀ more, inside = left ++ more → right = more ++ ')' :: after →
          Meets position offset (lead ++ '(' :: left) scope
            (group interior offset (lead ++ '(' :: (left ++ right)))
            (group interior offset (lead ++ '(' :: (left ++ 'x' :: tail)))
            (tail = ' ' :: right ∧ Steady text position all windows) := by
        rintro more rfl rfl
        have parts : '(' :: (left ++ (more ++ ')' :: after)) =
            '(' :: (left ++ more) ++ ')' :: after := by simp
        rw [parts] at matching marked known untouched ⊢
        exact meets_closed tracks framed proper isOpen marked matching site shallow known untouched
      rcases List.append_eq_append_iff.1 whole with ⟨more, longer, rest⟩ | ⟨more, shorter, rest⟩
      · exact around more longer rest
      · cases more with
        | nil =>
            rw [List.append_nil] at shorter
            exact around [] (by rw [shorter, List.append_nil]) rest.symm
        | cons d more =>
            rw [List.cons_append, List.cons.injEq] at rest
            obtain ⟨rfl, rfl⟩ := rest
            subst shorter
            have parts : ∀ tail : List Char, '(' :: (inside ++ ')' :: more ++ tail) =
                '(' :: inside ++ ')' :: (more ++ tail) := by simp
            have ending : lead ++ '(' :: (inside ++ ')' :: more) =
                lead ++ '(' :: inside ++ ')' :: more := by simp
            have place := site.place
            rw [parts] at matching marked
            rw [ending] at place ⊢
            rw [parts, parts]
            exact meets_passed marked matching place

/-- Between its marker and its parenthesis a cursor is at a group, but not inside. -/
theorem exists_marked_group (interior : Interior) (cs : List Char) (place : position = offset + 1) :
    ∃ range child closed important,
      group interior offset (['!'] ++ '(' :: cs) = .group range child closed important ∧
        range.start = offset ∧ range.text.toList.head? = some '!' ∧
        range.touches position = true ∧ isInside range closed position = false ∧
        (Node.group range child closed important).Surrounds position := by
  have markSize : Char.utf8Size '!' = 1 := rfl
  have marked : IsMarker ['!'] ('(' :: cs) := Or.inl rfl
  cases matching : Bracket.split? .parens [] ('(' :: cs) with
  | none =>
      refine ⟨_, _, _, _, group_open interior offset marked matching, Token.start_ofChars ..,
        by rw [Token.toList_ofChars]; rfl,
        ?_, ?_, ?_⟩
      · rw [Token.touches_iff, Token.start_ofChars, Token.stop_ofChars]
        simp
        omega
      · rw [isInside_open offset cs marked.cases, decide_eq_false_iff_not]
        simp
        omega
      · rw [Node.Surrounds, Token.start_ofChars]
        simp
        omega
  | some parts =>
      obtain ⟨content, closed⟩ := parts
      obtain ⟨inside, after, rfl, rfl, rfl⟩ := Bracket.split?_parens matching
      obtain ⟨_, _, trailing, _⟩ := exists_marker after
      have shape : ∀ trail : List Char, ['!'] ++ '(' :: inside ++ [')'] ++ trail =
          ['!'] ++ '(' :: inside ++ ')' :: trail := by simp
      have built := group_of_split interior offset marked matching
      rw [shape] at built
      refine ⟨_, _, _, _, built, Token.start_ofChars .., by rw [Token.toList_ofChars]; rfl, ?_, ?_, ?_⟩
      · rw [Token.touches_iff, Token.start_ofChars, Token.stop_ofChars]
        simp
        omega
      · rw [isInside_closed offset inside marked.cases trailing.cases, Bool.and_eq_false_iff,
          decide_eq_false_iff_not]
        simp
        omega
      · rw [Node.Surrounds, closer_eq offset (['!'] ++ '(' :: inside) trailing.cases,
          Token.start_ofChars, Token.start_ofChars]
        simp
        omega

/-- What is typed between a marker and its parenthesis takes the marker. -/
theorem lands_marked {cs : List Char} {typed : Scope → Option Hover} {same : Prop}
    (place : position = offset + 1)
    (known : Known text all windows stop (group interior offset (['!'] ++ '(' :: cs)))
    (name : ∀ scope, typed scope = some (.ofLeaf (scope.mark true) (.typed position))) :
    (group interior offset (['!'] ++ '(' :: cs)).range.touches position = true ∧
      Lands position scope (locate position scope (group interior offset (['!'] ++ '(' :: cs))) typed
        ((group interior offset (['!'] ++ '(' :: cs)).Around position)
        (same ∧ Steady text position all windows) := by
  obtain ⟨range, child, closed, important, built, start, head, touched, outside, surrounds⟩ :=
    exists_marked_group interior cs place
  have member := known.nodes (Node.mem_nodes_self _)
  rw [built] at member ⊢
  refine ⟨touched, Lands.marked ?_ name ⟨_, Node.mem_nodes_self _, surrounds⟩ ?_⟩
  · rw [locate, outside, Bool.not_false, Bool.or_true]
    rfl
  · rintro ⟨_, steady⟩
    apply steady.marker _ _ _ _ member head
    rw [start, place]

end

end ClassExpr.Tree
