import ClassExpr.Completion
import ClassExpr.Proofs.Checked.Loop
import ClassExpr.Proofs.Node
import ClassExpr.Proofs.Text.Sweep

set_option autoImplicit false

/-! A cursor in octets and in tokens. The mode of a text at a boundary is read off its octets as off
its characters, a part of a token is cut out of the token's text, and the closer of a group is
counted back from the end of the group. -/

namespace ClassExpr

open Text

namespace Completion

def moveAt (state : Mode × Nat) (_ : List Char) (c : Char) (ahead : Option Char) :
    Move (Mode × Nat) :=
  moveMode state.1 state.2 c ahead

def Mode.IsMarked : Mode → Prop
  | .quoted mark => mark = '\'' ∨ mark = '"'
  | _ => True

private theorem isMarked_of_moveMode {mode next : Mode} {depth after : Nat} {c : Char}
    {ahead : Option Char} (marked : mode.IsMarked)
    (moved : moveMode mode depth c ahead = .advance (next, after) ∨
      moveMode mode depth c ahead = .skip (next, after)) : next.IsMarked := by
  cases mode with
  | code => grind [moveMode, Mode.IsMarked]
  | lineComment => grind [moveMode, Mode.IsMarked]
  | blockComment => grind [moveMode, Mode.IsMarked]
  | quoted mark => grind [moveMode, Mode.IsMarked]

private theorem moveMode_wide {mode : Mode} (marked : mode.IsMarked) (depth : Nat) {c : Char}
    (wide : IsWide c) (ahead : Option Char) :
    moveMode mode depth c ahead = .advance (mode, depth) := by
  have other : ∀ {d : Char}, ¬IsWide d → (c == d) = false := beq_of_wide wide
  cases mode with
  | code => simp (disch := decide) [moveMode, other]
  | lineComment => simp (disch := decide) [moveMode, other]
  | blockComment => simp (disch := decide) [moveMode, other]
  | quoted mark =>
      have notMark : (c == mark) = false := by
        rcases marked with rfl | rfl
        · exact other (by decide)
        · exact other (by decide)
      simp (disch := decide) [moveMode, other, notMark]

private theorem octetwise_moveAt : Octetwise moveAt moveAt (fun state => state.1.IsMarked) where
  narrow state before c ahead octet _ same := by
    simp only [moveAt, moveMode, same '/' (by decide), same '*' (by decide)]
  skipped state before c next d marked moved _ octet wideOctet front ahead :=
    moveMode_wide (isMarked_of_moveMode marked (Or.inr moved)) next.2 wideOctet ahead
  wide state before c ahead marked wide := by
    refine Or.inr ⟨state, moveMode_wide marked state.2 wide ahead, ?_⟩
    intro octet wideOctet front other
    have passed := moveMode_wide marked state.2 wideOctet other
    exact ⟨passed, passed⟩
  good state before c ahead next marked moved := isMarked_of_moveMode marked moved

private theorem sweep_done (mode : Mode) (depth : Nat) (before rest : List Char) :
    (sweep move ⟨mode, depth, 0⟩ before rest).state.mode = mode := by
  cases rest with
  | nil => rfl
  | cons c rest => rfl

/-- A reader that halts at the cursor is in the mode of a sweep over the text before the cursor that
sees the character after it. -/
theorem mode_sweep (mode : Mode) (depth : Nat) (before left right : List Char) :
    (sweep move ⟨mode, depth, byteLength left⟩ before (left ++ right)).state.mode =
      (sweepWithin moveAt right.head? (mode, depth) before left).state.1 := by
  generalize started : (mode, depth) = state
  fun_induction sweepWithin moveAt right.head? state before left generalizing mode depth with
  | case1 state before =>
      subst started
      exact sweep_done mode depth before right
  | case2 state before c cs halted => exact absurd halted (moveMode_ne_halt _ _ _ _)
  | case3 state before c cs next moved ih =>
      subst started
      obtain ⟨mode', depth'⟩ := next
      have positive := c.utf8Size_pos
      have here : move ⟨mode, depth, byteLength (c :: cs)⟩ before c (cs ++ right).head? =
          .advance ⟨mode', depth', byteLength cs⟩ := by
        rw [moveAt] at moved
        rw [move, if_neg (by simp; omega), List.head?_append, moved, byteLength_cons,
          Nat.add_sub_cancel_left]
      rw [List.cons_append, sweep_cons, here]
      exact ih mode' depth' rfl
  | case4 state before c next moved =>
      subst started
      obtain ⟨mode', depth'⟩ := next
      have positive := c.utf8Size_pos
      rw [moveAt, List.head?_nil, Option.none_or] at moved
      cases right with
      | nil =>
          have here : move ⟨mode, depth, byteLength [c]⟩ before c none =
              .skip ⟨mode', depth', 0⟩ := by
            rw [move, if_neg (by simp; omega), show moveMode mode depth c none = _ from moved]
            simp
          rw [List.append_nil, sweep_cons, List.head?_nil, here]
      | cons d right =>
          have here : move ⟨mode, depth, byteLength [c]⟩ before c (some d) =
              .skip ⟨mode', depth', 0⟩ := by
            rw [move, if_neg (by simp; omega), show moveMode mode depth c (some d) = _ from moved]
            simp
          rw [List.singleton_append, sweep_cons, List.head?_cons, here]
          exact sweep_done mode' depth' _ right
  | case5 state before c next d rest moved ih =>
      subst started
      obtain ⟨mode', depth'⟩ := next
      have positive := c.utf8Size_pos
      have here : move ⟨mode, depth, byteLength (c :: d :: rest)⟩ before c (some d) =
          .skip ⟨mode', depth', byteLength rest⟩ := by
        rw [moveAt] at moved
        rw [move, if_neg (by simp; omega), show moveMode mode depth c (some d) = _ from moved]
        simp only [byteLength_cons, Option.map_some, Option.getD_some]
        congr 2
        omega
      rw [List.cons_append, List.cons_append, sweep_cons, List.head?_cons, here]
      exact ih mode' depth' rfl

end Completion

namespace Checked

def modeAt? (text : String) (position : Nat) : Option Completion.Mode := do
  let all := octets text.toList
  let (state, _) ← loop? (fun state _ c ahead => some (Completion.moveAt state [] c ahead)) all
    all.length (min position all.length) (.code, 0) 0
  some state.1

/-- The part of a token between two offsets, each moved to an end of the token if it is outside of
it, and to a boundary if it is inside of a character. -/
def cut? (token : Token) (start stop : Nat) : Option Token := do
  let first ← clamp? start token.start token.stop
  let last ← clamp? stop first token.stop
  let cs := token.text.toList
  let inner ← floorBoundary? cs (← sub? first token.start)
  let outer ← floorBoundary? cs (← sub? last token.start)
  let part ← slice? cs inner (max outer inner)
  some (.ofChars (token.start + inner) part)

def ofLeaf? (position : Nat) (scope : Scope) (leaf : Leaf) : Option Completion := do
  let word ← cut? leaf.target leaf.target.start position
  some { Completion.ofLeaf position scope leaf with word := some word }

def ofVariant? (position : Nat) (scope : Scope) (variant : Variant) : Option Completion := do
  let word ← cut? variant.identifier variant.identifier.start position
  some { Completion.ofVariant position scope variant with word := some word }

def isInside? (range : Token) (closed : Bool) (position : Nat) : Option Bool :=
  let cs := range.text.toList
  let opener := range.start + (cs.head? == some '!').toNat
  if position ≤ opener then some false
  else if !closed then some true
  else do
    let closer ← sub? range.stop (if [')', '!'].isSuffixOf cs then 2 else 1)
    some (position ≤ closer)

mutual

def locate? (position : Nat) (scope : Scope) : Node → Option Completion
  | .declaration _ children => locateFirst? position scope children
  | .variantSpan range variant none =>
      if !range.touches position || position ≤ variant.range.start then
        some (Completion.ofScope scope)
      else if position < variant.range.stop then ofVariant? position scope variant
      else some (Completion.ofScope (scope.enter variant))
  | .variantSpan range variant (some child) =>
      if !range.touches position || position ≤ variant.range.start then
        some (Completion.ofScope scope)
      else if position < variant.range.stop then ofVariant? position scope variant
      else
        let inner := scope.enter variant
        if variant.range.stop < position && child.range.touches position then
          locate? position inner child
        else some (Completion.ofScope inner)
  | .group range child closed important =>
      if !range.touches position then some (Completion.ofScope scope)
      else do
        let inside ← isInside? range closed position
        if !inside then some (Completion.ofScope scope)
        else
          let inner := scope.mark important
          if child.range.touches position then locate? position inner child
          else some (Completion.ofScope inner)
  | .leaf leaf =>
      if leaf.range.touches position then ofLeaf? position scope leaf
      else some (Completion.ofScope scope)

def locateFirst? (position : Nat) (scope : Scope) : List Node → Option Completion
  | [] => some (Completion.ofScope scope)
  | child :: rest =>
      if child.range.touches position then locate? position scope child
      else locateFirst? position scope rest

end

private theorem steps_moveAt (text base : List Char) (sight : Nat) :
    Steps (fun state _ c ahead => some (Completion.moveAt state [] c ahead)) Completion.moveAt text
      base sight (fun _ _ => True) where
  step_eq _ _ _ _ _ _ _ _ := rfl
  advance _ _ _ _ _ _ _ := trivial
  skip _ _ _ _ _ _ _ _ := trivial

theorem modeAt?_eq (text : String) {position : Nat}
    (boundary : isBoundary text.toList position = true) :
    modeAt? text position = some (Completion.modeAt text.toList position) := by
  obtain ⟨left, right, whole, rfl⟩ := exists_split_of_isBoundary boundary
  have parts : octets text.toList = [] ++ [].reverse ++ octets left ++ octets right := by
    rw [whole, octets_append]
    rfl
  have inText : byteLength left ≤ (octets text.toList).length := by
    rw [whole, length_octets, byteLength_append]
    omega
  have ended := loop?_eq (steps_moveAt _ [] _) (.code, 0) [] (octets left) trivial parts
    (show _ = byteLength left by simp [length_octets]) inText (Nat.le_refl _)
  have ahead : seen (byteLength left) (octets text.toList).length (octets right) =
      (octets right).head? := by
    rw [seen]
    by_cases further : byteLength left < (octets text.toList).length
    · rw [if_pos further]
    · have nothing : (octets right).length = 0 := by
        have sizes := congrArg List.length parts
        simp only [List.length_append, length_octets, List.length_nil, List.reverse_nil]
          at sizes further ⊢
        omega
      rw [if_neg further, List.length_eq_zero_iff.1 nothing]
      rfl
  have sameAhead : SameAhead right.head? (octets right).head? := by
    have same := @SameAhead.head? right none none (fun _ _ => rfl)
    rwa [Option.or_none, Option.or_none] at same
  have same := sweepWithin_octets Completion.octetwise_moveAt sameAhead (.code, 0) [] left trivial
  rw [back_nil] at same
  rw [ahead, same, List.length_nil, Nat.add_zero] at ended
  have mode := Completion.mode_sweep .code 0 [] left right
  rw [← whole] at mode
  unfold modeAt? Completion.modeAt
  simp only [Nat.min_eq_left inText, ended, mode, Option.bind_eq_bind, Option.bind_some]

private theorem splitBytes_append_of_le {left : List Char} {budget : Nat}
    (fits : byteLength left ≤ budget)
    (right : List Char) :
    (splitBytes budget (left ++ right)).1 =
      left ++ (splitBytes (budget - byteLength left) right).1 := by
  induction left generalizing budget with
  | nil => rfl
  | cons c left ih =>
      rw [byteLength_cons] at fits
      rw [List.cons_append, splitBytes_cons, if_pos (by omega), byteLength_cons, ← Nat.sub_sub,
        List.cons_append, ← @ih (budget - c.utf8Size) (by omega)]

theorem slice?_floorBoundary (cs : List Char) {start stop : Nat} (ordered : start ≤ stop) :
    slice? cs (floorBoundary cs start)
        (max (floorBoundary cs stop) (floorBoundary cs start)) =
      some (between start stop cs) := by
  have whole := splitBytes_append start cs
  generalize leftAt : (splitBytes start cs).1 = left at whole
  generalize rightAt : (splitBytes start cs).2 = right at whole
  have fits : byteLength left ≤ stop := by
    have bound := byteLength_splitBytes_le start cs
    rw [leftAt] at bound
    omega
  have first : floorBoundary cs start = byteLength left := by rw [floorBoundary, leftAt]
  have inner := splitBytes_append (stop - byteLength left) right
  have cut : between start stop cs = (splitBytes (stop - byteLength left) right).1 := by
    simp only [between, first, rightAt]
  rw [← cut] at inner
  have last : floorBoundary cs stop = byteLength left + byteLength (between start stop cs) := by
    rw [cut, floorBoundary, ← whole, splitBytes_append_of_le fits, byteLength_append]
  have occurs : Occurs cs (byteLength left) (between start stop cs) :=
    ⟨left, _, by rw [List.append_assoc, inner, whole], rfl⟩
  rw [last, first, Nat.max_eq_left (Nat.le_add_right _ _)]
  exact occurs.slice?_eq

theorem cut?_eq (token : Token) (start stop : Nat) :
    cut? token start stop = some (token.slice start stop) := by
  have ordered : token.start ≤ token.stop := Nat.le_add_right _ _
  have lower : max token.start (min start token.stop) ≤ token.stop := by omega
  have from? : token.start ≤ max token.start (min start token.stop) := by omega
  have to? : token.start ≤ max (max token.start (min start token.stop)) (min stop token.stop) := by
    omega
  unfold cut? Token.slice
  have part := slice?_floorBoundary token.text.toList
    (show max token.start (min start token.stop) - token.start ≤
      max (max token.start (min start token.stop)) (min stop token.stop) - token.start by omega)
  simp only [clamp?_eq _ ordered, clamp?_eq _ lower, sub?_eq from?, sub?_eq to?, floorBoundary?_eq,
    part, Nat.sub_add_cancel from?, Option.bind_eq_bind, Option.bind_some]

private theorem ofLeaf?_eq (position : Nat) (scope : Scope) (leaf : Leaf) :
    ofLeaf? position scope leaf = some (Completion.ofLeaf position scope leaf) := by
  unfold ofLeaf?
  rw [cut?_eq]
  rfl

private theorem ofVariant?_eq (position : Nat) (scope : Scope) (variant : Variant) :
    ofVariant? position scope variant = some (Completion.ofVariant position scope variant) := by
  unfold ofVariant?
  rw [cut?_eq]
  rfl

private theorem isInside?_eq {range : Token} {child : Node} {closed important : Bool}
    (proper : Node.ProperGroup range child closed important) (position : Nat) :
    isInside? range closed position = some (Completion.isInside range closed position) := by
  obtain ⟨lead, inside, trail, _, _, spelled, _⟩ := proper.delimited
  unfold isInside? Completion.isInside
  simp only
  by_cases before : position ≤ range.start + (range.text.toList.head? == some '!').toNat
  · rw [if_pos before, decide_eq_false (by omega), Bool.false_and]
  · rw [if_neg before, decide_eq_true (by omega), Bool.true_and]
    cases closed with
    | false => rfl
    | true =>
        have enough : (if [')', '!'].isSuffixOf range.text.toList then 2 else 1) ≤ range.stop := by
          rw [Token.stop_eq]
          split
          next ends =>
            obtain ⟨front, same⟩ := List.isSuffixOf_iff_suffix.1 ends
            rw [← same]
            simp
            have first : Char.utf8Size ')' = 1 := rfl
            have second : Char.utf8Size '!' = 1 := rfl
            omega
          · rw [spelled]
            simp
            have opener := Char.utf8Size_pos '('
            omega
        simp only [Bool.not_true, Bool.false_eq_true, if_false, sub?_eq enough, Option.bind_eq_bind,
          Option.bind_some, Bool.false_or]

mutual

/-- In a tree whose nodes keep their shape a cursor is always located. -/
theorem locate?_eq (position : Nat) (scope : Scope) : (node : Node) → node.AllProper →
    locate? position scope node = some (Completion.locate position scope node)
  | .declaration range children, proper => by
      have deeper : ∀ child ∈ children, child.AllProper := fun child member =>
        proper.child (show child ∈ (Node.declaration range children).children from member)
      rw [locate?, Completion.locate]
      exact locateFirst?_eq position scope children deeper
  | .variantSpan range variant none, _ => by
      rw [locate?, Completion.locate, ofVariant?_eq]
      simp only [apply_ite some]
  | .variantSpan range variant (some child), proper => by
      have deeper : child.AllProper := proper.child (by simp [Node.children])
      rw [locate?, Completion.locate, ofVariant?_eq]
      simp only [apply_ite some, locate?_eq position _ child deeper]
  | .group range child closed important, proper => by
      have deeper : child.AllProper := proper.child (by simp [Node.children])
      have shape : Node.ProperGroup range child closed important :=
        (proper _ (Node.mem_nodes_self _)).1
      rw [locate?, Completion.locate, isInside?_eq shape]
      simp only [Option.bind_eq_bind, Option.bind_some, locate?_eq position _ child deeper]
      cases range.touches position with
      | false => rfl
      | true =>
          cases Completion.isInside range closed position with
          | false => rfl
          | true => simp [apply_ite some]
  | .leaf leaf, _ => by
      rw [locate?, Completion.locate, ofLeaf?_eq]
      simp only [apply_ite some]

private theorem locateFirst?_eq (position : Nat) (scope : Scope) : (nodes : List Node) →
    (∀ node ∈ nodes, node.AllProper) →
    locateFirst? position scope nodes = some (Completion.locateFirst position scope nodes)
  | [], _ => rfl
  | child :: rest, proper => by
      rw [locateFirst?, Completion.locateFirst,
        locate?_eq position scope child (proper child List.mem_cons_self),
        locateFirst?_eq position scope rest fun node member =>
          proper node (List.mem_cons_of_mem child member)]
      simp only [apply_ite some]

end

end Checked

end ClassExpr
