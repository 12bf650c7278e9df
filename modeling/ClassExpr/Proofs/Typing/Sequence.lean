import ClassExpr.Proofs.Typing.Item

set_option autoImplicit false

/-! Typing into a sequence. The loop over a window runs as before up to the item that the cursor is
in, or up to the cursor, where the class name that is typed is the next item. -/

namespace ClassExpr

open Text Completion Hover Printing

/-! ### Comments in front of a cursor -/

namespace Comment

theorem Spans.ahead {taken rest other : List Char} {d : Char} (spans : Spans taken (d :: rest)) :
    Spans taken (d :: other) := by
  generalize whole : d :: rest = cs at spans
  cases spans with
  | line oneLine maximal =>
      subst whole
      exact Spans.line oneLine maximal
  | block first => exact Spans.block first
  | openBlock absent => cases whole

theorem Spans.closed {taken rest : List Char} (spans : Spans taken rest)
    (closed : ClosedBlock taken) (other : List Char) : Spans taken other := by
  obtain ⟨body, rfl⟩ := closed
  exact Spans.block spans.first_closer

end Comment

namespace Tree

variable {text : String} {position bound : Nat} {interior : Interior} {all : List Node}
  {windows : List Window} {window : Window} {offset : Nat} {left right tail : List Char}
  {scope : Scope}

inductive Reads (interior : Interior) : Nat → List Char → List Node → Prop
  | done {offset : Nat} : Reads interior offset [] []
  | blank {offset : Nat} {c : Char} {cs : List Char} {nodes : List Node} (white : isBlank c = true)
      (later : Reads interior (offset + c.utf8Size) cs nodes) : Reads interior offset (c :: cs) nodes
  | comment {offset : Nat} {taken rest : List Char} {nodes : List Node}
      (spans : Comment.Spans taken rest)
      (later : Reads interior (offset + byteLength taken) rest nodes) :
      Reads interior offset (taken ++ rest) nodes
  | node {offset : Nat} {c : Char} {taken rest : List Char} {node : Node} {nodes : List Node}
      (solid : isBlank c = false) (begins : Begins interior offset (c :: taken ++ rest) node)
      (nodeAt : NodeAt reading interior offset (c :: taken) rest node)
      (later : Reads interior (offset + byteLength (c :: taken)) rest nodes) :
      Reads interior offset (c :: taken ++ rest) (node :: nodes)

private theorem nodeAt_of_begins {cs : List Char} {node : Node} (framed : Framed interior)
    (begins : Begins interior offset cs node) :
    ∃ taken rest, cs = taken ++ rest ∧ NodeAt reading interior offset taken rest node := by
  obtain ⟨lexeme, after, scanned, begun⟩ := begins
  obtain ⟨front, whole, scans⟩ := Lexeme.scans_of_scan? scanned
  rw [whole] at begun ⊢
  exact nodeAt_of_scans framed scans begun

theorem exists_reads (framed : Framed interior) (offset : Nat) (cs : List Char) :
    ∃ nodes, Reads interior offset cs nodes := by
  -- on the length, since a turn takes as much of the window as its node does
  induction counted : cs.length using Nat.strongRecOn generalizing offset cs with
  | ind size ih =>
      cases cs with
      | nil => exact ⟨[], Reads.done⟩
      | cons c cs =>
          cases white : isBlank c with
          | true =>
              obtain ⟨nodes, later⟩ := ih cs.length (by rw [← counted]; simp) (offset + c.utf8Size) cs rfl
              exact ⟨nodes, Reads.blank white later⟩
          | false =>
              have found : (Lexeme.scan? [':'] offset (c :: cs)).isSome = true :=
                Lexeme.scan?_isSome white
              obtain ⟨⟨lexeme, after⟩, scanned⟩ := Option.isSome_iff_exists.1 found
              obtain ⟨taken, rest, whole, takes, _⟩ := @takes_of_scan? reading _ framed _ _ _ _ scanned
              have shorter : rest.length < size := by
                have positive := List.length_pos_iff.2 takes.ne_nil
                rw [← counted, whole, List.length_append]
                omega
              obtain ⟨nodes, later⟩ := ih rest.length shorter (offset + byteLength taken) rest rfl
              cases begun : node? reading interior offset (c :: cs) after lexeme with
              | none =>
                  rw [begun] at takes
                  exact ⟨nodes, whole ▸ Reads.comment takes later⟩
              | some node =>
                  rw [begun] at takes
                  have begins : Begins interior offset (c :: cs) node := ⟨_, _, scanned, begun⟩
                  obtain ⟨d, taken, rfl⟩ := List.exists_cons_of_ne_nil takes.ne_nil
                  rw [whole] at begins ⊢
                  rw [List.cons_append, List.cons.injEq] at whole
                  obtain ⟨rfl, rfl⟩ := whole
                  exact ⟨node :: nodes, Reads.node white begins takes later⟩

theorem Reads.items_eq {cs : List Char} {nodes : List Node} (framed : Framed interior)
    (reads : Reads interior offset cs nodes) (read : List Node) :
    items reading interior offset 0 cs read = read.reverse ++ nodes := by
  induction reads generalizing read with
  | done => simp [items]
  | blank white _ ih => rw [items_blank white, ih]
  | comment spans _ ih =>
      rw [items_comment framed spans, if_neg (by simp [Reading.endsAt, reading]), ih]
  | @node offset c taken rest node nodes solid begins nodeAt _ ih =>
      obtain ⟨lexeme, after, scanned, begun⟩ := begins
      rw [List.cons_append] at scanned begun
      obtain ⟨other, later, whole, takes, _, turn⟩ :=
        @items_turn reading _ framed offset c (taken ++ rest) after lexeme read solid scanned
      rw [begun] at takes turn
      have same : c :: taken = other :=
        Token.ofChars_inj (nodeAt.range_eq.symm.trans (NodeAt.range_eq takes))
      rw [← List.cons_append, ← same, List.append_cancel_left_eq] at whole
      have endless : reading.endsAt (offset + byteLength other) = false := rfl
      rw [List.cons_append, turn, endless, if_neg Bool.false_ne_true, ← same, ← whole, ih]
      simp

private theorem reads_of_begins {c : Char} {taken rest : List Char} {node : Node}
    {nodes : List Node}
    (framed : Framed interior) (solid : isBlank c = false)
    (begins : Begins interior offset (c :: taken ++ rest) node)
    (range : node.range = .ofChars offset (c :: taken))
    (later : Reads interior (offset + byteLength (c :: taken)) rest nodes) :
    Reads interior offset (c :: taken ++ rest) (node :: nodes) := by
  obtain ⟨other, after, whole, nodeAt⟩ := nodeAt_of_begins framed begins
  obtain rfl : other = c :: taken := Token.ofChars_inj (nodeAt.range_eq.symm.trans range)
  rw [List.append_cancel_left_eq] at whole
  subst whole
  exact Reads.node solid begins nodeAt later

theorem exists_reads_of_begins {c : Char} {cs : List Char} {node : Node} (framed : Framed interior)
    (solid : isBlank c = false) (begins : Begins interior offset (c :: cs) node) :
    ∃ nodes, Reads interior offset (c :: cs) (node :: nodes) := by
  obtain ⟨taken, rest, whole, nodeAt⟩ := nodeAt_of_begins framed begins
  obtain ⟨d, taken, rfl⟩ := List.exists_cons_of_ne_nil nodeAt.ne_nil
  obtain ⟨nodes, later⟩ := exists_reads framed (offset + byteLength (d :: taken)) rest
  rw [whole] at begins ⊢
  rw [List.cons_append, List.cons.injEq] at whole
  exact ⟨nodes, Reads.node (whole.1 ▸ solid) begins nodeAt later⟩

theorem Reads.start_le {cs : List Char} {nodes : List Node} (reads : Reads interior offset cs nodes) :
    ∀ node ∈ nodes, offset ≤ node.range.start := by
  induction reads with
  | done => simp
  | blank _ _ ih => exact fun node member => Nat.le_trans (Nat.le_add_right _ _) (ih node member)
  | comment _ _ ih => exact fun node member => Nat.le_trans (Nat.le_add_right _ _) (ih node member)
  | node _ _ nodeAt _ ih =>
      intro other member
      rcases List.mem_cons.1 member with rfl | later
      · exact Nat.le_of_eq (by rw [nodeAt.range_eq, Token.start_ofChars])
      · exact Nat.le_trans (Nat.le_add_right _ _) (ih other later)

theorem exists_reads_name (framed : Framed interior) (position : Nat) (isTail : IsTail tail) :
    ∃ nodes, Reads interior position ('x' :: tail) (.leaf (.typed position) :: nodes) := by
  apply exists_reads_of_begins framed (by decide)
  rcases isTail with rfl | ⟨later, rfl⟩
  · exact ⟨_, _, rfl, rfl⟩
  · exact ⟨_, _, rfl, rfl⟩

theorem resolveFirst_name (nodes : List Node) (scope : Scope) :
    resolveFirst position scope (.leaf (.typed position) :: nodes) =
      some (.ofLeaf scope (.typed position)) := by
  have contains : (Token.ofChars position ['x']).contains position = true := by
    rw [Token.contains_iff, Token.start_ofChars, Token.stop_ofChars]
    exact ⟨Nat.le_refl _, Nat.lt_add_of_pos_right (by decide)⟩
  have range : (Node.leaf (.typed position)).range = .ofChars position ['x'] := rfl
  rw [resolveFirst_cons, range, contains, if_pos rfl, resolve_leaf]
  exact if_pos contains

/-- What is read of a window once a class name is typed in it, and what it has at the cursor. -/
def Continues (interior : Interior) (position offset : Nat) (left tail : List Char) (scope : Scope)
    (nodes : List Node) (steady : Prop) : Prop :=
  ∃ typed, Reads interior offset (left ++ 'x' :: tail) typed ∧
    Lands position scope (locateFirst position scope nodes)
      (fun scope => resolveFirst position scope typed) (∃ node ∈ nodes, node.Around position) steady

private theorem continues_here {nodes : List Node} {steady : Prop} (framed : Framed interior)
    (isTail : IsTail tail) (behind : ∀ node ∈ nodes, position ≤ node.range.start) :
    Continues interior position position [] tail scope nodes steady := by
  obtain ⟨later, reads⟩ := exists_reads_name framed position isTail
  refine ⟨_, reads, Lands.fresh ?_ (resolveFirst_name later)⟩
  apply locateFirst_eq_ofScope
  intro node member
  have start := behind node member
  rw [Bool.eq_false_iff, Ne, Token.touches_iff]
  omega

private theorem locateFirst_past {node : Node} (nodes : List Node)
    (past : node.range.stop < position) :
    locateFirst position scope (node :: nodes) = locateFirst position scope nodes := by
  have outside : node.range.touches position = false := by
    rw [Bool.eq_false_iff, Ne, Token.touches_iff]
    omega
  rw [locateFirst_cons, outside, if_neg Bool.false_ne_true]

private theorem untouched_first {node : Node} {nodes : List Node} (proper : node.AllProper)
    (untouched : (locateFirst position scope (node :: nodes)).target = none) :
    (locate position scope node).target = none := by
  rw [locateFirst_cons] at untouched
  split at untouched
  · exact untouched
  next outside =>
    rw [locate_eq_ofScope proper (by simpa using outside)]
    rfl

private theorem resolveFirst_past {node : Node} (nodes : List Node)
    (past : node.range.stop ≤ position) :
    resolveFirst position scope (node :: nodes) = resolveFirst position scope nodes := by
  have outside : node.range.contains position = false := by
    rw [Token.not_contains_iff]
    exact fun _ => past
  rw [resolveFirst_cons, outside, if_neg Bool.false_ne_true]

/-- A cursor in a window that is read up to an offset in front of it, where it touches nothing. -/
structure Scene (text : String) (position bound : Nat) (all : List Node) (windows : List Window)
    (window : Window) (offset : Nat) (left right tail : List Char) (scope : Scope)
    (nodes : List Node) : Prop where
  site : Site text position offset left right tail
  shallow : weight [':'] left ≤ bound
  inWindow : window ∈ windows
  known : ∀ node ∈ nodes, Known text all windows window.stop node
  isItem : nodes ⊆ window.items
  ends : window.stop = offset + byteLength (left ++ right)
  visits : window.Visits text offset
  untouched : (locateFirst position scope nodes).target = none

namespace Scene

variable {front taken rest : List Char} {read nodes : List Node}

theorem behind (scene : Scene text position bound all windows window offset (front ++ left) right tail
      scope (read ++ nodes)) (visits : window.Visits text (offset + byteLength front))
    (untouched : (locateFirst position scope nodes).target = none) :
    Scene text position bound all windows window (offset + byteLength front) left right tail scope
      nodes := by
  obtain ⟨site, shallow, inWindow, known, isItem, ends, _, _⟩ := scene
  refine ⟨site.behind, Nat.le_trans (weight_append_le [':'] front left) shallow, inWindow, ?_, ?_, ?_,
    visits, untouched⟩
  · exact fun node member => known node (List.mem_append_right read member)
  · exact fun node member => isItem (List.mem_append_right read member)
  · rw [ends, List.append_assoc, byteLength_append, Nat.add_assoc]

theorem delimits (scene : Scene text position bound all windows window offset left right tail scope
      nodes) (whole : taken ++ rest = left ++ right) (spans : Comment.Spans taken rest) :
    window.Delimits text offset taken := by
  refine ⟨rest, ?_, ?_, spans⟩
  · rw [whole]
    exact scene.site.occurs
  · rw [whole, scene.ends]

/-- A comment that reading passes over ends in front of the cursor, and goes on as it does once a
class name is typed. -/
theorem comment (isOpen : Open text position all windows)
    (scene : Scene text position bound all windows window offset left right tail scope nodes)
    (started : left ≠ []) (whole : taken ++ rest = left ++ right) (spans : Comment.Spans taken rest) :
    ∃ more, left = taken ++ more ∧ rest = more ++ right ∧
      Comment.Spans taken (more ++ 'x' :: tail) := by
  have outside := isOpen.comment window scene.inWindow offset taken scene.visits
    (scene.delimits whole spans)
  have positive := byteLength_pos started
  have place := scene.site.place
  rw [Within, place] at outside
  have reached : byteLength taken ≤ byteLength left := by
    apply Nat.le_of_not_lt
    intro longer
    exact outside ⟨by omega, by omega, fun _ => by omega⟩
  obtain ⟨more, rfl, rfl⟩ := append_of_longer whole reached
  refine ⟨more, rfl, rfl, ?_⟩
  cases more with
  | nil =>
      apply spans.closed
      apply Classical.byContradiction
      intro lasting
      exact outside ⟨by omega, by simp, fun closed => absurd closed lasting⟩
  | cons d more => exact spans.ahead

end Scene

/-- Right behind a slash that starts an item a cursor touches the item. -/
theorem slash_touched {taken rest : List Char} {node : Node} (framed : Framed interior)
    (proper : ∀ offset cs, (interior offset cs).AllProper)
    (nodeAt : NodeAt reading interior offset taken rest node) (whole : '/' :: right = taken ++ rest)
    (place : position = offset + byteLength ['/']) :
    (locate position scope node).target ≠ none := by
  intro untouched
  have allProper := nodeAt.allProper framed proper
  have slashSize : Char.utf8Size '/' = 1 := rfl
  cases nodeAt with
  | leaf leafAt =>
      obtain ⟨d, more, short, _⟩ := @leaf_passed _ _ ['/'] right _ _ _ _ leafAt.range_eq whole (by simp)
        place untouched
      have nonempty := leafAt.ne_nil
      cases taken with
      | nil => exact nonempty rfl
      | cons c taken => simp at short
  | group groupAt =>
      cases groupAt with
      | opened marked _ =>
          rcases marked.cases with rfl | rfl
          · simp at whole
          · simp at whole
      | closed marked _ _ =>
          rcases marked.cases with rfl | rfl
          · simp at whole
          · simp at whole
  | @span front body _ variant _ spelled spanAt =>
      have long : 1 < byteLength front := by
        cases spelled with
        | @named name nonempty legal =>
            obtain ⟨c, name, rfl⟩ := List.exists_cons_of_ne_nil nonempty
            simp at whole
            have named := legal c (by simp)
            rw [← whole.1] at named
            cases named
        | @bracket stem value =>
            cases stem with
            | nil => simp at whole
            | cons c stem =>
                have bracketSize : Char.utf8Size '[' = 1 := rfl
                have positive := c.utf8Size_pos
                simp
                omega
      have starts : variant.range.start < position := by
        rw [spelled.range_eq, Token.start_ofChars, place]
        exact Nat.lt_add_of_pos_right (by decide)
      have inside : position < variant.range.stop := by
        rw [spelled.stop_eq, place]
        simp
        omega
      have found : ∃ range child, node = .variantSpan range variant child := by
        cases spanAt with
        | empty _ => exact ⟨_, _, rfl⟩
        | group _ _ => exact ⟨_, _, rfl⟩
        | item _ _ _ _ _ _ => exact ⟨_, _, rfl⟩
      obtain ⟨range, child, rfl⟩ := found
      rw [locate_front allProper starts inside] at untouched
      cases untouched
  | openVariant _ => simp at whole

private theorem Scene.not_behind_slash {nodes : List Node} (framed : Framed interior)
    (proper : ∀ offset cs, (interior offset cs).AllProper) (isOpen : Open text position all windows)
    (reads : Reads interior offset ('/' :: right) nodes)
    (scene : Scene text position bound all windows window offset ['/'] right tail scope nodes) :
    False := by
  generalize whole : '/' :: right = cs at reads
  cases reads with
  | done => cases whole
  | blank white _ =>
      cases whole
      exact absurd white (by decide)
  | comment spans _ =>
      obtain ⟨more, short, _⟩ := scene.comment isOpen (List.cons_ne_nil _ _) whole.symm spans
      cases spans <;> simp at short
  | @node _ c taken rest node nodes _ _ nodeAt _ =>
      have untouched := scene.untouched
      have touched := @slash_touched _ _ _ right scope _ _ _ framed proper nodeAt whole scene.site.place
      exact touched (untouched_first (nodeAt.allProper framed proper) untouched)

private theorem Scene.visits_node {node : Node} {nodes : List Node} {taken : List Char}
    (scene : Scene text position bound all windows window offset left right tail scope (node :: nodes))
    (range : node.range = .ofChars offset taken) :
    window.Visits text (offset + byteLength taken) := by
  have visits : window.Visits text node.range.start := by
    rw [range, Token.start_ofChars]
    exact scene.visits
  have behind := Window.Visits.item (scene.isItem List.mem_cons_self) visits
  rwa [range, Token.stop_ofChars] at behind

theorem Scene.faces {node : Node} {nodes : List Node} {taken rest : List Char}
    (framed : Framed interior) (proper : ∀ offset cs, (interior offset cs).AllProper)
    (isOpen : Open text position all windows) (nodeAt : NodeAt reading interior offset taken rest node)
    (later : Reads interior (offset + byteLength taken) rest nodes)
    (scene : Scene text position bound all windows window offset left right tail scope (node :: nodes))
    (started : left ≠ []) (whole : taken ++ rest = left ++ right) :
    Faces text position all windows window offset left right scope node := by
  have isItem := scene.isItem List.mem_cons_self
  refine ⟨started, scene.known node List.mem_cons_self, scene.inWindow, isItem, scene.ends, ?_,
    untouched_first (nodeAt.allProper framed proper) scene.untouched⟩
  rintro before rfl range
  obtain rfl : taken = before := Token.ofChars_inj (nodeAt.range_eq.symm.trans range)
  rw [List.append_assoc, List.append_cancel_left_eq] at whole
  subst whole
  have behind := scene.visits_node range
  have untouched := scene.untouched
  rw [locateFirst_past nodes (by
    rw [range, Token.stop_ofChars, scene.site.place, byteLength_append]
    exact Nat.add_lt_add_left (Nat.lt_add_of_pos_right (by decide)) offset)] at untouched
  have next := @Scene.behind _ _ _ _ _ _ _ _ _ _ _ _ [node] nodes scene behind untouched
  exact next.not_behind_slash framed proper isOpen later

theorem Continues.past {node typed : Node} {nodes : List Node} {steady : Prop} {c : Char}
    {taken : List Char} (framed : Framed interior) (solid : isBlank c = false)
    (begins : Begins interior offset (c :: taken ++ left ++ 'x' :: tail) typed)
    (here : node.range = .ofChars offset (c :: taken))
    (there : typed.range = .ofChars offset (c :: taken))
    (past : offset + byteLength (c :: taken) < position)
    (continues : Continues interior position (offset + byteLength (c :: taken)) left tail scope nodes
      steady) :
    Continues interior position offset (c :: taken ++ left) tail scope (node :: nodes) steady := by
  obtain ⟨others, reads, lands⟩ := continues
  rw [List.append_assoc] at begins
  refine ⟨typed :: others, ?_, ?_⟩
  · rw [List.append_assoc]
    exact reads_of_begins framed solid begins there reads
  · rw [locateFirst_past nodes (by rw [here, Token.stop_ofChars]; exact past)]
    have skip : ∀ scope, resolveFirst position scope (typed :: others) =
        resolveFirst position scope others :=
      fun scope => resolveFirst_past others (by
        rw [there, Token.stop_ofChars]
        exact Nat.le_of_lt past)
    simp only [skip]
    apply lands.imp
    · rintro ⟨inner, member, around⟩
      exact ⟨inner, List.mem_cons_of_mem node member, around⟩
    · exact fun steady _ => steady

private theorem continues_inside {node typed : Node} {nodes : List Node} {steady : Prop} {c : Char}
    (framed : Framed interior) (solid : isBlank c = false)
    (begins : Begins interior offset (c :: left ++ 'x' :: tail) typed)
    (touched : node.range.touches position = true) (contains : typed.range.contains position = true)
    (lands : Lands position scope (locate position scope node)
      (fun scope => resolve position scope typed) (node.Around position) steady) :
    Continues interior position offset (c :: left) tail scope (node :: nodes) steady := by
  obtain ⟨others, reads⟩ := exists_reads_of_begins framed solid begins
  refine ⟨typed :: others, reads, ?_⟩
  rw [locateFirst_cons, if_pos touched]
  have found : ∀ scope, resolveFirst position scope (typed :: others) =
      resolve position scope typed := by
    intro scope
    rw [resolveFirst_cons, if_pos contains]
  simp only [found]
  apply lands.imp
  · exact fun around => ⟨node, List.mem_cons_self, around⟩
  · exact fun steady _ => steady

private theorem continues_beside {node typed : Node} {nodes : List Node} {steady : Prop} {c : Char}
    (framed : Framed interior) (isTail : IsTail tail) (solid : isBlank c = false)
    (begins : Begins interior offset (c :: left ++ 'x' :: tail) typed)
    (there : typed.range = .ofChars offset (c :: left))
    (place : position = offset + byteLength (c :: left))
    (found : locate position scope node = .ofScope scope)
    (behind : ∀ other ∈ nodes, position ≤ other.range.start) :
    Continues interior position offset (c :: left) tail scope (node :: nodes) steady := by
  obtain ⟨others, reads⟩ := exists_reads_name framed position isTail
  rw [place] at reads
  refine ⟨_, reads_of_begins framed solid begins there reads, ?_⟩
  rw [← place]
  have none : locateFirst position scope (node :: nodes) = .ofScope scope := by
    rw [locateFirst_cons, found]
    split
    · rfl
    · apply locateFirst_eq_ofScope
      intro other member
      have start := behind other member
      rw [Bool.eq_false_iff, Ne, Token.touches_iff]
      omega
  apply Lands.fresh none
  intro scope
  rw [resolveFirst_past _ (Nat.le_of_eq (by rw [there, Token.stop_ofChars, place]))]
  exact resolveFirst_name others scope

/-- The items of a window with a cursor in it, once a class name is typed there. -/
theorem continues {nodes : List Node} (tracks : Tracks text position bound interior)
    (framed : Framed interior) (proper : ∀ offset cs, (interior offset cs).AllProper)
    (isOpen : Open text position all windows) (reads : Reads interior offset (left ++ right) nodes)
    (scene : Scene text position bound all windows window offset left right tail scope nodes) :
    Continues interior position offset left tail scope nodes
      (tail = ' ' :: right ∧ Steady text position all windows) := by
  -- on what is in front of the cursor, of which a turn takes as much as its item does
  induction counted : left.length using Nat.strongRecOn generalizing offset left nodes with
  | ind size ih =>
      by_cases reached : left = []
      · subst reached
        have place : position = offset := scene.site.place
        subst place
        exact continues_here framed scene.site.isTail reads.start_le
      · generalize whole : left ++ right = cs at reads
        cases reads with
        | done => exact absurd (List.append_eq_nil_iff.1 whole).1 reached
        | @blank _ c rest _ white later =>
            obtain ⟨d, more, rfl⟩ := List.exists_cons_of_ne_nil reached
            rw [List.cons_append, List.cons.injEq] at whole
            obtain ⟨rfl, rfl⟩ := whole
            have occurs : Occurs text.toList offset [d] := scene.site.occurs.left.left
            have next := @Scene.behind _ _ _ _ _ _ _ _ _ _ _ [d] [] nodes scene
              (by simpa using Window.Visits.blank scene.visits occurs white) scene.untouched
            rw [show byteLength [d] = d.utf8Size by simp] at next
            obtain ⟨typed, again, lands⟩ := ih more.length (by simp [← counted]) later next rfl
            exact ⟨typed, Reads.blank white again, lands⟩
        | @comment _ taken rest _ spans later =>
            have visits := Window.Visits.comment scene.visits (scene.delimits whole.symm spans)
            obtain ⟨more, rfl, rfl, again⟩ := scene.comment isOpen reached whole.symm spans
            have positive := List.length_pos_iff.2 spans.ne_nil
            have next := @Scene.behind _ _ _ _ _ _ _ _ _ _ _ taken [] nodes scene visits scene.untouched
            obtain ⟨typed, further, lands⟩ := ih more.length
              (by rw [← counted, List.length_append]; omega) later next rfl
            refine ⟨typed, ?_, lands⟩
            rw [List.append_assoc]
            exact Reads.comment again further
        | @node _ c taken rest node nodes solid begins nodeAt later =>
            have faces := scene.faces framed proper isOpen nodeAt later reached whole.symm
            obtain ⟨d, front, rfl⟩ := List.exists_cons_of_ne_nil reached
            rw [← whole] at begins
            obtain ⟨typed, typedBegins, meets⟩ := meets_node tracks framed proper isOpen scene.site
              scene.shallow begins faces
            rw [List.cons_append, List.cons_append, List.cons.injEq] at whole
            obtain ⟨rfl, whole⟩ := whole
            cases meets with
            | @behind kept more split nonempty here there =>
                obtain rfl : d :: taken = kept := Token.ofChars_inj (nodeAt.range_eq.symm.trans here)
                obtain rfl : front = taken ++ more := by simpa using split
                rw [List.append_assoc, List.append_cancel_left_eq] at whole
                subst whole
                have place := scene.site.place
                rw [split, byteLength_append] at place
                have positive := byteLength_pos nonempty
                have past : offset + byteLength (d :: taken) < position := by omega
                have next := @Scene.behind _ _ _ _ _ _ _ _ _ _ _ (d :: taken) [node] nodes scene
                  (scene.visits_node here)
                  (by
                    rw [← locateFirst_past nodes (by rw [here, Token.stop_ofChars]; exact past)]
                    exact scene.untouched)
                have continues := ih more.length
                  (by rw [← counted, split, List.length_append, List.length_cons]; omega) later next rfl
                exact continues.past framed solid typedBegins here there past
            | @beside range _ _ group past found there =>
                apply continues_beside framed scene.site.isTail solid typedBegins there scene.site.place
                  found
                intro other member
                have start := later.start_le other member
                have taken_eq := nodeAt.range_eq
                rw [group] at taken_eq
                rw [show range = Token.ofChars offset (d :: taken) from taken_eq, Token.stop_ofChars] at past
                exact Nat.le_trans past.2 start
            | inside touched contains lands =>
                exact continues_inside framed solid typedBegins touched contains lands

end Tree

end ClassExpr
