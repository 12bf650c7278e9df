import ClassExpr.Proofs.Tree.Reading

set_option autoImplicit false

/-! The loop over the items of a window and the windows it runs over. Each turn of the loop takes
one comment or one node and goes on right behind it; so a window is read as nodes between white
space and comments, and an interior is framed by what is read of it. -/

namespace ClassExpr.Tree

open Text

variable {reading : Reading} {interior : Interior}

/-- The items of a window that is read to its end or until the limit is passed. -/
inductive ItemsAt (reading : Reading) (interior : Interior) : Nat → List Char → List Node → Prop
  | done {offset : Nat} : ItemsAt reading interior offset [] []
  | ended {offset : Nat} {cs : List Char} (limited : reading.endsAt offset = true) :
      ItemsAt reading interior offset cs []
  | blank {offset : Nat} {c : Char} {cs : List Char} {nodes : List Node}
      (white : isBlank c = true) (later : ItemsAt reading interior (offset + c.utf8Size) cs nodes) :
      ItemsAt reading interior offset (c :: cs) nodes
  | comment {offset : Nat} {taken rest : List Char} {nodes : List Node}
      (spans : Comment.Spans taken rest)
      (later : ItemsAt reading interior (offset + byteLength taken) rest nodes) :
      ItemsAt reading interior offset (taken ++ rest) nodes
  | node {offset : Nat} {taken rest : List Char} {node : Node} {nodes : List Node}
      (nodeAt : NodeAt reading interior offset taken rest node)
      (later : ItemsAt reading interior (offset + byteLength taken) rest nodes) :
      ItemsAt reading interior offset (taken ++ rest) (node :: nodes)

def Takes (reading : Reading) (interior : Interior) (offset : Nat) (taken rest : List Char) :
    Option Node → Prop
  | none => Comment.Spans taken rest
  | some node => NodeAt reading interior offset taken rest node

theorem Takes.ne_nil {offset : Nat} {taken rest : List Char} {node : Option Node}
    (takes : Takes reading interior offset taken rest node) : taken ≠ [] := by
  cases node with
  | none => exact Comment.Spans.ne_nil takes
  | some node => exact NodeAt.ne_nil takes

def turnStop (offset : Nat) (cs rest : List Char) (lexeme : Lexeme) (node : Option Node) : Nat :=
  (node.map (·.range.stop)).getD (commentStop offset cs rest lexeme)

theorem takes_of_scan? (framed : Framed interior) {offset : Nat} {cs after : List Char}
    {lexeme : Lexeme} (scanned : Lexeme.scan? reading.separator offset cs = some (lexeme, after)) :
    ∃ taken rest, cs = taken ++ rest ∧
      Takes reading interior offset taken rest
        (node? reading interior offset cs after lexeme) ∧
      turnStop offset cs after lexeme (node? reading interior offset cs after lexeme) =
        offset + byteLength taken := by
  obtain ⟨front, whole, scans⟩ := Lexeme.scans_of_scan? scanned
  subst whole
  cases begun : node? reading interior offset (front ++ after) after lexeme with
  | some node =>
      obtain ⟨taken, rest, parts, nodeAt⟩ := nodeAt_of_scans framed scans begun
      refine ⟨taken, rest, parts, nodeAt, ?_⟩
      rw [turnStop, Option.map_some, Option.getD_some, nodeAt.range_eq, Token.stop_ofChars]
  | none =>
      cases scans with
      | lineComment spans _ =>
          exact ⟨front, after, rfl, spans, Token.stop_ofChars offset front⟩
      | blockComment =>
          cases closing : Comment.closeBlock? after with
          | some parts =>
              obtain ⟨body, rest⟩ := parts
              obtain ⟨inside, rfl, rfl, first⟩ := Comment.closeBlock?_eq_some closing
              refine ⟨['/', '*'] ++ (inside ++ Comment.closer), rest, by simp,
                Comment.Spans.block first, ?_⟩
              simp only [turnStop, Option.map_none, Option.getD_none, commentStop, closing,
                Token.stop_ofChars, byteLength_append, Nat.add_assoc]
          | none =>
              refine ⟨['/', '*'] ++ after, [], by simp,
                Comment.Spans.openBlock (Comment.closeBlock?_eq_none closing), ?_⟩
              simp only [turnStop, Option.map_none, Option.getD_none, commentStop, closing]
      | variant _ _ => cases begun
      | bracket _ _ => cases begun
      | className _ _ _ _ => cases begun
      | group _ => cases begun
      | unhandled _ => cases begun

theorem items_nil (offset pass : Nat) (read : List Node) :
    items reading interior offset pass [] read = read.reverse := rfl

/-- The loop at a character: it is passed over, or a turn begins there. -/
theorem items_cons (offset pass : Nat) (c : Char) (cs : List Char) (read : List Node) :
    items reading interior offset pass (c :: cs) read =
      if 0 < pass || isBlank c then
        items reading interior (offset + c.utf8Size) (pass - c.utf8Size) cs read
      else
        match Lexeme.scan? reading.separator offset (c :: cs) with
        | none => read.reverse
        | some (lexeme, rest) =>
            let node := node? reading interior offset (c :: cs) rest lexeme
            let stop := turnStop offset (c :: cs) rest lexeme node
            let read := node.toList ++ read
            if reading.endsAt stop then read.reverse
            else
              items reading interior (offset + c.utf8Size) (stop - (offset + c.utf8Size)) cs read :=
  rfl

private theorem items_append (offset : Nat) (front rest : List Char) (read : List Node) :
    items reading interior offset (byteLength front) (front ++ rest) read =
      items reading interior (offset + byteLength front) 0 rest read := by
  induction front generalizing offset with
  | nil => rfl
  | cons c front ih =>
      have positive := c.utf8Size_pos
      rw [List.cons_append, byteLength_cons, items_cons, if_pos (by simp; omega),
        Nat.add_sub_cancel_left, ih, Nat.add_assoc]

theorem items_blank {offset : Nat} {c : Char} {cs : List Char} {read : List Node}
    (white : isBlank c = true) :
    items reading interior offset 0 (c :: cs) read =
      items reading interior (offset + c.utf8Size) 0 cs read := by
  rw [items_cons, if_pos (by simp [white]), Nat.zero_sub]

theorem items_blanks {front rest : List Char} {offset : Nat} {read : List Node}
    (blank : ∀ c ∈ front, isBlank c = true) :
    items reading interior offset 0 (front ++ rest) read =
      items reading interior (offset + byteLength front) 0 rest read := by
  induction front generalizing offset with
  | nil => rfl
  | cons c front ih =>
      rw [List.cons_append, items_blank (blank c List.mem_cons_self),
        ih fun d member => blank d (List.mem_cons_of_mem c member), byteLength_cons, Nat.add_assoc]

theorem items_turn (framed : Framed interior) {offset : Nat} {c : Char} {cs after : List Char}
    {lexeme : Lexeme} {read : List Node} (solid : isBlank c = false)
    (scanned : Lexeme.scan? reading.separator offset (c :: cs) = some (lexeme, after)) :
    ∃ taken rest, c :: cs = taken ++ rest ∧
      Takes reading interior offset taken rest
        (node? reading interior offset (c :: cs) after lexeme) ∧
      turnStop offset (c :: cs) after lexeme
        (node? reading interior offset (c :: cs) after lexeme) = offset + byteLength taken ∧
      items reading interior offset 0 (c :: cs) read =
        let read := (node? reading interior offset (c :: cs) after lexeme).toList ++ read
        if reading.endsAt (offset + byteLength taken) then read.reverse
        else items reading interior (offset + byteLength taken) 0 rest read := by
  obtain ⟨taken, rest, whole, takes, stops⟩ := takes_of_scan? framed scanned
  refine ⟨taken, rest, whole, takes, stops, ?_⟩
  rw [items_cons, if_neg (by simp [solid]), scanned]
  simp only [stops]
  split
  · rfl
  · have nonempty := takes.ne_nil
    cases taken with
    | nil => exact absurd rfl nonempty
    | cons d taken =>
        rw [List.cons_append, List.cons.injEq] at whole
        obtain ⟨rfl, rfl⟩ := whole
        have passed : offset + byteLength (c :: taken) - (offset + c.utf8Size) =
            byteLength taken := by
          rw [byteLength_cons]
          omega
        rw [passed, items_append, byteLength_cons, Nat.add_assoc]

theorem itemsAt_items (framed : Framed interior) (offset : Nat) (cs : List Char)
    (read : List Node) :
    ∃ nodes, items reading interior offset 0 cs read = read.reverse ++ nodes ∧
      ItemsAt reading interior offset cs nodes := by
  -- on the length, since a turn takes as much of the window as its node does
  induction counted : cs.length using Nat.strongRecOn generalizing offset cs read with
  | ind size ih =>
      cases cs with
      | nil => exact ⟨[], by rw [items_nil, List.append_nil], ItemsAt.done⟩
      | cons c cs =>
          cases white : isBlank c with
          | true =>
              obtain ⟨nodes, result, itemsAt⟩ :=
                ih cs.length (by rw [← counted]; simp) (offset + c.utf8Size) cs read rfl
              exact ⟨nodes, by rw [items_blank white, result], ItemsAt.blank white itemsAt⟩
          | false =>
              have found : (Lexeme.scan? reading.separator offset (c :: cs)).isSome = true :=
                Lexeme.scan?_isSome white
              obtain ⟨⟨lexeme, after⟩, scanned⟩ := Option.isSome_iff_exists.1 found
              obtain ⟨taken, rest, whole, takes, _, turn⟩ :=
                items_turn framed white scanned
              rw [turn]
              generalize node? reading interior offset (c :: cs) after lexeme = node at *
              have shorter : rest.length < size := by
                have positive := List.length_pos_iff.2 takes.ne_nil
                rw [← counted, whole, List.length_append]
                omega
              obtain ⟨nodes, result, itemsAt⟩ := ih rest.length shorter
                (offset + byteLength taken) rest (node.toList ++ read) rfl
              rw [whole]
              by_cases limited : reading.endsAt (offset + byteLength taken) = true
              · simp only [limited, if_true]
                cases node with
                | none => exact ⟨[], by simp, ItemsAt.comment takes (ItemsAt.ended limited)⟩
                | some node =>
                    exact ⟨[node], by simp, ItemsAt.node takes (ItemsAt.ended limited)⟩
              · simp only [limited, result]
                cases node with
                | none => exact ⟨nodes, by simp, ItemsAt.comment takes itemsAt⟩
                | some node => exact ⟨node :: nodes, by simp, ItemsAt.node takes itemsAt⟩

theorem items_read (reading : Reading) (interior : Interior) (offset pass : Nat) (cs : List Char)
    (read : List Node) :
    items reading interior offset pass cs read =
      read.reverse ++ items reading interior offset pass cs [] := by
  induction cs generalizing offset pass read with
  | nil => simp [items_nil]
  | cons c cs ih =>
      rw [items_cons, items_cons]
      split
      · exact ih _ _ _
      · split
        · simp
        · dsimp only
          split
          · simp
          · rw [ih _ _ (_ ++ read), ih _ _ (_ ++ [])]
            simp

/-- Where a variant could apply to something, the first item starts at once. -/
theorem items_start (framed : Framed interior) (offset : Nat) {cs : List Char}
    (something : isEmptyBody cs = false) :
    ∃ taken rest node nodes, cs = taken ++ rest ∧
      NodeAt reading interior offset taken rest node ∧
      items reading interior offset 0 cs [] = node :: nodes := by
  cases cs with
  | nil => cases something
  | cons c cs =>
      have parts := something
      simp only [isEmptyBody, Bool.or_eq_false_iff, List.head?_cons, Option.all_some] at parts
      obtain ⟨⟨solid, noLine⟩, noBlock⟩ := parts
      have found : (Lexeme.scan? reading.separator offset (c :: cs)).isSome = true :=
        Lexeme.scan?_isSome solid
      obtain ⟨⟨lexeme, after⟩, scanned⟩ := Option.isSome_iff_exists.1 found
      obtain ⟨taken, rest, whole, takes, _, turn⟩ := items_turn framed solid scanned
      cases begun : node? reading interior offset (c :: cs) after lexeme with
      | none =>
          rw [begun] at takes
          rw [whole] at noLine noBlock
          rcases Comment.Spans.starts takes _ with line | block
          · rw [line] at noLine
            cases noLine
          · rw [block] at noBlock
            cases noBlock
      | some node =>
          rw [begun] at takes
          obtain ⟨nodes, result, _⟩ := itemsAt_items framed (offset + byteLength taken) rest [node]
          refine ⟨taken, rest, node, if reading.endsAt (offset + byteLength taken) then [] else nodes,
            whole, takes, ?_⟩
          rw [turn, begun]
          simp only [Option.toList_some, List.append_nil, List.reverse_singleton]
          rw [result]
          split <;> rfl

theorem skipBlank_eq (offset : Nat) (cs : List Char) :
    ∃ front rest, cs = front ++ rest ∧ (∀ c ∈ front, isBlank c = true) ∧
      rest.head?.all (fun c => !isBlank c) = true ∧
      skipBlank offset cs = (offset + byteLength front, rest) := by
  induction cs generalizing offset with
  | nil => exact ⟨[], [], rfl, by simp, rfl, rfl⟩
  | cons c cs ih =>
      cases white : isBlank c with
      | true =>
          obtain ⟨front, rest, whole, blank, solid, skipped⟩ := ih (offset + c.utf8Size)
          refine ⟨c :: front, rest, by rw [whole]; rfl, ?_, solid, ?_⟩
          · intro d member
            rcases List.mem_cons.1 member with rfl | later
            · exact white
            · exact blank d later
          · rw [skipBlank, if_pos white, skipped, byteLength_cons, Nat.add_assoc]
      | false =>
          refine ⟨[], c :: cs, rfl, by simp, by simp [white], ?_⟩
          rw [skipBlank, if_neg (by simp [white])]
          rfl

theorem trimEnd_eq (cs : List Char) :
    ∃ back, cs = trimEnd cs ++ back ∧ (∀ c ∈ back, isBlank c = true) := by
  refine ⟨(cs.reverse.takeWhile isBlank).reverse, ?_, ?_⟩
  · rw [trimEnd, ← List.reverse_append, List.takeWhile_append_dropWhile, List.reverse_reverse]
  · intro c member
    rw [List.mem_reverse] at member
    exact List.all_eq_true.1 List.all_takeWhile c member

/-- Below the last level a window is one unknown leaf between white space, or blank. -/
theorem remainder_cases (offset : Nat) (cs : List Char) :
    (∀ c ∈ cs, isBlank c = true) ∧ remainder offset cs = [] ∨
      ∃ front kept back, cs = front ++ kept ++ back ∧ (∀ c ∈ front, isBlank c = true) ∧
        (∀ c ∈ back, isBlank c = true) ∧ kept ≠ [] ∧
        remainder offset cs = [.leaf (.unknown (.ofChars (offset + byteLength front) kept))] := by
  obtain ⟨front, rest, whole, blank, _, skipped⟩ := skipBlank_eq offset cs
  obtain ⟨back, trimmed, white⟩ := trimEnd_eq rest
  unfold remainder
  simp only [skipped]
  cases keptAt : trimEnd rest with
  | nil =>
      left
      refine ⟨?_, rfl⟩
      rw [whole, trimmed, keptAt]
      intro c member
      rcases List.mem_append.1 member with inFront | inBack
      · exact blank c inFront
      · exact white c inBack
  | cons c kept =>
      right
      refine ⟨front, c :: kept, back, ?_, blank, white, by simp, rfl⟩
      rw [whole, trimmed, keptAt, List.append_assoc]

theorem ItemsAt.exists_between {offset : Nat} {cs : List Char} {nodes : List Node}
    (itemsAt : ItemsAt reading interior offset cs nodes) :
    ∀ node ∈ nodes, ∃ before taken rest, cs = before ++ (taken ++ rest) ∧
      NodeAt reading interior (offset + byteLength before) taken rest node := by
  induction itemsAt with
  | done => simp
  | ended _ => simp
  | @blank offset c cs nodes _ _ ih =>
      intro node member
      obtain ⟨before, taken, rest, rfl, nodeAt⟩ := ih node member
      refine ⟨c :: before, taken, rest, rfl, ?_⟩
      rw [byteLength_cons, ← Nat.add_assoc]
      exact nodeAt
  | @comment offset front cs nodes _ _ ih =>
      intro node member
      obtain ⟨before, taken, rest, rfl, nodeAt⟩ := ih node member
      refine ⟨front ++ before, taken, rest, by simp, ?_⟩
      rw [byteLength_append, ← Nat.add_assoc]
      exact nodeAt
  | @node offset front cs first nodes here _ ih =>
      intro node member
      rcases List.mem_cons.1 member with rfl | later
      · exact ⟨[], front, cs, rfl, here⟩
      · obtain ⟨before, taken, rest, rfl, nodeAt⟩ := ih node later
        refine ⟨front ++ before, taken, rest, by simp, ?_⟩
        rw [byteLength_append, ← Nat.add_assoc]
        exact nodeAt

theorem ItemsAt.exists_single {offset : Nat} {cs : List Char} {node : Node}
    (itemsAt : ItemsAt reading interior offset cs [node]) :
    ∃ lead taken rest, cs = lead ++ taken ++ rest ∧
      NodeAt reading interior (offset + byteLength lead) taken rest node := by
  generalize single : [node] = nodes at itemsAt
  induction itemsAt with
  | done => cases single
  | ended _ => cases single
  | @blank offset c cs nodes _ _ ih =>
      obtain ⟨lead, taken, rest, whole, nodeAt⟩ := ih single
      refine ⟨c :: lead, taken, rest, by rw [whole]; rfl, ?_⟩
      rw [byteLength_cons, ← Nat.add_assoc]
      exact nodeAt
  | @comment offset front after nodes _ _ ih =>
      obtain ⟨lead, taken, rest, whole, nodeAt⟩ := ih single
      refine ⟨front ++ lead, taken, rest, by rw [whole]; simp, ?_⟩
      rw [byteLength_append, ← Nat.add_assoc]
      exact nodeAt
  | @node offset taken rest other nodes nodeAt _ _ =>
      cases single
      exact ⟨[], taken, rest, rfl, nodeAt⟩

theorem collect_of_length_ne {offset : Nat} {cs : List Char} {nodes : List Node}
    (several : nodes.length ≠ 1) :
    collect offset cs nodes = .declaration (.ofChars offset cs) nodes := by
  match nodes, several with
  | [], _ => rfl
  | [_], several => exact absurd rfl several
  | _ :: _ :: _, _ => rfl

theorem collect_cases (offset : Nat) (cs : List Char) (nodes : List Node) :
    (∃ node, nodes = [node]) ∨ collect offset cs nodes = .declaration (.ofChars offset cs) nodes := by
  by_cases single : nodes.length = 1
  · exact Or.inl (List.length_eq_one_iff.1 single)
  · exact Or.inr (collect_of_length_ne single)

theorem isEmptyBody_of_blank {c : Char} (cs : List Char) (white : isBlank c = true) :
    isEmptyBody (c :: cs) = true := by
  rw [isEmptyBody, List.head?_cons, Option.all_some, white]
  rfl

theorem isEmptyBody_of_spans {taken rest : List Char} (spans : Comment.Spans taken rest) :
    isEmptyBody (taken ++ rest) = true := by
  rw [isEmptyBody, Bool.or_assoc, Bool.or_eq_true, Bool.or_eq_true]
  exact Or.inr (spans.starts _)

theorem solid_of_spans {taken rest cs : List Char} {c : Char} (spans : Comment.Spans taken rest)
    (whole : c :: cs = taken ++ rest) : isBlank c = false := by
  have first := spans.head?
  obtain ⟨d, taken, rfl⟩ := List.exists_cons_of_ne_nil spans.ne_nil
  rw [List.cons_append, List.cons.injEq] at whole
  obtain rfl : d = '/' := by simpa using first
  rw [whole.1]
  rfl

private theorem framed_remainder :
    Framed fun offset cs => collect offset cs (remainder offset cs) := by
  intro offset cs
  dsimp only
  rcases remainder_cases offset cs with ⟨blank, read⟩ | ⟨front, kept, back, whole, blank, _,
    nonempty, read⟩
  · rw [read]
    refine ⟨[], cs, [], by simp, rfl, ?_⟩
    intro something
    cases cs with
    | nil => cases something
    | cons c cs =>
        rw [isEmptyBody_of_blank cs (blank c List.mem_cons_self)] at something
        cases something
  · rw [read]
    refine ⟨front, kept, back, whole, rfl, ?_⟩
    intro something
    refine ⟨?_, nonempty, rfl⟩
    cases front with
    | nil => rfl
    | cons c front =>
        rw [whole, List.cons_append, List.cons_append,
          isEmptyBody_of_blank _ (blank c List.mem_cons_self)] at something
        cases something

/-- A window is framed by its items, whatever frames the interiors. -/
theorem framed_items (framed : Framed interior) :
    Framed fun offset cs => collect offset cs (items reading interior offset 0 cs []) := by
  intro offset cs
  dsimp only
  obtain ⟨nodes, read, itemsAt⟩ := @itemsAt_items reading _ framed offset cs []
  rw [read, List.reverse_nil, List.nil_append]
  have starts : isEmptyBody cs = false → ∃ taken rest node nodes', cs = taken ++ rest ∧
      NodeAt reading interior offset taken rest node ∧ nodes = node :: nodes' := by
    intro something
    obtain ⟨taken, rest, node, nodes', whole, nodeAt, start⟩ :=
      @items_start reading _ framed offset _ something
    rw [read] at start
    exact ⟨taken, rest, node, nodes', whole, nodeAt, start⟩
  rcases collect_cases offset cs nodes with ⟨node, rfl⟩ | several
  · cases something : isEmptyBody cs with
    | false =>
        obtain ⟨taken, rest, first, nodes', whole, nodeAt, start⟩ := starts something
        cases start
        refine ⟨[], taken, rest, whole, nodeAt.range_eq, fun _ => ⟨rfl, nodeAt.ne_nil, ?_⟩⟩
        have item := nodeAt.kind_ne
        cases node with
        | declaration range children => exact absurd rfl item
        | variantSpan => rfl
        | group => rfl
        | leaf => rfl
    | true =>
        obtain ⟨lead, taken, rest, whole, nodeAt⟩ := itemsAt.exists_single
        exact ⟨lead, taken, rest, whole, nodeAt.range_eq, fun absurd => by cases absurd⟩
  · rw [several]
    refine ⟨[], cs, [], by simp, rfl, ?_⟩
    intro something
    obtain ⟨taken, rest, first, nodes', whole, nodeAt, start⟩ := starts something
    refine ⟨rfl, ?_, by rw [start]; rfl⟩
    intro empty
    rw [empty] at something
    cases something

theorem framed_sequence (reading : Reading) (levels : Nat) : Framed (sequence reading levels) := by
  induction levels with
  | zero => exact framed_remainder
  | succ levels ih => exact framed_items ih

theorem sequence_of_node? {levels offset : Nat} {c : Char} {cs after : List Char} {lexeme : Lexeme}
    {node : Node} (endless : reading.limit = none) (solid : isBlank c = false)
    (scanned : Lexeme.scan? reading.separator offset (c :: cs) = some (lexeme, after))
    (begun : node? reading (sequence reading levels) offset (c :: cs) after lexeme = some node)
    (covers : node.range = .ofChars offset (c :: cs)) :
    sequence reading (levels + 1) offset (c :: cs) = node := by
  obtain ⟨taken, rest, whole, takes, _, turn⟩ := @items_turn reading _
    (framed_sequence reading levels) offset c cs after lexeme [] solid scanned
  rw [begun] at takes turn
  have range := NodeAt.range_eq takes
  obtain rfl : rest = [] := by
    have texts := Token.ofChars_inj (covers.symm.trans range)
    simpa [whole] using texts
  have unlimited : reading.endsAt (offset + byteLength taken) = false := by
    rw [Reading.endsAt, endless, Option.any_none]
  rw [sequence, turn, unlimited, if_neg Bool.false_ne_true, items_nil]
  rfl

theorem read_eq (settings : Settings) (text : String) (limit : Option Nat) :
    read settings text limit =
      sequence ⟨settings.separator.toList, limit⟩ (settings.maxDepth + 1) 0 text.toList := by
  have last : floorBoundary text.toList text.utf8ByteSize = byteLength text.toList := by
    have ending := floorBoundary_byteLength text.toList []
    rw [List.append_nil] at ending
    rw [← byteLength_toList, ending]
  have first : floorBoundary text.toList 0 = 0 := floorBoundary_byteLength [] text.toList
  have whole := (Occurs.refl text.toList).between_eq
  rw [Nat.zero_add] at whole
  unfold read readRange
  simp only [last, first, Nat.zero_min, whole]

end ClassExpr.Tree
