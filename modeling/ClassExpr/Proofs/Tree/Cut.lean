import ClassExpr.Proofs.Tree.Limit

set_option autoImplicit false

/-! What a limit leaves of a tree. The loop over the items of a window under a limit goes along with
the loop to the end of the window, item by item up to the one that passes the limit. So at every
level, and for a whole text, reading up to a limit cuts what is read to the end. -/

namespace ClassExpr.Tree

open Text

variable {interior limited : Interior} {limit : Nat}

/-- The items of a window that is read to its end, and those that are read of it up to a limit. -/
inductive Runs (limit : Nat) : Nat → List Char → List Node → List Node → Prop
  | done {offset : Nat} : Runs limit offset [] [] []
  | blank {offset : Nat} {c : Char} {cs : List Char} {full short : List Node}
      (white : isBlank c = true) (later : Runs limit (offset + c.utf8Size) cs full short) :
      Runs limit offset (c :: cs) full short
  | comment {offset : Nat} {taken rest : List Char} {full short : List Node}
      (spans : Comment.Spans taken rest) (before : offset + byteLength taken ≤ limit)
      (later : Runs limit (offset + byteLength taken) rest full short) :
      Runs limit offset (taken ++ rest) full short
  | node {offset : Nat} {taken rest : List Char} {node : Node} {full short : List Node}
      (something : isEmptyBody (taken ++ rest) = false) (range : node.range = .ofChars offset taken)
      (before : offset + byteLength taken ≤ limit)
      (later : Runs limit (offset + byteLength taken) rest full short) :
      Runs limit offset (taken ++ rest) (node :: full) (node :: short)
  | ended {offset : Nat} {taken rest : List Char} {full : List Node}
      (spans : Comment.Spans taken rest) (behind : limit < offset + byteLength taken)
      (ahead : ∀ node ∈ full, limit < node.range.start) :
      Runs limit offset (taken ++ rest) full []
  | last {offset : Nat} {cs : List Char} {node cut : Node} {full : List Node}
      (something : isEmptyBody cs = false) (inner : Cut limit offset cs node cut)
      (behind : limit < node.range.stop) (ahead : ∀ node ∈ full, limit < node.range.start) :
      Runs limit offset cs (node :: full) [cut]

section

variable {offset : Nat} {cs : List Char} {full short : List Node}

/-- The items up to the limit are all of the items up to some place, where the last one may be
cut. -/
theorem Runs.cases (runs : Runs limit offset cs full short) :
    (∃ later, full = short ++ later ∧ (∀ node ∈ short, node.range.stop ≤ limit) ∧
        ∀ node ∈ later, limit < node.range.start) ∨
      ∃ read node cut later, full = read ++ node :: later ∧ short = read ++ [cut] ∧
        (∀ node ∈ read, node.range.stop ≤ limit) ∧ Pruned limit node cut ∧
        limit < node.range.stop ∧ ∀ node ∈ later, limit < node.range.start := by
  induction runs with
  | done => exact Or.inl ⟨[], rfl, by simp, by simp⟩
  | blank _ _ ih => exact ih
  | comment _ _ _ ih => exact ih
  | @node _ _ _ node _ _ _ range before _ ih =>
      have early : node.range.stop ≤ limit := by rwa [range, Token.stop_ofChars]
      rcases ih with ⟨later, rfl, whole, ahead⟩ | ⟨read, last, cut, later, rfl, rfl, whole, inner,
        behind, ahead⟩
      · exact Or.inl ⟨later, rfl, List.forall_mem_cons.2 ⟨early, whole⟩, ahead⟩
      · exact Or.inr ⟨node :: read, last, cut, later, rfl, rfl,
          List.forall_mem_cons.2 ⟨early, whole⟩, inner, behind, ahead⟩
  | ended _ _ ahead => exact Or.inl ⟨_, rfl, by simp, ahead⟩
  | last _ inner behind ahead =>
      exact Or.inr ⟨[], _, _, _, rfl, rfl, by simp, inner.pruned, behind, ahead⟩

private theorem Runs.not_fades {cut : Node} (runs : Runs limit offset cs full (cut :: short)) :
    ¬Fades limit offset cs := by
  generalize some : cut :: short = items at runs
  induction runs with
  | done => cases some
  | ended _ _ _ => cases some
  | blank white _ ih => exact fun fades => ih some (fades.behind_blank white)
  | comment spans before _ ih => exact fun fades => ih some (fades.behind_comment spans before)
  | node something _ _ _ => exact fun fades => fades.not_item something
  | last something _ _ _ => exact fun fades => fades.not_item something

private theorem Runs.not_fadesBehind {first cut : Node}
    (runs : Runs limit offset cs full (first :: cut :: short)) :
    ∃ front rest, cs = front ++ rest ∧ first.range.stop = offset + byteLength front ∧
      ¬Fades limit (offset + byteLength front) rest := by
  generalize several : first :: cut :: short = items at runs
  induction runs with
  | done => cases several
  | ended _ _ _ => cases several
  | last _ _ _ _ => cases several
  | @blank offset c cs _ _ _ _ ih =>
      obtain ⟨front, rest, rfl, stops, clear⟩ := ih several
      rw [Nat.add_assoc, ← byteLength_cons] at stops clear
      exact ⟨c :: front, rest, rfl, stops, clear⟩
  | @comment offset taken rest _ _ _ _ _ ih =>
      obtain ⟨front, rest, rfl, stops, clear⟩ := ih several
      rw [Nat.add_assoc, ← byteLength_append] at stops clear
      exact ⟨taken ++ front, rest, (List.append_assoc ..).symm, stops, clear⟩
  | @node offset taken rest _ _ _ _ range _ later _ =>
      cases several
      exact ⟨taken, rest, rfl, by rw [range, Token.stop_ofChars], later.not_fades⟩

theorem Runs.whole (runs : Runs limit offset cs full short)
    (before : ∀ node ∈ full, node.range.stop ≤ limit) : short = full := by
  rcases runs.cases with ⟨later, rfl, _, ahead⟩ | ⟨read, node, cut, later, rfl, _, _, _, behind, _⟩
  · cases later with
    | nil => simp
    | cons node later =>
        have start := ahead node List.mem_cons_self
        have stop := before node (by simp)
        rw [Token.stop_eq] at stop
        omega
  · have stop := before node (by simp)
    omega

private theorem Runs.fades_nil (runs : Runs limit offset cs full []) :
    full = [] ∨ Fades limit offset cs := by
  generalize none : [] = short at runs
  induction runs with
  | done => exact Or.inl rfl
  | blank white _ ih => exact (ih none).imp_right (Fades.blank white)
  | comment spans _ _ ih => exact (ih none).imp_right (Fades.comment spans)
  | node _ _ _ _ => cases none
  | ended spans behind _ => exact Or.inr (Fades.ended spans behind)
  | last _ _ _ _ => cases none

private theorem Runs.fades_single {cut : Node} (runs : Runs limit offset cs full [cut])
    (before : cut.range.stop ≤ limit) :
    full = [cut] ∨ FadesBehind limit offset cs cut := by
  generalize single : [cut] = short at runs
  induction runs with
  | done => cases single
  | ended _ _ _ => cases single
  | @blank _ c _ _ _ _ _ ih => exact (ih single).imp_right fun fades => FadesBehind.shift [c] (by simpa using fades)
  | @comment _ taken _ _ _ _ _ _ ih => exact (ih single).imp_right fun fades => fades.shift taken
  | @node offset taken rest node full short _ range _ later _ =>
      cases single
      have stops : cut.range.stop = offset + byteLength taken := by rw [range, Token.stop_ofChars]
      refine later.fades_nil.imp (fun none => by rw [none]) fun fades => ?_
      exact (fadesBehind_iff stops).2 fades
  | @last offset cs node cut full _ inner behind _ =>
      cases single
      right
      rcases inner.fades before with same | fades
      · rw [same] at before
        omega
      · exact fades

theorem Runs.pruned (runs : Runs limit offset cs full short) :
    Pruned limit (collect offset cs full) (collect offset cs short) := by
  rcases runs.cases with ⟨later, rfl, before, ahead⟩ | ⟨read, node, cut, later, rfl, rfl, before,
    inner, behind, ahead⟩
  · refine Pruned.ended before ahead ?_
    rintro first rfl more
    refine (runs.fades_single (before first List.mem_cons_self)).resolve_left ?_
    simpa using more
  · refine Pruned.last before inner behind ahead ?_
    rintro first rfl
    obtain ⟨front, rest, rfl, stops, clear⟩ := runs.not_fadesBehind
    rwa [fadesBehind_iff stops]

end

/-- Behind the item that passes the limit no further one is read, even if that item is cut in front
of the limit. -/
theorem items_last {separator : List Char} (short : Framed limited) {offset : Nat}
    {taken rest : List Char} {node cut : Node} (read : List Node)
    (inner : Cut limit offset (taken ++ rest) node cut) (range : cut.range = .ofChars offset taken)
    (behind : limit < node.range.stop) :
    (if (⟨separator, some limit⟩ : Reading).endsAt (offset + byteLength taken) then
        (cut :: read).reverse
      else items ⟨separator, some limit⟩ limited (offset + byteLength taken) 0 rest (cut :: read)) =
      read.reverse ++ [cut] := by
  have stops : cut.range.stop = offset + byteLength taken := by rw [range, Token.stop_ofChars]
  split
  next => simp
  next before =>
    have early : cut.range.stop ≤ limit := by simpa [Reading.endsAt, stops] using before
    rcases inner.fades early with same | fades
    · rw [same] at early
      omega
    · rw [fadesBehind_iff stops] at fades
      rw [items_fades short rfl fades, List.reverse_cons]

private theorem exists_items (separator : List Char) (framed : Framed interior) (offset : Nat)
    (cs : List Char) (read : List Node) (behind : limit < offset) :
    ∃ full, items ⟨separator, none⟩ interior offset 0 cs read = read.reverse ++ full ∧
      ∀ node ∈ full, limit < node.range.start := by
  obtain ⟨full, result, itemsAt⟩ := @itemsAt_items ⟨separator, none⟩ _ framed offset cs read
  refine ⟨full, result, fun node member => ?_⟩
  have start := (itemsAt.ordered.1 node member).2.2.start_le
  rw [Token.start_ofChars] at start
  omega

/-- A turn of the loop takes a comment, or a node that the limit cuts. -/
theorem cut_turn (separator : List Char) (limits : Limited limit interior limited)
    (framed : Framed interior) (short : Framed limited) (offset : Nat) {c : Char} (cs : List Char)
    (read : List Node) (solid : isBlank c = false) :
    (∃ taken rest, c :: cs = taken ++ rest ∧ Comment.Spans taken rest) ∨
      isEmptyBody (c :: cs) = false ∧
      ∃ node cut taken rest kept left, c :: cs = taken ++ rest ∧ c :: cs = kept ++ left ∧
        NodeAt ⟨separator, none⟩ interior offset taken rest node ∧
        NodeAt ⟨separator, some limit⟩ limited offset kept left cut ∧
        Cut limit offset (c :: cs) node cut ∧
        items ⟨separator, none⟩ interior offset 0 (c :: cs) read =
          items ⟨separator, none⟩ interior (offset + byteLength taken) 0 rest (node :: read) ∧
        items ⟨separator, some limit⟩ limited offset 0 (c :: cs) read =
          if (⟨separator, some limit⟩ : Reading).endsAt (offset + byteLength kept) then
            (cut :: read).reverse
          else items ⟨separator, some limit⟩ limited (offset + byteLength kept) 0 left
            (cut :: read) := by
  by_cases starts : Comment.startsLine (c :: cs) = true ∨ Comment.startsBlock (c :: cs) = true
  · exact Or.inl (Comment.exists_spans starts)
  have something : isEmptyBody (c :: cs) = false := by
    rw [not_or, Bool.not_eq_true, Bool.not_eq_true] at starts
    rw [isEmptyBody, starts.1, starts.2, List.head?_cons, Option.all_some, solid]
    rfl
  have found : (Lexeme.scan? separator offset (c :: cs)).isSome = true :=
    Lexeme.scan?_isSome solid
  obtain ⟨⟨lexeme, after⟩, scanned⟩ := Option.isSome_iff_exists.1 found
  obtain ⟨front, whole, scans⟩ := Lexeme.scans_of_scan? scanned
  obtain ⟨taken, rest, parts, takes, _, turn⟩ :=
    @items_turn ⟨separator, none⟩ _ framed _ _ _ _ _ read solid scanned
  obtain ⟨kept, left, parts', takes', _, turn'⟩ :=
    @items_turn ⟨separator, some limit⟩ _ short _ _ _ _ _ read solid scanned
  rw [whole] at takes takes' turn turn'
  rcases cut_node? limits framed short scans with ⟨silent, _⟩ | ⟨node, cut, begun, begun', inner⟩
  · rw [silent] at takes
    exact Or.inl ⟨taken, rest, parts, takes⟩
  · rw [begun] at takes turn
    rw [begun'] at takes' turn'
    rw [whole] at parts parts' something ⊢
    exact Or.inr ⟨something, node, cut, taken, rest, kept, left, parts, parts', takes, takes', inner,
      turn, turn'⟩

/-- The loop under a limit goes along with the loop without one. -/
theorem runs_items {separator : List Char} (limits : Limited limit interior limited)
    (framed : Framed interior) (short : Framed limited) (offset : Nat) (cs : List Char)
    (read : List Node) :
    ∃ full cut, items ⟨separator, none⟩ interior offset 0 cs read = read.reverse ++ full ∧
      items ⟨separator, some limit⟩ limited offset 0 cs read = read.reverse ++ cut ∧
      Runs limit offset cs full cut := by
  -- on the length, since a turn takes as much of the window as its node does
  induction counted : cs.length using Nat.strongRecOn generalizing offset cs read with
  | ind size ih =>
      cases cs with
      | nil => exact ⟨[], [], by simp [items], by simp [items], Runs.done⟩
      | cons c cs =>
          cases white : isBlank c with
          | true =>
              obtain ⟨full, cut, fullAt, cutAt, runs⟩ :=
                ih cs.length (by rw [← counted]; simp) (offset + c.utf8Size) cs read rfl
              exact ⟨full, cut, by rw [items_blank white, fullAt], by rw [items_blank white, cutAt],
                Runs.blank white runs⟩
          | false =>
              rcases cut_turn separator limits framed short offset cs read white with
                ⟨taken, rest, parts, spans⟩ |
                ⟨something, node, cut, taken, rest, kept, left, parts, parts', nodeAt, cutAt, inner, turn,
                  turn'⟩
              · have positive := List.length_pos_iff.2 spans.ne_nil
                rw [parts, List.length_append] at counted
                rw [parts, items_comment framed spans, items_comment short spans]
                rcases Nat.lt_or_ge limit (offset + byteLength taken) with behind | before
                · obtain ⟨full, fullAt, ahead⟩ := exists_items separator framed _ rest read behind
                  exact ⟨full, [], fullAt, by simp [Reading.endsAt, behind],
                    Runs.ended spans behind ahead⟩
                · obtain ⟨full, cut, fullAt, cutAt, runs⟩ :=
                    ih rest.length (by omega) (offset + byteLength taken) rest read rfl
                  refine ⟨full, cut, fullAt, ?_, Runs.comment spans before runs⟩
                  rw [if_neg (by simpa [Reading.endsAt] using before), cutAt]
              · rw [turn, turn']
                rcases Nat.lt_or_ge limit node.range.stop with behind | before
                · obtain ⟨full, fullAt, ahead⟩ :=
                    exists_items separator framed (offset + byteLength taken) rest (node :: read)
                      (by rwa [nodeAt.range_eq, Token.stop_ofChars] at behind)
                  refine ⟨node :: full, [cut], by rw [fullAt]; simp, ?_,
                    Runs.last something inner behind ahead⟩
                  rw [parts'] at inner
                  exact items_last short read inner cutAt.range_eq behind
                · obtain rfl : cut = node := inner.whole before
                  have texts := Token.ofChars_inj (nodeAt.range_eq.symm.trans cutAt.range_eq)
                  rw [nodeAt.range_eq, Token.stop_ofChars] at before
                  subst texts
                  rw [parts, List.append_cancel_left_eq] at parts'
                  subst parts'
                  have positive := List.length_pos_iff.2 nodeAt.ne_nil
                  rw [parts, List.length_append] at counted
                  obtain ⟨full, short, fullAt, shortAt, runs⟩ :=
                    ih rest.length (by omega) (offset + byteLength taken) rest (cut :: read) rfl
                  refine ⟨cut :: full, cut :: short, by rw [fullAt]; simp, ?_, ?_⟩
                  · rw [if_neg (by simpa [Reading.endsAt] using before), shortAt]
                    simp
                  · rw [parts] at something ⊢
                    exact Runs.node something nodeAt.range_eq before runs

private theorem cut_items (separator : List Char) (limits : Limited limit interior limited)
    (framed : Framed interior) (short : Framed limited) :
    Limited limit
      (fun offset cs => collect offset cs (items ⟨separator, none⟩ interior offset 0 cs []))
      (fun offset cs => collect offset cs (items ⟨separator, some limit⟩ limited offset 0 cs [])) := by
  intro offset cs
  dsimp only
  obtain ⟨full, itemsAt⟩ := @itemsAt_items ⟨separator, none⟩ _ framed offset cs []
  obtain ⟨other, cut, fullAt, cutAt, runs⟩ :=
    @runs_items _ _ _ separator limits framed short offset cs []
  rw [fullAt, List.append_cancel_left_eq] at itemsAt
  obtain ⟨rfl, itemsAt⟩ := itemsAt
  rw [fullAt, cutAt, List.reverse_nil, List.nil_append, List.nil_append]
  -- a window that ends in front of the limit is read as a whole
  have early : offset + byteLength cs ≤ limit → cut = other := by
    intro before
    refine runs.whole fun node member => ?_
    have within := (itemsAt.ordered.1 node member).2.2.stop_le
    rw [Token.stop_ofChars] at within
    omega
  refine ⟨runs.pruned, fun before => ?_, fun before => ?_⟩
  · rcases collect_cases offset cs other with ⟨node, rfl⟩ | several
    · rw [runs.whole fun item member => by rw [List.mem_singleton.1 member]; exact before]
    · rw [several, Node.range, Token.stop_ofChars] at before
      rw [early before]
  · rcases collect_cases offset cs cut with ⟨node, rfl⟩ | several
    · exact (runs.fades_single before).imp_left fun same => by rw [same]
    · rw [several, Node.range, Token.stop_ofChars] at before
      exact Or.inl (by rw [early before])

/-- At every level a limit cuts what is read without one. -/
theorem limited_sequence (separator : List Char) (limit levels : Nat) :
    Limited limit (sequence ⟨separator, none⟩ levels) (sequence ⟨separator, some limit⟩ levels) := by
  induction levels with
  | zero =>
      intro offset cs
      apply Cut.refl
      rcases remainder_cases offset cs with ⟨_, none⟩ | ⟨_, _, _, _, _, _, _, one⟩
      · rw [sequence, none]
        rfl
      · rw [sequence, one]
        rfl
  | succ levels ih =>
      exact cut_items separator ih (framed_sequence _ levels) (framed_sequence _ levels)

/-- What is read of a text up to a limit is the tree of the whole text, cut at the limit. -/
theorem pruned_read (settings : Settings) (text : String) (limit : Nat) :
    Pruned limit (read settings text none) (read settings text (some limit)) := by
  rw [read_eq, read_eq]
  exact (limited_sequence settings.separator.toList limit (settings.maxDepth + 1) 0
    text.toList).pruned

end ClassExpr.Tree
