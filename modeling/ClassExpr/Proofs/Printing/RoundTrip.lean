import ClassExpr.Proofs.Printing.Nodes
import ClassExpr.Proofs.Tree.Items

set_option autoImplicit false

/-! Reading what is printed. By induction over the phrases every printed window is read as their
nodes, as long as there are levels for their nesting; flattening the tree gives back what the
phrases mean. -/

namespace ClassExpr.Printing

open Text ClassExpr.Tree

private theorem items_phrase {interior : Interior} (framed : Framed interior) {offset : Nat}
    {phrase : Phrase} {rest : List Char}
    (begins : Begins interior offset (phrase.print ++ rest) (phrase.node offset))
    (read : List Node) :
    items reading interior offset 0 (phrase.print ++ rest) read =
      items reading interior (offset + byteLength phrase.print) 0 rest
        (phrase.node offset :: read) := by
  obtain ⟨lexeme, after, scanned, begun⟩ := begins
  obtain ⟨c, cs, start, solid, _⟩ := phrase.exists_solid rest
  rw [start] at scanned begun
  obtain ⟨taken, left, whole, _, stops, turn⟩ := @items_turn reading interior framed offset c cs
    after lexeme read solid scanned
  have size : byteLength taken = byteLength phrase.print := by
    rw [turnStop, begun, Option.map_some, Option.getD_some, phrase.range_node,
      Token.stop_ofChars] at stops
    omega
  have rests : left = rest := by
    have split := splitBytes_byteLength taken left
    rw [← whole, ← start, size, splitBytes_byteLength] at split
    exact (Prod.mk.inj split).2.symm
  rw [start, turn, begun, size, rests]
  rfl

private theorem sequence_phrase {levels offset : Nat} {phrase : Phrase}
    (begins : Begins (Tree.sequence reading levels) offset (phrase.print ++ [])
      (phrase.node offset)) :
    Tree.sequence reading (levels + 1) offset phrase.print = phrase.node offset := by
  have turn := items_phrase (framed_sequence reading levels) begins []
  rw [List.append_nil] at turn
  rw [Tree.sequence, turn, Tree.items_nil]
  rfl

private theorem follows_gap (gap : Gap) (rest : List Char) : Follows (gap.chars ++ rest) := by
  obtain ⟨c, cs, chars, blank⟩ := gap.exists_cons
  rw [chars, Follows, List.cons_append, List.head?_cons, Option.all_some, blank]

mutual

/-- A phrase begins its node where there are levels for it. -/
theorem Phrase.begins {levels : Nat} {rest : List Char} (follows : Follows rest) (offset : Nat) :
    (phrase : Phrase) → phrase.height ≤ levels →
      Begins (Tree.sequence reading levels) offset (phrase.print ++ rest) (phrase.node offset)
  | .atom atom, _ => by
      rw [Phrase.print, Phrase.node]
      exact begins_atom _ offset atom follows
  | .group leading inside trailing, shallow => by
      rw [Phrase.height] at shallow
      obtain ⟨levels, rfl⟩ : ∃ inner, levels = inner + 1 := ⟨levels - 1, by omega⟩
      rw [begins_group _ offset rfl]
      apply group_print _ offset leading trailing follows
      rw [Tree.sequence, Phrases.items_print _ [] inside (by omega)]
      rfl
  | .modified modifier body, shallow => by
      apply begins_modified _ offset modifier body follows
      rw [Phrase.height] at shallow
      -- a group behind the variant is read on the level of the variant, all else one below
      by_cases group : body.isGroup = true
      · rw [if_pos group] at shallow ⊢
        exact (begins_group _ _ group rest _).1 (Phrase.begins follows _ body shallow)
      · rw [if_neg group] at shallow ⊢
        obtain ⟨levels, rfl⟩ : ∃ inner, levels = inner + 1 := ⟨levels - 1, by omega⟩
        exact sequence_phrase (@Phrase.begins levels [] rfl _ body (by omega))

/-- The loop reads the nodes of the phrases. -/
theorem Phrases.items_print {levels : Nat} (offset : Nat) (read : List Node) :
    (phrases : Phrases) → phrases.height ≤ levels →
      Tree.items reading (Tree.sequence reading levels) offset 0 phrases.print read =
        read.reverse ++ phrases.nodes offset
  | .one phrase, shallow => by
      rw [Phrases.height] at shallow
      have begins := @Phrase.begins levels [] rfl offset phrase shallow
      have turn := items_phrase (framed_sequence reading levels) begins read
      rw [List.append_nil] at turn
      rw [Phrases.print, turn, Phrases.nodes, Tree.items_nil, List.reverse_cons]
  | .more phrase gap rest, shallow => by
      rw [Phrases.height] at shallow
      have begins := @Phrase.begins levels _ (follows_gap gap rest.print) offset phrase (by omega)
      have blank : ∀ c ∈ gap.chars, isBlank c = true :=
        fun c member => isBlank_of_isAsciiBlank (gap.accepted c member)
      rw [Phrases.print, List.append_assoc,
        items_phrase (framed_sequence reading levels) begins read, items_blanks blank,
        Phrases.items_print _ _ rest (by omega), Phrases.nodes, List.reverse_cons,
        List.append_assoc]
      rfl

end

theorem Document.read_print (settings : Settings) (document : Document)
    (colon : settings.separator = ":") (shallow : document.height ≤ settings.maxDepth) :
    Tree.read settings document.print none = document.tree := by
  rw [read_eq, Document.print, String.toList_ofList, colon]
  change Tree.sequence reading (settings.maxDepth + 1) 0 _ = _
  cases document with
  | none => rfl
  | some phrases =>
      rw [Option.map_some, Option.getD_some, Tree.sequence, Phrases.items_print 0 [] phrases shallow]
      rfl

/-- Printing a document and flattening what is read of it gives back its meaning, and no faults. -/
theorem ofText_print (settings : Settings) (document : Document)
    (colon : settings.separator = ":") (shallow : document.height ≤ settings.maxDepth) :
    Spread.ofText settings document.print = ⟨document.items, [], [], []⟩ := by
  rw [Spread.ofText, document.read_print settings colon shallow, document.ofNode_tree]

def nested : Document :=
  some (.one (.modified (.named ⟨['l', 'g'], by simp, List.all_eq_true.1 rfl⟩)
    (.group true
      (.more
        (.atom
          { utility := .style ⟨['w'], by simp, List.all_eq_true.1 rfl⟩
              ⟨['2', ' ', '%'], List.all_eq_true.1 rfl⟩
              (some (.number ⟨['5'], by simp, List.all_eq_true.1 rfl⟩))
            trailing := true })
        ⟨[' '], by simp, List.all_eq_true.1 rfl⟩
        (.one (.atom
          { utility := .className ⟨⟨['a'], by simp, List.all_eq_true.1 rfl⟩,
              [⟨['b'], by simp, List.all_eq_true.1 rfl⟩]⟩ })))
      false)))

theorem ofText_print_nested :
    nested.print = "lg:!(w-[2 %]/5! a/b)" ∧ ({} : Settings).separator = ":" ∧
      nested.height ≤ ({} : Settings).maxDepth ∧
      Spread.ofText {} "lg:!(w-[2 %]/5! a/b)" =
        ⟨[⟨⟨5, "w-[2 %]/5"⟩, .arbitraryStyle, [⟨0, "lg"⟩], true, some ⟨5, "w-"⟩, some ⟨8, "2 %"⟩,
            some ⟨13, "5"⟩⟩,
          ⟨⟨16, "a/b"⟩, .className, [⟨0, "lg"⟩], true, none, none, none⟩], [], [], []⟩ :=
  ⟨rfl, rfl, by decide, ofText_print {} nested rfl (by decide)⟩

end ClassExpr.Printing
