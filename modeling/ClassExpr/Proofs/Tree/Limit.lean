import ClassExpr.Proofs.Tree.Proper

set_option autoImplicit false

/-! What a limit leaves of a node. Reading up to a limit goes the way of reading to the end until a
lexeme ends behind the limit; there the sequence that the lexeme stands in ends, and so does every
sequence around it. A body of one item may lose the comment that passes the limit and then ends in
front of the limit; the comment is read again by the sequence around the body, and ends that. -/

namespace ClassExpr.Tree

open Text

variable {reading : Reading} {interior limited : Interior} {limit : Nat}

/-! ### Comments that pass the limit -/

/-- White space and comments up to a comment that ends behind the limit. -/
inductive Fades (limit : Nat) : Nat → List Char → Prop
  | ended {offset : Nat} {taken rest : List Char} (spans : Comment.Spans taken rest)
      (behind : limit < offset + byteLength taken) : Fades limit offset (taken ++ rest)
  | comment {offset : Nat} {taken rest : List Char} (spans : Comment.Spans taken rest)
      (later : Fades limit (offset + byteLength taken) rest) : Fades limit offset (taken ++ rest)
  | blank {offset : Nat} {c : Char} {cs : List Char} (white : isBlank c = true)
      (later : Fades limit (offset + c.utf8Size) cs) : Fades limit offset (c :: cs)

theorem Fades.ne_nil {offset : Nat} {cs : List Char} (fades : Fades limit offset cs) : cs ≠ [] := by
  cases fades with
  | ended spans _ => simp [spans.ne_nil]
  | comment spans _ => simp [spans.ne_nil]
  | blank _ _ => simp

theorem Fades.slash_mem {offset : Nat} {cs : List Char} (fades : Fades limit offset cs) :
    '/' ∈ cs := by
  induction fades with
  | ended spans _ => exact List.mem_append_left _ (List.mem_of_mem_head? spans.head?)
  | comment spans _ _ => exact List.mem_append_left _ (List.mem_of_mem_head? spans.head?)
  | blank _ _ ih => exact List.mem_cons_of_mem _ ih

theorem Fades.not_item {offset : Nat} {cs : List Char} (fades : Fades limit offset cs)
    (something : isEmptyBody cs = false) : False := by
  cases fades with
  | ended spans _ => simp [isEmptyBody_of_spans spans] at something
  | comment spans _ => simp [isEmptyBody_of_spans spans] at something
  | blank white _ => simp [isEmptyBody_of_blank _ white] at something

theorem Fades.behind_blank {offset : Nat} {c : Char} {cs : List Char}
    (fades : Fades limit offset (c :: cs)) (white : isBlank c = true) :
    Fades limit (offset + c.utf8Size) cs := by
  generalize whole : c :: cs = text at fades
  cases fades with
  | ended spans _ => simp [solid_of_spans spans whole] at white
  | comment spans _ => simp [solid_of_spans spans whole] at white
  | blank _ later =>
      cases whole
      exact later

theorem Fades.behind_comment {offset : Nat} {taken rest : List Char}
    (fades : Fades limit offset (taken ++ rest)) (spans : Comment.Spans taken rest)
    (before : offset + byteLength taken ≤ limit) : Fades limit (offset + byteLength taken) rest := by
  generalize whole : taken ++ rest = text at fades
  cases fades with
  | ended other behind =>
      rw [← spans.unique other whole] at behind
      omega
  | comment other later =>
      have same := spans.unique other whole
      subst same
      rw [List.append_cancel_left_eq] at whole
      rwa [whole]
  | blank white _ => simp [solid_of_spans spans whole.symm] at white

theorem Fades.append {offset : Nat} {cs : List Char} (fades : Fades limit offset cs)
    (more : List Char) : Fades limit offset (cs ++ more) := by
  induction fades with
  | @ended offset taken rest spans behind =>
      cases rest with
      | nil =>
          obtain ⟨further, rest, rfl, longer⟩ := spans.extend more
          rw [List.append_nil, ← List.append_assoc]
          refine Fades.ended longer ?_
          rw [byteLength_append]
          omega
      | cons c rest =>
          rw [List.append_assoc]
          exact Fades.ended (spans.append (by simp) more) behind
  | comment spans later ih =>
      rw [List.append_assoc]
      exact Fades.comment (spans.append later.ne_nil more) ih
  | blank white _ ih => exact Fades.blank white ih

theorem items_comment (framed : Framed interior) {offset : Nat} {taken rest : List Char}
    {read : List Node} (spans : Comment.Spans taken rest) :
    items reading interior offset 0 (taken ++ rest) read =
      if reading.endsAt (offset + byteLength taken) then read.reverse
      else items reading interior (offset + byteLength taken) 0 rest read := by
  obtain ⟨c, cs, start⟩ := List.exists_cons_of_ne_nil (List.append_ne_nil_of_left_ne_nil spans.ne_nil rest)
  have solid : isBlank c = false := solid_of_spans spans start.symm
  obtain ⟨lexeme, after, scanned, silent⟩ : ∃ lexeme after,
      Lexeme.scan? reading.separator offset (c :: cs) = some (lexeme, after) ∧
        node? reading interior offset (c :: cs) after lexeme = none := by
    have starts := spans.starts rest
    rw [start] at starts
    unfold Lexeme.scan?
    cases line : Comment.startsLine (c :: cs) with
    | true => exact ⟨_, _, rfl, rfl⟩
    | false =>
        rw [line] at starts
        rw [starts.resolve_left (by simp)]
        exact ⟨_, _, rfl, rfl⟩
  obtain ⟨other, later, whole, takes, _, turn⟩ := @items_turn _ _ framed _ _ _ _ _ read solid scanned
  rw [silent] at takes turn
  have same : taken = other := spans.unique takes (start.trans whole)
  subst same
  rw [← start] at whole turn
  rw [turn, List.append_cancel_left whole]
  rfl

/-- Where a comment passes the limit, no further item is read. -/
theorem items_fades (framed : Framed interior) (limits : reading.limit = some limit) {offset : Nat}
    {cs : List Char} {read : List Node} (fades : Fades limit offset cs) :
    items reading interior offset 0 cs read = read.reverse := by
  induction fades with
  | ended spans behind =>
      rw [items_comment framed spans, if_pos]
      simpa [Reading.endsAt, limits] using behind
  | comment spans _ ih =>
      rw [items_comment framed spans, ih, ite_self]
  | blank white _ ih => rw [items_blank white, ih]

/-- Behind an item of a window a comment passes the limit before a further item starts. -/
def FadesBehind (limit offset : Nat) (cs : List Char) (node : Node) : Prop :=
  ∃ front rest, cs = front ++ rest ∧ node.range.stop = offset + byteLength front ∧
    Fades limit node.range.stop rest

theorem FadesBehind.append {offset : Nat} {cs : List Char} {node : Node}
    (fades : FadesBehind limit offset cs node) (more : List Char) :
    FadesBehind limit offset (cs ++ more) node := by
  obtain ⟨front, rest, rfl, stops, fades⟩ := fades
  exact ⟨front, rest ++ more, List.append_assoc .., stops, fades.append more⟩

theorem FadesBehind.shift {offset : Nat} {cs : List Char} {node : Node} (lead : List Char)
    (fades : FadesBehind limit (offset + byteLength lead) cs node) :
    FadesBehind limit offset (lead ++ cs) node := by
  obtain ⟨front, rest, rfl, stops, fades⟩ := fades
  refine ⟨lead ++ front, rest, (List.append_assoc ..).symm, ?_, fades⟩
  rw [stops, byteLength_append, Nat.add_assoc]

theorem fadesBehind_iff {offset : Nat} {taken rest : List Char} {node : Node}
    (stops : node.range.stop = offset + byteLength taken) :
    FadesBehind limit offset (taken ++ rest) node ↔ Fades limit (offset + byteLength taken) rest := by
  constructor
  · rintro ⟨front, later, parts, place, fades⟩
    have size : byteLength front = byteLength taken := by omega
    have split := splitBytes_byteLength front later
    rw [size, ← parts, splitBytes_byteLength, Prod.mk.injEq] at split
    rwa [split.2, ← stops]
  · intro fades
    exact ⟨taken, rest, rfl, stops, by rwa [stops]⟩

/-! ### What a limit leaves of a node -/

/-- A node and what a limit leaves of it. Of a sequence the items behind the limit are missing, and
the item that passes the limit may be cut; a span goes as far as what is left of its child. Whether
one item alone is left of several is decided by the comments behind it. -/
inductive Pruned (limit : Nat) : Node → Node → Prop
  | whole {node : Node} (before : ∀ child ∈ node.children, child.range.stop ≤ limit) :
      Pruned limit node node
  | group {range : Token} {child cut : Node} {closed important : Bool}
      (inner : Pruned limit child cut) :
      Pruned limit (.group range child closed important) (.group range cut closed important)
  | span {range short : Token} {variant : Variant} {child cut : Node}
      (inner : Pruned limit child cut) (reaches : limit < range.stop) :
      Pruned limit (.variantSpan range variant (some child)) (.variantSpan short variant (some cut))
  | ended {offset : Nat} {cs : List Char} {read later : List Node}
      (before : ∀ node ∈ read, node.range.stop ≤ limit)
      (ahead : ∀ node ∈ later, limit < node.range.start)
      (fades : ∀ first, read = [first] → later ≠ [] → FadesBehind limit offset cs first) :
      Pruned limit (collect offset cs (read ++ later)) (collect offset cs read)
  | last {offset : Nat} {cs : List Char} {read later : List Node} {node cut : Node}
      (before : ∀ node ∈ read, node.range.stop ≤ limit)
      (inner : Pruned limit node cut) (reaches : limit < node.range.stop)
      (ahead : ∀ node ∈ later, limit < node.range.start)
      (clear : ∀ first, read = [first] → ¬FadesBehind limit offset cs first) :
      Pruned limit (collect offset cs (read ++ node :: later)) (collect offset cs (read ++ [cut]))

/-- A node that is read in a window to its end, and what is read of it up to a limit. It is the same
if it ends in front of the limit, and what ends in front of the limit is all of it or followed by a
comment that passes the limit. -/
structure Cut (limit offset : Nat) (cs : List Char) (node cut : Node) : Prop where
  pruned : Pruned limit node cut
  whole : node.range.stop ≤ limit → cut = node
  fades : cut.range.stop ≤ limit → cut = node ∨ FadesBehind limit offset cs cut

def Limited (limit : Nat) (interior limited : Interior) : Prop :=
  ∀ offset cs, Cut limit offset cs (interior offset cs) (limited offset cs)

theorem Cut.refl (offset : Nat) (cs : List Char) {node : Node} (childless : node.children = []) :
    Cut limit offset cs node node :=
  ⟨Pruned.whole (by simp [childless]), fun _ => rfl, fun _ => Or.inl rfl⟩

theorem Cut.append {offset : Nat} {cs : List Char} {node cut : Node}
    (limits : Cut limit offset cs node cut) (more : List Char) :
    Cut limit offset (cs ++ more) node cut := by
  refine ⟨limits.pruned, limits.whole, fun before => ?_⟩
  exact (limits.fades before).imp_right fun fades => fades.append more

/-- Where a group starts and ends does not depend on how its interior is read. -/
theorem exists_group (offset : Nat) {lead cs : List Char} (marked : IsMarker lead ('(' :: cs)) :
    ∃ range start inside closed important, start + byteLength inside ≤ range.stop ∧
      ∀ interior, group interior offset (lead ++ '(' :: cs) =
        .group range (interior start inside) closed important := by
  have openerSize : Char.utf8Size '(' = 1 := rfl
  cases matching : Bracket.split? .parens [] ('(' :: cs) with
  | none =>
      refine ⟨.ofChars offset (lead ++ '(' :: cs), offset + byteLength lead + 1, cs, false,
        !lead.isEmpty, ?_, fun interior => ?_⟩
      · simp
        omega
      · exact group_open interior offset marked matching
  | some parts =>
      obtain ⟨content, closed⟩ := parts
      obtain ⟨inside, after, rfl, rfl, rfl⟩ := Bracket.split?_parens matching
      refine ⟨_, offset + byteLength lead + 1, inside, true, _, ?_,
        fun interior => group_of_split interior offset marked matching⟩
      simp
      omega

private theorem cut_group (limits : Limited limit interior limited) (framed : Framed interior)
    (offset : Nat) {lead cs : List Char} (marked : IsMarker lead ('(' :: cs)) (window : List Char) :
    Cut limit offset window (group interior offset (lead ++ '(' :: cs))
      (group limited offset (lead ++ '(' :: cs)) := by
  obtain ⟨range, start, inside, closed, important, bound, built⟩ := exists_group offset marked
  rw [built, built]
  have inner := limits start inside
  have whole : range.stop ≤ limit → Node.group range (limited start inside) closed important =
      Node.group range (interior start inside) closed important := by
    intro before
    have within := (range_partOf framed start inside).stop_le
    rw [Token.stop_ofChars] at within
    rw [inner.whole (by omega)]
  exact ⟨Pruned.group inner.pruned, whole, fun before => Or.inl (whole before)⟩

private theorem cut_attached (separator : List Char) (limits : Limited limit interior limited)
    (framed : Framed interior) (offset : Nat) (cs : List Char) :
    Cut limit offset cs (attached ⟨separator, none⟩ interior offset cs)
      (attached ⟨separator, some limit⟩ limited offset cs) := by
  rcases group_cases cs with ⟨lead, inside, rfl, marked⟩ | single
  · rw [attached_group _ interior offset marked, attached_group _ limited offset marked]
    exact cut_group limits framed offset marked _
  · rw [attached_single _ interior offset single, attached_single _ limited offset single]
    have inner := (limits offset (Body.split separator cs).1).append (Body.split separator cs).2
    rw [Body.split_append] at inner
    exact inner

private theorem exists_attached (framed : Framed interior) (variant : Variant) {cs : List Char}
    (something : isEmptyBody cs = false) :
    ∃ body rest, cs = body ++ rest ∧ body ≠ [] ∧
      (attached reading interior variant.range.stop cs).range = .ofChars variant.range.stop body ∧
      variantSpan reading interior variant cs =
        .variantSpan (.ofChars variant.range.start (variant.range.text.toList ++ body)) variant
          (some (attached reading interior variant.range.stop cs)) := by
  obtain ⟨body, rest, whole, spanAt⟩ := @spanAt_variantSpan reading _ framed variant cs
  rw [variantSpan_attached variant something] at spanAt ⊢
  dsimp only at spanAt ⊢
  generalize attached reading interior variant.range.stop cs = child at spanAt ⊢
  generalize Token.ofChars variant.range.start _ = range at spanAt ⊢
  generalize built : Node.variantSpan range variant (some child) = node at spanAt
  cases spanAt with
  | empty _ => simp at built
  | @group _ _ other _ grouped =>
      simp only [Node.variantSpan.injEq, Option.some.injEq, true_and] at built
      obtain ⟨rfl, rfl⟩ := built
      refine ⟨body, rest, whole, ?_, grouped.range_eq, rfl⟩
      cases grouped <;> simp
  | item _ _ _ framed nonempty _ =>
      simp only [Node.variantSpan.injEq, Option.some.injEq, true_and] at built
      obtain ⟨rfl, rfl⟩ := built
      exact ⟨body, _, whole, nonempty, framed, rfl⟩

theorem Cut.span {offset start : Nat} {text cs body front : List Char} {variant : Variant}
    {child cut : Node} (inner : Cut limit start cs child cut)
    (behind : start = offset + byteLength text) (taken : child.range = .ofChars start body)
    (kept : cut.range = .ofChars start front) :
    Cut limit offset (text ++ cs)
      (.variantSpan (.ofChars offset (text ++ body)) variant (some child))
      (.variantSpan (.ofChars offset (text ++ front)) variant (some cut)) := by
  have childStop : child.range.stop = (Token.ofChars offset (text ++ body)).stop := by
    rw [taken, Token.stop_ofChars, Token.stop_ofChars, behind, byteLength_append, Nat.add_assoc]
  have cutStop : cut.range.stop = (Token.ofChars offset (text ++ front)).stop := by
    rw [kept, Token.stop_ofChars, Token.stop_ofChars, behind, byteLength_append, Nat.add_assoc]
  have whole : (Token.ofChars offset (text ++ body)).stop ≤ limit →
      Node.variantSpan (.ofChars offset (text ++ front)) variant (some cut) =
        .variantSpan (.ofChars offset (text ++ body)) variant (some child) := by
    intro before
    have same : cut = child := inner.whole (by rw [childStop]; exact before)
    rw [same, taken] at kept
    rw [same, Token.ofChars_inj kept]
  refine ⟨?_, whole, ?_⟩
  · rcases Nat.lt_or_ge limit (Token.ofChars offset (text ++ body)).stop with reaches | before
    · exact Pruned.span inner.pruned reaches
    · rw [whole before]
      refine Pruned.whole fun other member => ?_
      rw [Node.children, Option.toList_some, List.mem_singleton] at member
      rwa [member, childStop]
  · intro before
    rcases inner.fades (by rw [cutStop]; exact before) with same | fades
    · left
      apply whole
      rw [← childStop, ← same, cutStop]
      exact before
    · right
      rw [behind] at fades
      obtain ⟨lead, rest, parts, place, fades⟩ := FadesBehind.shift text fades
      rw [cutStop] at place fades
      exact ⟨lead, rest, parts, place, fades⟩

private theorem cut_variantSpan (separator : List Char) (limits : Limited limit interior limited)
    (framed : Framed interior) (short : Framed limited) {variant : Variant} {offset : Nat} {text : List Char}
    (range : variant.range = .ofChars offset text) (cs : List Char) :
    Cut limit offset (text ++ cs) (variantSpan ⟨separator, none⟩ interior variant cs)
      (variantSpan ⟨separator, some limit⟩ limited variant cs) := by
  cases something : isEmptyBody cs with
  | true =>
      unfold variantSpan
      rw [if_pos something, if_pos something]
      exact Cut.refl _ _ rfl
  | false =>
      obtain ⟨body, _, _, _, taken, span⟩ :=
        @exists_attached ⟨separator, none⟩ _ framed variant cs something
      obtain ⟨front, _, _, _, kept, cutSpan⟩ :=
        @exists_attached ⟨separator, some limit⟩ _ short variant cs something
      have inner := cut_attached separator limits framed variant.range.stop cs
      rw [span, cutSpan, show variant.range.text.toList = text by rw [range, Token.toList_ofChars],
        show variant.range.start = offset by rw [range, Token.start_ofChars]]
      exact inner.span (by rw [range, Token.stop_ofChars]) taken kept

private theorem cut_bracket (separator : List Char) (limits : Limited limit interior limited)
    (framed : Framed interior) (short : Framed limited) (offset : Nat) {lead stem cs : List Char}
    (marked : IsMarker lead (stem ++ '[' :: cs)) :
    Cut limit offset (lead ++ stem ++ '[' :: cs)
      (bracket ⟨separator, none⟩ interior offset (.ofChars (offset + byteLength lead) stem)
        (lead ++ stem ++ '[' :: cs))
      (bracket ⟨separator, some limit⟩ limited offset (.ofChars (offset + byteLength lead) stem)
        (lead ++ stem ++ '[' :: cs)) := by
  cases matching : Bracket.split? .square [] ('[' :: cs) with
  | none =>
      rw [bracket_open _ interior offset marked matching, bracket_open _ limited offset marked matching]
      apply Cut.refl
      unfold openBracket
      split
      · rfl
      · rfl
  | some parts =>
      obtain ⟨content, closed⟩ := parts
      obtain ⟨value, rest, rfl, rfl, rfl⟩ := Bracket.split?_square matching
      rcases separated_cases separator lead rest with ⟨rfl, after, rfl⟩ | plain
      · rw [List.nil_append, byteLength_nil, Nat.add_zero,
          bracket_variant ⟨separator, none⟩ interior offset marked matching,
          bracket_variant ⟨separator, some limit⟩ limited offset marked matching]
        dsimp only
        generalize named : Variant.bracket _ = variant
        have range : variant.range =
            .ofChars offset (stem ++ '[' :: value ++ [']'] ++ separator) := by
          rw [← named]
          rfl
        have spans := cut_variantSpan separator limits framed short range after
        simpa using spans
      · rw [bracket_leaf ⟨separator, none⟩ interior offset marked matching plain,
          bracket_leaf ⟨separator, some limit⟩ limited offset marked matching plain]
        exact Cut.refl _ _ rfl

/-- A lexeme begins a node under the limit where it begins one without, and that one cut. -/
theorem cut_node? {separator : List Char} (limits : Limited limit interior limited)
    (framed : Framed interior) (short : Framed limited) {offset : Nat} {front after : List Char}
    {lexeme : Lexeme} (scans : Lexeme.Scans separator offset front after lexeme) :
    node? ⟨separator, none⟩ interior offset (front ++ after) after lexeme = none ∧
        node? ⟨separator, some limit⟩ limited offset (front ++ after) after lexeme = none ∨
      ∃ node cut, node? ⟨separator, none⟩ interior offset (front ++ after) after lexeme = some node ∧
        node? ⟨separator, some limit⟩ limited offset (front ++ after) after lexeme = some cut ∧
        Cut limit offset (front ++ after) node cut := by
  cases scans with
  | lineComment _ _ => exact Or.inl ⟨rfl, rfl⟩
  | blockComment => exact Or.inl ⟨rfl, rfl⟩
  | @variant name _ _ _ =>
      refine Or.inr ⟨_, _, rfl, rfl, ?_⟩
      simp only [Token.toList_ofChars]
      exact cut_variantSpan separator limits framed short rfl after
  | @bracket lead stem _ marked _ =>
      refine Or.inr ⟨_, _, rfl, rfl, ?_⟩
      rw [List.append_assoc _ ['['] after]
      exact cut_bracket separator limits framed short offset marked
  | className _ _ _ _ => exact Or.inr ⟨_, _, rfl, rfl, Cut.refl _ _ rfl⟩
  | @group lead _ marked =>
      refine Or.inr ⟨_, _, rfl, rfl, ?_⟩
      rw [List.append_assoc lead ['('] after]
      exact cut_group limits framed offset marked _
  | unhandled _ => exact Or.inr ⟨_, _, rfl, rfl, Cut.refl _ _ rfl⟩

end ClassExpr.Tree
