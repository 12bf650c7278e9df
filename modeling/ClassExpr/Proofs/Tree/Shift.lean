import ClassExpr.Proofs.Shift
import ClassExpr.Proofs.Tree.Items

set_option autoImplicit false

/-! Reading a window further on. The tree of a window depends on where the window stands only
through the offsets in it, and on the number of levels only if they run out: each level down costs
an opening parenthesis or a separator, so where there are more levels than those, one level more or
less makes no difference. -/

namespace ClassExpr

open Text

namespace Tree

variable {reading moved : Reading} {interior further : Interior} {separator : List Char}
  {distance bound : Nat}

/-! ### What a level costs -/

/-- The number of places where a level down may start: the opening parentheses and the separators of
a text. -/
def weight (separator : List Char) : List Char → Nat
  | [] => 0
  | c :: cs => (c == '(').toNat + (separator.isPrefixOf (c :: cs)).toNat + weight separator cs

theorem weight_cons (separator : List Char) (c : Char) (cs : List Char) :
    weight separator (c :: cs) =
      (c == '(').toNat + (separator.isPrefixOf (c :: cs)).toNat + weight separator cs := rfl

theorem weight_le_append (separator : List Char) (front rest : List Char) :
    weight separator front ≤ weight separator (front ++ rest) := by
  induction front with
  | nil => exact Nat.zero_le _
  | cons c front ih =>
      have longer : (separator.isPrefixOf (c :: front)).toNat ≤
          (separator.isPrefixOf (c :: (front ++ rest))).toNat := by
        cases starts : separator.isPrefixOf (c :: front) with
        | false => exact Nat.zero_le _
        | true =>
            have whole := (List.isPrefixOf_iff_prefix.1 starts).trans (List.prefix_append _ rest)
            rw [List.cons_append, ← List.isPrefixOf_iff_prefix] at whole
            exact Nat.le_of_eq (by rw [whole])
      rw [List.cons_append, weight_cons, weight_cons]
      omega

theorem weight_append_le (separator : List Char) (front rest : List Char) :
    weight separator rest ≤ weight separator (front ++ rest) := by
  induction front with
  | nil => exact Nat.le_refl _
  | cons c front ih =>
      rw [List.cons_append, weight_cons]
      omega

theorem weight_opener (separator : List Char) (cs : List Char) :
    weight separator cs < weight separator ('(' :: cs) := by
  rw [weight_cons]
  simp only [beq_self_eq_true, Bool.toNat_true]
  omega

theorem weight_separator (some : separator ≠ []) (cs : List Char) :
    weight separator cs < weight separator (separator ++ cs) := by
  obtain ⟨c, rest, rfl⟩ := List.exists_cons_of_ne_nil some
  have starts : (c :: rest).isPrefixOf (c :: (rest ++ cs)) = true :=
    List.isPrefixOf_iff_prefix.2 (List.prefix_append (c :: rest) cs)
  have later := weight_append_le (c :: rest) rest cs
  rw [List.cons_append, weight_cons, starts, Bool.toNat_true]
  omega

/-- The second way to read an interior does further on what the first one does, in windows where the
levels suffice. -/
def Shifts (separator : List Char) (distance bound : Nat) (interior further : Interior) : Prop :=
  ∀ offset cs, weight separator cs < bound →
    further (offset + distance) cs = (interior offset cs).shift distance

structure Moves (distance : Nat) (reading moved : Reading) : Prop where
  separator : moved.separator = reading.separator
  nonempty : reading.separator ≠ []
  endsAt : ∀ stop, 0 < stop → moved.endsAt (stop + distance) = reading.endsAt stop

/-! ### The same nodes -/

private theorem group_shift (shifts : Shifts separator distance bound interior further)
    (offset : Nat)
    {lead cs : List Char} (marked : IsMarker lead ('(' :: cs))
    (small : weight separator (lead ++ '(' :: cs) ≤ bound) :
    group further (offset + distance) (lead ++ '(' :: cs) =
      (group interior offset (lead ++ '(' :: cs)).shift distance := by
  have inner : weight separator cs < bound := by
    have opened := weight_opener separator cs
    have whole := weight_append_le separator lead ('(' :: cs)
    omega
  have place : offset + distance + byteLength lead + 1 =
      offset + byteLength lead + 1 + distance := by omega
  cases matching : Bracket.split? .parens [] ('(' :: cs) with
  | none =>
      rw [group_open further _ marked matching, group_open interior offset marked matching,
        Node.shift_group, place, shifts _ _ inner]
      rfl
  | some parts =>
      obtain ⟨content, closed⟩ := parts
      obtain ⟨inside, after, rfl, rfl, rfl⟩ := Bracket.split?_parens matching
      have part := weight_le_append separator inside (')' :: after)
      have here := group_of_split interior offset marked matching
      have there := group_of_split further (offset + distance) marked matching
      rw [List.cons_append] at here there
      rw [here, there, Node.shift_group, place, shifts _ _ (by omega)]
      rfl

theorem attached_shift (moves : Moves distance reading moved)
    (shifts : Shifts reading.separator distance bound interior further) (offset : Nat)
    {cs : List Char} (small : weight reading.separator cs < bound) :
    attached moved further (offset + distance) cs =
      (attached reading interior offset cs).shift distance := by
  rcases group_cases cs with ⟨lead, inside, rfl, marked⟩ | single
  · rw [attached_group moved further _ marked, attached_group reading interior offset marked]
    exact group_shift shifts offset marked (Nat.le_of_lt small)
  · rw [attached_single moved further _ single, attached_single reading interior offset single,
      moves.separator]
    have part := weight_le_append reading.separator (Body.split reading.separator cs).1
      (Body.split reading.separator cs).2
    rw [Body.split_append] at part
    exact shifts _ _ (by omega)

private theorem variantSpan_shift (moves : Moves distance reading moved)
    (shifts : Shifts reading.separator distance bound interior further) (variant : Variant)
    {cs : List Char} (small : weight reading.separator cs < bound) :
    variantSpan moved further (variant.shift distance) cs =
      (variantSpan reading interior variant cs).shift distance := by
  cases something : isEmptyBody cs with
  | true =>
      unfold variantSpan
      rw [if_pos something, if_pos something, Node.shift_variant, Variant.range_shift]
  | false =>
      rw [variantSpan_attached _ something, variantSpan_attached _ something]
      simp only [Variant.range_shift, Token.stop_shift, Token.start_shift, Token.text_shift,
        attached_shift moves shifts _ small, Node.range_shift, Nat.add_sub_add_right]
      rw [Node.shift_variantSpan]
      rfl

private theorem opacity?_shift (offset distance : Nat) (cs : List Char) :
    opacity? (offset + distance) cs = (opacity? offset cs).map (Opacity.shift distance) := by
  unfold opacity?
  split
  next rest =>
    generalize Bracket.split? .square [] ('[' :: rest) = matching
    cases matching with
    | none =>
        simp only [Nat.add_right_comm offset distance]
        rfl
    | some parts =>
        simp only [Nat.add_right_comm offset distance]
        rfl
  next rest _ =>
    generalize (splitRun (fun c _ => c.isDigit) rest).1 = digits
    cases digits with
    | nil => rfl
    | cons c digits =>
        simp only [Nat.add_right_comm offset distance]
        rfl
  · rfl

private theorem bracketLeaf_shift (distance : Nat) (range target stem content : Token)
    (closed important : Bool) (opacity : Option Opacity) :
    bracketLeaf (range.shift distance) (target.shift distance) (stem.shift distance)
        (content.shift distance) closed important (opacity.map (Opacity.shift distance)) =
      (bracketLeaf range target stem content closed important opacity).shift distance := by
  unfold bracketLeaf
  rw [Token.text_shift]
  split
  · rfl
  · split <;> rfl

private theorem closedLeaf_shift (offset distance : Nat) (lead : List Char) (stem : Token)
    (body : List Char) (content : Token) (rest : List Char) :
    closedLeaf (offset + distance) lead (stem.shift distance) body (content.shift distance) rest =
      (closedLeaf offset lead stem body content rest).shift distance := by
  have start : offset + distance + byteLength lead = offset + byteLength lead + distance :=
    Nat.add_right_comm _ _ _
  have behind : offset + byteLength lead + distance + byteLength body =
      offset + byteLength lead + byteLength body + distance := Nat.add_right_comm _ _ _
  have opacityAt := opacity?_shift (offset + byteLength lead + byteLength body) distance rest
  unfold closedLeaf
  simp only [Token.text_shift, start, behind, opacityAt]
  generalize opacity? (offset + byteLength lead + byteLength body) rest = found
  rw [show (if stem.text.toList.getLast? == some '-' then found.map (Opacity.shift distance)
    else none) = (if stem.text.toList.getLast? == some '-' then found else none).map
      (Opacity.shift distance) by split <;> rfl]
  generalize (if stem.text.toList.getLast? == some '-' then found else none) = opacity
  have suffix : (opacity.map (Opacity.shift distance)).map (·.range.text.toList) =
      opacity.map (·.range.text.toList) := by cases opacity <;> rfl
  rw [suffix, Token.ofChars_add, Token.ofChars_add, bracketLeaf_shift]

private theorem openBracket_shift (offset distance : Nat) (lead : List Char) (stem : Token)
    (cs content : List Char) :
    openBracket (offset + distance) lead (stem.shift distance) cs content =
      (openBracket offset lead stem cs content).shift distance := by
  unfold openBracket
  simp only [Token.stop_shift, Nat.add_right_comm _ distance 1]
  have empty : (stem.shift distance).isEmpty = stem.isEmpty := rfl
  rw [empty]
  split
  · rw [Node.shift_variant]
    rfl
  · simp only [Nat.add_right_comm offset distance]
    rw [Node.shift_leaf, ← bracketLeaf_shift]
    rfl

private theorem bracket_shift (moves : Moves distance reading moved)
    (shifts : Shifts reading.separator distance bound interior further) (offset : Nat)
    {lead stem cs : List Char} (marked : IsMarker lead (stem ++ '[' :: cs))
    (small : weight reading.separator (lead ++ stem ++ '[' :: cs) ≤ bound) :
    bracket moved further (offset + distance) (.ofChars (offset + distance + byteLength lead) stem)
        (lead ++ stem ++ '[' :: cs) =
      (bracket reading interior offset (.ofChars (offset + byteLength lead) stem)
        (lead ++ stem ++ '[' :: cs)).shift distance := by
  have start : offset + distance + byteLength lead = offset + byteLength lead + distance :=
    Nat.add_right_comm _ _ _
  cases matching : Bracket.split? .square [] ('[' :: cs) with
  | none =>
      rw [bracket_open moved further _ marked matching,
        bracket_open reading interior offset marked matching, start]
      exact openBracket_shift offset distance lead (.ofChars (offset + byteLength lead) stem) _ _
  | some parts =>
      obtain ⟨content, closed⟩ := parts
      obtain ⟨value, rest, rfl, rfl, rfl⟩ := Bracket.split?_square matching
      have content : offset + distance + byteLength lead + byteLength stem + 1 =
          offset + byteLength lead + byteLength stem + 1 + distance := by omega
      have separates := moves.separator
      rcases separated_cases reading.separator lead rest with ⟨rfl, after, rfl⟩ | plain
      · have behind := weight_separator moves.nonempty after
        have part := weight_append_le reading.separator (stem ++ '[' :: value ++ [']'])
          (reading.separator ++ after)
        have inner : weight reading.separator after < bound := by
          simp only [List.append_assoc, List.cons_append, List.nil_append] at part small
          omega
        simp only [byteLength_nil, Nat.add_zero] at content
        rw [List.nil_append, byteLength_nil, Nat.add_zero, Nat.add_zero,
          bracket_variant reading interior offset marked matching]
        rw [← separates] at marked matching ⊢
        rw [bracket_variant moved further _ marked matching, separates,
          ← variantSpan_shift moves shifts _ inner, content, Nat.add_right_comm offset distance
            (byteLength (stem ++ '[' :: value ++ [']']))]
        rfl
      · rw [bracket_leaf reading interior offset marked matching plain,
          bracket_leaf moved further _ marked matching (by rw [separates, plain]), content, start,
          Node.shift_leaf, ← closedLeaf_shift]
        rfl

private theorem node?_shift (moves : Moves distance reading moved)
    (shifts : Shifts reading.separator distance bound interior further) {offset : Nat}
    {front after : List Char} {lexeme : Lexeme}
    (scans : Lexeme.Scans reading.separator offset front after lexeme)
    (small : weight reading.separator (front ++ after) ≤ bound) :
    node? moved further (offset + distance) (front ++ after) after (lexeme.shift distance) =
      (node? reading interior offset (front ++ after) after lexeme).map (Node.shift distance) := by
  cases scans with
  | lineComment _ _ => rfl
  | blockComment => rfl
  | @variant name _ _ _ =>
      have behind := weight_separator moves.nonempty after
      have part := weight_append_le reading.separator name (reading.separator ++ after)
      rw [List.append_assoc] at small
      rw [Lexeme.shift, node?, node?, Option.map_some,
        ← variantSpan_shift moves shifts _ (by omega)]
      rfl
  | @bracket lead stem _ marked _ =>
      rw [List.append_assoc _ ['['] after] at small ⊢
      rw [Lexeme.shift, node?, node?, Option.map_some, ← Token.ofChars_add,
        Nat.add_right_comm offset (byteLength lead) distance]
      exact congrArg some (bracket_shift moves shifts offset marked small)
  | className _ _ _ _ =>
      rw [Lexeme.shift, node?, node?, Option.map_some, Node.shift_leaf]
      rfl
  | @group lead _ marked =>
      rw [List.append_assoc lead ['('] after] at small ⊢
      exact congrArg some (group_shift shifts offset marked small)
  | unhandled _ =>
      rw [Lexeme.shift, node?, node?, Option.map_some, Node.shift_leaf]
      rfl

private theorem commentStop_shift (offset distance : Nat) (cs rest : List Char) (lexeme : Lexeme) :
    commentStop (offset + distance) cs rest (lexeme.shift distance) =
      commentStop offset cs rest lexeme + distance := by
  cases lexeme with
  | blockComment opener =>
      simp only [commentStop, Lexeme.shift]
      cases Comment.closeBlock? rest with
      | none => exact Nat.add_right_comm _ _ _
      | some parts =>
          rw [Token.stop_shift]
          exact Nat.add_right_comm _ _ _
  | lineComment token => exact Lexeme.stop_shift distance (.lineComment token)
  | variant identifier separator =>
      exact Lexeme.stop_shift distance (.variant identifier separator)
  | bracket start important stem =>
      exact Lexeme.stop_shift distance (.bracket start important stem)
  | className range body important =>
      exact Lexeme.stop_shift distance (.className range body important)
  | group start important => exact Lexeme.stop_shift distance (.group start important)
  | unhandled token => exact Lexeme.stop_shift distance (.unhandled token)

private theorem turnStop_shift (offset distance : Nat) (cs rest : List Char) (lexeme : Lexeme)
    (node : Option Node) :
    turnStop (offset + distance) cs rest (lexeme.shift distance) (node.map (Node.shift distance)) =
      turnStop offset cs rest lexeme node + distance := by
  cases node with
  | none => exact commentStop_shift offset distance cs rest lexeme
  | some node =>
      simp only [turnStop, Option.map_some, Option.getD_some, Node.range_shift, Token.stop_shift]

/-! ### The same windows -/

theorem items_shift (moves : Moves distance reading moved)
    (shifts : Shifts reading.separator distance bound interior further) (framed : Framed interior)
    (offset pass : Nat) {cs : List Char} (small : weight reading.separator cs ≤ bound)
    (read : List Node) :
    items moved further (offset + distance) pass cs (read.map (Node.shift distance)) =
      (items reading interior offset pass cs read).map (Node.shift distance) := by
  induction cs generalizing offset pass read with
  | nil => rw [items_nil, items_nil, List.map_reverse]
  | cons c cs ih =>
      have later := weight_append_le reading.separator [c] cs
      have small' : weight reading.separator cs ≤ bound := Nat.le_trans later small
      have place : offset + distance + c.utf8Size = offset + c.utf8Size + distance :=
        Nat.add_right_comm _ _ _
      rw [items_cons, items_cons, place]
      split
      · exact ih _ _ small' _
      · rw [moves.separator, Lexeme.scan?_shift]
        cases scanned : Lexeme.scan? reading.separator offset (c :: cs) with
        | none => simp
        | some found =>
            obtain ⟨lexeme, after⟩ := found
            obtain ⟨taken, rest, _, takes, stops⟩ := takes_of_scan? framed scanned
            have passed : 0 < offset + byteLength taken := by
              obtain ⟨d, taken, rfl⟩ := List.exists_cons_of_ne_nil takes.ne_nil
              have positive := d.utf8Size_pos
              rw [byteLength_cons]
              omega
            obtain ⟨front, whole, scans⟩ := Lexeme.scans_of_scan? scanned
            have same := node?_shift moves shifts scans (by rw [← whole]; exact small)
            rw [← whole] at same
            simp only [Option.map_some, same]
            generalize node? reading interior offset (c :: cs) after lexeme = node at stops
            have goes := turnStop_shift offset distance (c :: cs) after lexeme node
            have joined : (node.map (Node.shift distance)).toList ++ read.map (Node.shift distance) =
                (node.toList ++ read).map (Node.shift distance) := by
              cases node <;> rfl
            rw [stops] at goes
            simp only [goes, stops, moves.endsAt _ passed, Nat.add_sub_add_right, joined]
            split
            · rw [List.map_reverse]
            · exact ih _ _ small' _

private theorem collect_shift (distance offset : Nat) (cs : List Char) (nodes : List Node) :
    collect (offset + distance) cs (nodes.map (Node.shift distance)) =
      (collect offset cs nodes).shift distance := by
  match nodes with
  | [] =>
      rfl
  | [node] => rfl
  | first :: second :: rest =>
      simp only [List.map_cons, collect, Node.shift_declaration, Node.shiftAll_eq]
      rfl

private theorem skipBlank_shift (offset distance : Nat) (cs : List Char) :
    skipBlank (offset + distance) cs =
      ((skipBlank offset cs).1 + distance, (skipBlank offset cs).2) := by
  induction cs generalizing offset with
  | nil => rfl
  | cons c cs ih =>
      rw [skipBlank, skipBlank]
      split
      · rw [Nat.add_right_comm, ih]
      · rfl

private theorem remainder_shift (offset distance : Nat) (cs : List Char) :
    remainder (offset + distance) cs = (remainder offset cs).map (Node.shift distance) := by
  unfold remainder
  rw [skipBlank_shift]
  generalize skipBlank offset cs = parts
  obtain ⟨first, rest⟩ := parts
  simp only
  generalize trimEnd rest = kept
  cases kept with
  | nil => rfl
  | cons c kept =>
      simp only [List.map_cons, List.map_nil, Node.shift_leaf]
      rfl

/-- A window is read further on as it is read here, with other levels if both suffice. -/
theorem sequence_shift (moves : Moves distance reading moved) {levels others : Nat} {cs : List Char}
    (suffice : levels = others ∨
      weight reading.separator cs < levels ∧ weight reading.separator cs < others)
    (offset : Nat) :
    sequence moved others (offset + distance) cs =
      (sequence reading levels offset cs).shift distance := by
  induction levels generalizing others cs offset with
  | zero =>
      obtain rfl : others = 0 := by omega
      rw [sequence, sequence, remainder_shift, collect_shift]
  | succ levels ih =>
      cases others with
      | zero => omega
      | succ others =>
          have shifts : Shifts reading.separator distance (weight reading.separator cs)
              (sequence reading levels) (sequence moved others) := by
            intro inner window small
            exact ih (by omega) inner
          have read := items_shift moves shifts (framed_sequence reading levels) offset 0
            (Nat.le_refl _) []
          rw [sequence, sequence, ← collect_shift, ← read, List.map_nil]

end Tree

end ClassExpr
