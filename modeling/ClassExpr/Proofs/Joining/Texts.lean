import ClassExpr.Proofs.Joining.Node
import ClassExpr.Proofs.Settings
import ClassExpr.Proofs.Spread
import ClassExpr.Proofs.Tree.Shift
import ClassExpr.Proofs.Typing.Open

set_option autoImplicit false

/-! Writing one text below another. A text whose items are all closed, and that leaves no comment
open, is read alike whatever stands in the lines below it, and what stands there is read as it is
alone; so what is broken there puts nothing out of place above. -/

namespace ClassExpr

open Text

/-! ### Reading on behind a line feed -/

namespace Tree

variable {reading : Reading} {interior : Interior}

/-- Reading a text ends in a block comment that is never closed. -/
def LeavesOpen (settings : Settings) (text : String) : Prop :=
  let window : Window := ⟨0, text.utf8ByteSize, (read settings text none).items⟩
  ∃ start body, window.Visits text start ∧ window.Delimits text start ('/' :: '*' :: body) ∧
    ¬Comment.closer <:+: body

/-- No comment is left open in a text where a closer is behind every opener. -/
theorem not_leavesOpen {settings : Settings} {text : String}
    (closed : ∀ count < text.toList.length, Comment.startsBlock (text.toList.drop count) = true →
      Comment.closer <:+: text.toList.drop (count + 2)) : ¬LeavesOpen settings text := by
  rintro ⟨start, body, _, ⟨rest, ⟨before, after, whole, place⟩, stops, spans⟩, opened⟩
  have behind : rest = [] := spans.rest_eq_nil opened
  have ending : after = [] := by
    have size := congrArg byteLength whole
    rw [byteLength_toList, byteLength_append, byteLength_append, place] at size
    cases after with
    | nil => rfl
    | cons c after =>
        have positive := c.utf8Size_pos
        rw [byteLength_cons] at size
        dsimp only at stops
        omega
  rw [behind, ending, List.append_nil, List.append_nil] at whole
  have later := closed before.length
  rw [whole, ← List.drop_drop, List.drop_left, List.length_append] at later
  exact opened (later (Nat.lt_add_of_pos_right (Nat.succ_pos _)) rfl)

/-- What a turn of the loop takes is finished: a closed node, or a comment that is closed unless it
ends with its line. -/
def Finished (taken : List Char) : Option Node → Prop
  | none => ∀ body, taken = '/' :: '*' :: body → Comment.closer <:+: body
  | some node => node.isSealed = true

/-- Where a window leaves no comment open and no item unclosed, each turn of the loop takes
something finished, and goes on from behind it. -/
theorem Takes.finished {text : String} {window : Window} {offset : Nat} {taken rest : List Char}
    {node : Option Node} (takes : Takes reading interior offset taken rest node)
    (ended : ∀ start body, window.Visits text start →
      window.Delimits text start ('/' :: '*' :: body) → Comment.closer <:+: body)
    (closed : ∀ node ∈ window.items, node.isSealed = true)
    (occurs : Occurs text.toList offset (taken ++ rest))
    (stops : offset + byteLength (taken ++ rest) = window.stop)
    (visits : window.Visits text offset) (isItem : node.toList ⊆ window.items) :
    Finished taken node ∧ window.Visits text (offset + byteLength taken) := by
  cases node with
  | none =>
      have delimits : window.Delimits text offset taken := ⟨rest, occurs, stops, takes⟩
      exact ⟨fun body same => ended offset body visits (same ▸ delimits),
        Window.Visits.comment visits delimits⟩
  | some node =>
      have member := isItem List.mem_cons_self
      have range : node.range = .ofChars offset taken := NodeAt.range_eq takes
      have visited := Window.Visits.item member (by rwa [range])
      rw [range, Token.stop_ofChars] at visited
      exact ⟨closed node member, visited⟩

/-- A turn of the loop that takes something finished takes the same in front of a line feed. -/
theorem turn_lineFeed (framed : Framed interior)
    (proper : ∀ offset cs, (interior offset cs).AllProper) (free : '\n' ∉ reading.separator)
    (endless : reading.limit = none) (more : List Char) (offset : Nat) {c : Char} {cs : List Char}
    (solid : isBlank c = false) :
    ∃ taken rest node, c :: cs = taken ++ rest ∧ Takes reading interior offset taken rest node ∧
      items reading interior offset 0 (c :: cs) [] =
        node.toList ++ items reading interior (offset + byteLength taken) 0 rest [] ∧
      (Finished taken node →
        items reading interior offset 0 (c :: cs ++ '\n' :: more) [] =
          node.toList ++
            items reading interior (offset + byteLength taken) 0 (rest ++ '\n' :: more) []) := by
  have endsAt : ∀ stop, reading.endsAt stop = false := fun stop => by rw [Reading.endsAt, endless]; rfl
  have found : (Lexeme.scan? reading.separator offset (c :: cs)).isSome = true :=
    Lexeme.scan?_isSome solid
  obtain ⟨⟨lexeme, after⟩, scanned⟩ := Option.isSome_iff_exists.1 found
  obtain ⟨taken, rest, whole, takes, _, turn⟩ :=
    @items_turn reading _ framed offset _ _ _ _ [] solid scanned
  simp only [endsAt, Bool.false_eq_true, if_false] at turn
  cases begun : node? reading interior offset (c :: cs) after lexeme with
  | none =>
      rw [begun] at takes turn
      refine ⟨taken, rest, none, whole, takes, turn, fun finished => ?_⟩
      rw [whole, List.append_assoc, items_comment framed (Comment.Spans.lineFeed more takes finished),
        endsAt, if_neg Bool.false_ne_true]
      rfl
  | some node =>
      rw [begun] at takes turn
      refine ⟨taken, rest, some node, whole, takes, by rw [turn, items_read]; rfl, fun finished => ?_⟩
      obtain ⟨front, parts, scans⟩ := Lexeme.scans_of_scan? scanned
      rw [parts] at begun
      have again := node?_lineFeed more framed proper free scans begun finished
      obtain ⟨longer, later, same, takesAgain, _, turn⟩ := @items_turn reading _ framed offset c
        (cs ++ '\n' :: more) _ _ [] solid (Lexeme.scan?_lineFeed more free scanned)
      rw [← parts, List.cons_append] at again
      rw [again] at takesAgain turn
      obtain rfl : longer = taken :=
        Token.ofChars_inj ((NodeAt.range_eq takesAgain).symm.trans (NodeAt.range_eq takes))
      obtain rfl : later = rest ++ '\n' :: more := by
        rw [← List.append_cancel_left_eq longer, ← same, ← List.append_assoc, ← whole]
        rfl
      rw [endsAt, if_neg Bool.false_ne_true] at turn
      exact turn.trans (items_read _ _ _ _ _ _)

/-- The items of a window that are all closed are read alike in front of a line feed, and what is
behind it is read on its own. -/
theorem items_lineFeed {text : String} {window : Window} (framed : Framed interior)
    (proper : ∀ offset cs, (interior offset cs).AllProper) (free : '\n' ∉ reading.separator)
    (endless : reading.limit = none)
    (ended : ∀ start body, window.Visits text start →
      window.Delimits text start ('/' :: '*' :: body) → Comment.closer <:+: body)
    (closed : ∀ node ∈ window.items, node.isSealed = true) (more : List Char) {offset : Nat}
    {cs : List Char} (occurs : Occurs text.toList offset cs)
    (stops : offset + byteLength cs = window.stop) (visits : window.Visits text offset)
    (isItem : items reading interior offset 0 cs [] ⊆ window.items) :
    items reading interior offset 0 (cs ++ '\n' :: more) [] =
      items reading interior offset 0 cs [] ++
        items reading interior (offset + byteLength cs + 1) 0 more [] := by
  -- on the length, since a turn takes as much of the window as its node does
  induction counted : cs.length using Nat.strongRecOn generalizing offset cs with
  | ind size ih =>
      cases cs with
      | nil => exact items_blank (by decide)
      | cons c cs =>
          cases white : isBlank c with
          | true =>
              rw [items_blank white] at isItem ⊢
              rw [List.cons_append, items_blank white, byteLength_cons, ← Nat.add_assoc]
              rw [byteLength_cons, ← Nat.add_assoc] at stops
              have blank : Occurs text.toList offset ([c] ++ cs) := occurs
              exact ih cs.length (by rw [← counted]; simp) occurs.tail stops
                (Window.Visits.blank visits blank.left white) isItem rfl
          | false =>
              obtain ⟨taken, rest, node, whole, takes, here, there⟩ :=
                @turn_lineFeed reading _ framed proper free endless more offset _ cs white
              have shorter : rest.length < size := by
                have positive := List.length_pos_iff.2 takes.ne_nil
                rw [← counted, whole, List.length_append]
                omega
              have behind : offset + byteLength (c :: cs) =
                  offset + byteLength taken + byteLength rest := by
                rw [whole, byteLength_append, Nat.add_assoc]
              rw [whole] at occurs
              rw [here] at isItem
              obtain ⟨finished, visited⟩ := takes.finished ended closed occurs (by rw [← whole, stops])
                visits fun node isNode => isItem (List.mem_append_left _ isNode)
              rw [there finished, here, behind, List.append_assoc]
              congr 1
              exact ih rest.length shorter occurs.right (behind.symm.trans stops) visited
                (fun inner member => isItem (List.mem_append_right _ member)) rfl

private theorem items_whole (settings : Settings) (text : String) :
    let reading : Reading := ⟨settings.separator.toList, none⟩
    (read settings text none).items =
      items reading (sequence reading settings.maxDepth) 0 0 text.toList [] := by
  intro reading
  obtain ⟨nodes, found, itemsAt⟩ := @itemsAt_items reading _
    (framed_sequence reading settings.maxDepth) 0 text.toList []
  rw [read_eq, sequence, found, List.reverse_nil, List.nil_append]
  exact items_collect fun item member => (itemsAt.ordered.1 item member).1

end Tree

/-! ### What flattening finds -/

namespace Entry

def found (node : Node) : List Entry :=
  (gather {} [] node).reverse

private theorem gatherAll_items (nodes : List Node) :
    (gatherAll {} [] nodes).reverse = nodes.flatMap found := by
  induction nodes with
  | nil => rfl
  | cons node rest ih =>
      rw [gatherAll, gatherAll_found, List.reverse_append, ih, List.flatMap_cons]
      rfl

private theorem gather_items (node : Node) :
    (gather {} [] node).reverse = node.items.flatMap found := by
  cases node with
  | declaration range children =>
      rw [gather]
      exact gatherAll_items children
  | variantSpan _ _ _ => exact (List.flatMap_singleton ..).symm
  | group _ _ _ _ => exact (List.flatMap_singleton ..).symm
  | leaf _ => exact (List.flatMap_singleton ..).symm

private theorem found_shift (distance : Nat) (node : Node) :
    found (node.shift distance) = (found node).map (under [] distance) := by
  rw [found, found, List.map_reverse, ← gather_under]
  rfl

private theorem isSealed_of_silent (scope : Scope) : (node : Node) → node.isDelimited = true →
    (∀ entry ∈ gather scope [] node, entry.notClosed? = none) → node.isSealed = true
  | .leaf leaf, _, silent => by
      rw [gather, List.forall_mem_singleton, ofLeaf] at silent
      split at silent
      next closed => exact closed
      · cases silent
  | .group range child false important, _, silent => by
      have reported := silent (.notClosed (fault (scope.mark important) range .group)) (by simp [gather])
      cases reported
  | .group range child true important, _, _ => rfl
  | .variantSpan range variant (some (.group inner child closed important)), _, silent => by
      rw [gather] at silent
      split at silent
      · rw [List.forall_mem_singleton] at silent
        cases silent
      · exact isSealed_of_silent (scope.enter variant) (.group inner child closed important) rfl silent

end Entry

namespace Spread

private theorem ofText_items (settings : Settings) (text : String) :
    ofText settings text = ofEntries ((Tree.read settings text none).items.flatMap Entry.found) := by
  rw [ofText, ofNode, Entry.gather_items]

private theorem ofEntries_append {entries later : List Entry}
    (faultless : (ofEntries entries).hasFaults = false) :
    ofEntries (entries ++ later) =
      { ofEntries later with items := (ofEntries entries).items ++ (ofEntries later).items } := by
  simp only [hasFaults, ofEntries, Bool.or_eq_false_iff, Bool.not_eq_false', List.isEmpty_iff]
    at faultless
  obtain ⟨⟨emptyGroup, emptyVariants⟩, notClosed⟩ := faultless
  simp only [ofEntries, List.filterMap_append, emptyGroup, emptyVariants, notClosed, List.nil_append]

end Spread

/-! ### One text below another -/

namespace Tree

private theorem isSealed_of_faultless {settings : Settings} {text : String}
    (faultless : (Spread.ofText settings text).hasFaults = false)
    (delimited : ∀ node ∈ (read settings text none).items, node.isDelimited = true) :
    ∀ node ∈ (read settings text none).items, node.isSealed = true := by
  intro node member
  apply Entry.isSealed_of_silent {} node (delimited node member)
  intro entry found
  rw [Spread.ofText_items] at faultless
  simp only [Spread.hasFaults, Spread.ofEntries, Bool.or_eq_false_iff, Bool.not_eq_false',
    List.isEmpty_iff] at faultless
  apply List.filterMap_eq_nil_iff.1 faultless.2
  exact List.mem_flatMap.2 ⟨node, member, List.mem_reverse.2 found⟩

/-- A text is read on its own below closed items. -/
theorem items_joined {settings : Settings} (valid : settings.fault? = none) {text : String}
    (closed : ∀ node ∈ (read settings text none).items, node.isSealed = true)
    (ended : ¬LeavesOpen settings text) (below : String) :
    (read settings (text ++ "\n" ++ below) none).items =
      (read settings text none).items ++
        (read settings below none).items.map (Node.shift (text.utf8ByteSize + 1)) := by
  have sound := Settings.separator_sound valid
  have free : '\n' ∉ settings.separator.toList := by
    intro member
    cases sound.solid '\n' member
  let reading : Reading := ⟨settings.separator.toList, none⟩
  let distance := text.utf8ByteSize + 1
  have framed := framed_sequence reading settings.maxDepth
  have proper := allProper_sequence reading settings.maxDepth
  let window : Window := ⟨0, text.utf8ByteSize, (read settings text none).items⟩
  have commented : ∀ start body, window.Visits text start →
      window.Delimits text start ('/' :: '*' :: body) → Comment.closer <:+: body := by
    intro start body visits delimits
    apply Classical.byContradiction
    exact fun opened => ended ⟨start, body, visits, delimits, opened⟩
  have parted : items reading (sequence reading settings.maxDepth) 0 0
      (text.toList ++ '\n' :: below.toList) [] =
        items reading (sequence reading settings.maxDepth) 0 0 text.toList [] ++
          items reading (sequence reading settings.maxDepth) (0 + byteLength text.toList + 1) 0
            below.toList [] := by
    apply items_lineFeed framed proper free rfl commented closed below.toList
      (Occurs.refl text.toList) _ Window.Visits.start
    · intro node member
      rwa [show window.items = _ from items_whole settings text]
    · rw [byteLength_toList, Nat.zero_add]
  have moves : Moves distance reading reading := ⟨rfl, sound.nonempty, fun _ _ => rfl⟩
  have shifts : Shifts reading.separator distance (weight reading.separator below.toList)
      (sequence reading settings.maxDepth) (sequence reading settings.maxDepth) :=
    fun offset cs _ => sequence_shift moves (Or.inl rfl) offset
  have moved := items_shift moves shifts framed 0 0 (Nat.le_refl _) []
  have whole : (text ++ "\n" ++ below).toList = text.toList ++ '\n' :: below.toList := by simp
  rw [byteLength_toList, Nat.add_assoc] at parted
  rw [items_whole, items_whole, items_whole, whole]
  exact parted.trans (congrArg _ moved)

/-- Below a text without faults, whose items are delimited and that leaves no comment open, another
text is read as it is alone, but for its offsets. So the items of the two texts follow each other,
and the faults are those of the text below. -/
theorem read_joined {settings : Settings} (valid : settings.fault? = none) {text : String}
    (faultless : (Spread.ofText settings text).hasFaults = false)
    (ended : ¬LeavesOpen settings text)
    (delimited : ∀ node ∈ (read settings text none).items, node.isDelimited = true)
    (below : String) :
    let distance := text.utf8ByteSize + 1
    let behind := (Spread.ofText settings below).under [] distance
    (read settings (text ++ "\n" ++ below) none).items =
        (read settings text none).items ++
          (read settings below none).items.map (Node.shift distance) ∧
      Spread.ofText settings (text ++ "\n" ++ below) =
        { behind with items := (Spread.ofText settings text).items ++ behind.items } := by
  intro distance behind
  have nodes := items_joined valid (isSealed_of_faultless faultless delimited) ended below
  refine ⟨nodes, ?_⟩
  have shifted : ((read settings below none).items.map (Node.shift distance)).flatMap Entry.found =
      ((read settings below none).items.flatMap Entry.found).map (Entry.under [] distance) := by
    rw [List.flatMap_map, List.map_flatMap]
    simp only [Entry.found_shift]
  rw [Spread.ofText_items] at faultless
  rw [Spread.ofText_items, nodes, List.flatMap_append, Spread.ofEntries_append faultless, shifted,
    Spread.ofEntries_under, ← Spread.ofText_items, ← Spread.ofText_items]

/-- Groups, an opacity and comments, above a line with a group that is never closed. -/
theorem read_joined_broken :
    let joined := "!(m-1)! hover:(mt-1) bg-[red]/50 /* a */ x // b" ++ "\n" ++ "y (z"
    (read {} joined none).items.length = 6 ∧
      (Spread.ofText {} joined).items.map (·.target.text) =
        ["m-1", "mt-1", "bg-[red]/50", "x", "y"] ∧
      (Spread.ofText {} joined).notClosed.map (·.target) = [⟨50, "(z"⟩] := by
  intro joined
  obtain ⟨nodes, spread⟩ := @read_joined {} (by decide)
    "!(m-1)! hover:(mt-1) bg-[red]/50 /* a */ x // b" (by decide +kernel)
    (not_leavesOpen (by decide +kernel)) (by decide +kernel) "y (z"
  rw [nodes, spread]
  decide +kernel

end Tree

end ClassExpr
