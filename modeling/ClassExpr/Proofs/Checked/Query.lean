import ClassExpr.Hover
import ClassExpr.Proofs.Checked.Cursor
import ClassExpr.Proofs.Checked.Window
import ClassExpr.Proofs.Text.Place
import ClassExpr.Proofs.Tree.Proper
import ClassExpr.Report.Finding

set_option autoImplicit false

/-! Queries and reports by offsets. Each of them reads a tree, locates a cursor or cuts a line out
of a source with operations that can fail, and none of them does, whatever the text, the settings
and the offsets are. -/

namespace ClassExpr

open Text

namespace Checked

def lastOffset? (mark : Char) (cs : List Char) : Option Nat :=
  match cs.reverse.dropWhile (· != mark) with
  | [] => none
  | _ :: front => some (byteLength front)

/-- The line and column of an offset. The last line is cut out of what is in front of the offset. -/
def place? (cs : List Char) (offset : Nat) : Option (Nat × Nat) := do
  let before := (slice? cs 0 (min offset (byteLength cs))).getD cs
  let lineStart := (lastOffset? '\n' before).elim 0 (· + 1)
  let line ← slice? before lineStart (byteLength before)
  some (before.count '\n' + 1, line.length + 1)

def hover? (settings : Settings) (text : String) (position : Nat) : Option (Option Hover) :=
  if text.utf8ByteSize ≤ position then some none
  else do
    let tree ← readRange? settings text 0 text.utf8ByteSize (some position)
    some (Hover.resolve position {} tree)

def completion? (settings : Settings) (text : String) (cursor : Nat) : Option Completion := do
  let position ← floorBoundary? text.toList cursor
  match ← modeAt? text position with
  | .lineComment | .blockComment => some { inComment := true }
  | .quoted _ => do
      let tree ← readRange? settings text 0 text.utf8ByteSize (some position)
      let found ← locate? position {} tree
      some { found with inString := true }
  | .code => do
      let tree ← readRange? settings text 0 text.utf8ByteSize (some position)
      locate? position {} tree

def spread? (settings : Settings) (text : String) : Option Spread := do
  let tree ← readRange? settings text 0 text.utf8ByteSize none
  some (Spread.ofNode tree)

def finding? (source : List Char) (kind : FindingKind) (fault : Fault) : Option Finding := do
  let (line, column) ← place? source fault.target.start
  some { Finding.ofFault source kind fault with line, column }

/-- The report on what flattening has found in a source. Items that were not recognised are taken
off the count of items. -/
def report? (source : String) (spread : Spread) : Option FileReport := do
  let ordered := (FileReport.regions spread).mergeSort
    (fun left right => left.2.target.start ≤ right.2.target.start)
  let findings ← ordered.mapM (fun (kind, fault) => finding? source.toList kind fault)
  let items ← sub? spread.items.length spread.unknown.length
  some { items, findings }

private theorem lastOffset?_newline (cs : List Char) :
    ∃ lines, cs = lines ++ lastLine cs ∧
      (lastOffset? '\n' cs).elim 0 (· + 1) = byteLength lines := by
  obtain ⟨lines, whole, rest, ended⟩ := exists_lines cs
  refine ⟨lines, whole, ?_⟩
  rw [lastOffset?, rest]
  rcases ended with rfl | ⟨front, rfl⟩
  · rfl
  · rw [List.reverse_append, byteLength_append]
    exact congrArg (· + 1) (byteLength_reverse front)

private theorem place?_eq (cs : List Char) (offset : Nat) :
    place? cs offset = some (place cs offset) := by
  have before : (slice? cs 0 (min offset (byteLength cs))).getD cs =
      if byteLength (splitBytes offset cs).1 = offset then (splitBytes offset cs).1 else cs := by
    have whole := splitBytes_append offset cs
    have bound := byteLength_splitBytes_le offset cs
    have sizes := congrArg byteLength whole
    rw [byteLength_append] at sizes
    by_cases boundary : byteLength (splitBytes offset cs).1 = offset
    · have front : Occurs cs 0 (splitBytes offset cs).1 := ⟨[], _, whole.symm, rfl⟩
      have cut := front.slice?_eq
      rw [Nat.zero_add, boundary] at cut
      rw [if_pos boundary, Nat.min_eq_left (by omega), cut, Option.getD_some]
    · rw [if_neg boundary]
      by_cases inside : offset ≤ byteLength cs
      · have split : isBoundary cs offset = false := beq_eq_false_iff_ne.2 boundary
        rw [Nat.min_eq_left inside, slice?, split, Bool.and_false]
        rfl
      · have cut := (Occurs.refl cs).slice?_eq
        rw [Nat.zero_add] at cut
        rw [Nat.min_eq_right (by omega), cut, Option.getD_some]
  have placed : place cs offset = endPlace (if byteLength (splitBytes offset cs).1 = offset then
      (splitBytes offset cs).1 else cs) := by
    unfold place
    simp only [apply_ite endPlace]
  unfold place?
  rw [before, placed]
  generalize (if byteLength (splitBytes offset cs).1 = offset then (splitBytes offset cs).1
    else cs) = front
  obtain ⟨lines, whole, start⟩ := lastOffset?_newline front
  have occurs : Occurs front (byteLength lines) (lastLine front) :=
    ⟨lines, [], by rw [List.append_nil, ← whole], rfl⟩
  have stops : byteLength lines + byteLength (lastLine front) = byteLength front := by
    rw [← byteLength_append, ← whole]
  have line := occurs.slice?_eq
  rw [stops] at line
  simp only [start, line, Option.bind_eq_bind, Option.bind_some, endPlace_eq]

private theorem finding?_eq (source : List Char) (kind : FindingKind) (fault : Fault) :
    finding? source kind fault = some (Finding.ofFault source kind fault) := by
  unfold finding?
  rw [place?_eq]
  rfl

private theorem hover?_eq (settings : Settings) (text : String) (position : Nat) :
    hover? settings text position = some (Hover.atPosition? settings text position) := by
  unfold hover? Hover.atPosition?
  rw [readRange?_eq]
  split <;> rfl

private theorem completion?_eq (settings : Settings) (text : String) (cursor : Nat) :
    completion? settings text cursor = some (Completion.atCursor settings text cursor) := by
  have located : ∀ position, locate? position {}
      (Tree.readRange settings text 0 text.utf8ByteSize (some position)) =
        some (Completion.locate position {} (Tree.read settings text (some position))) := by
    intro position
    have proper := Tree.allProper_sequence ⟨settings.separator.toList, some position⟩
      (settings.maxDepth + 1) 0 text.toList
    rw [← Tree.read_eq settings text (some position)] at proper
    exact locate?_eq position {} _ proper
  unfold completion? Completion.atCursor
  simp only [floorBoundary?_eq, Option.bind_eq_bind, Option.bind_some,
    modeAt?_eq text (isBoundary_floorBoundary text.toList cursor), readRange?_eq, located]
  cases Completion.modeAt text.toList (floorBoundary text.toList cursor) <;> rfl

private theorem spread?_eq (settings : Settings) (text : String) :
    spread? settings text = some (Spread.ofText settings text) := by
  unfold spread?
  rw [readRange?_eq]
  rfl

private theorem report?_eq (source : String) (spread : Spread) :
    report? source spread = some (FileReport.ofSpread source spread) := by
  have fewer : spread.unknown.length ≤ spread.items.length := List.length_filter_le _ _
  have found : ∀ regions : List (FindingKind × Fault),
      regions.mapM (fun (kind, fault) => finding? source.toList kind fault) =
        some (regions.map fun (kind, fault) => Finding.ofFault source.toList kind fault) := by
    intro regions
    simp only [finding?_eq]
    exact List.mapM_pure
  unfold report? FileReport.ofSpread
  simp only [found, sub?_eq fewer, Option.bind_eq_bind, Option.bind_some]

/-- Reading between any two offsets, what is under a position, the context of a cursor, flattening
and reporting never come to an operation that fails: every cut is in order and between characters,
every index is in front of an end, and nothing is taken off a smaller number. -/
theorem never_fails (settings : Settings) (text : String) :
    (∀ start stop limit, readRange? settings text start stop limit =
      some (Tree.readRange settings text start stop limit)) ∧
    (∀ position, hover? settings text position =
      some (Hover.atPosition? settings text position)) ∧
    (∀ cursor, completion? settings text cursor =
      some (Completion.atCursor settings text cursor)) ∧
    spread? settings text = some (Spread.ofText settings text) ∧
    ∀ spread, report? text spread = some (FileReport.ofSpread text spread) :=
  ⟨readRange?_eq settings text, hover?_eq settings text, completion?_eq settings text,
    spread?_eq settings text, report?_eq text⟩

end Checked

end ClassExpr
