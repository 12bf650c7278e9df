import ClassExpr.Text.Blank
import ClassExpr.Text.Sweep
import ClassExpr.Text.Utf8

set_option autoImplicit false

/-! Extent of the body of a variant that is not directly followed by a group. A body is one item,
which may itself be a chain of variants: it ends at an ASCII blank or a line comment, outside of
brackets and of a group; quotes count inside brackets only; block comments are passed over. -/

namespace ClassExpr.Body

open Text

inductive State where
  | plain
  | comment
  | bracket (depth : Nat)
  | quoted (mark : Char) (depth : Nat)
  | group (depth : Nat)
  /-- Right after a closed bracket or group, where a marker ends the body. -/
  | closed
  | done
deriving Repr, DecidableEq

/-- How a body is delimited: its separator, and whether it starts between two characters. -/
structure Rule where
  separator : List Char
  aligned : Bool := true
deriving Repr, DecidableEq

/-- A parenthesis opens a group at the start of the body or after a separator, with at most one
marker in between. -/
def opensGroup (rule : Rule) (before : List Char) : Bool :=
  let before := if before.head? == some '!' then before.tail else before
  (rule.aligned && before.isEmpty) || rule.separator.reverse.isPrefixOf before

def movePlain (rule : Rule) (before : List Char) (c : Char) (ahead : Option Char) : Move State :=
  if isAsciiBlank c then .halt
  else if c == '[' then .advance (.bracket 1)
  else if c == '(' && opensGroup rule before then .advance (.group 1)
  else if c == '/' && ahead == some '/' then .halt
  else if c == '/' && ahead == some '*' then .skip .comment
  else .advance .plain

def move (rule : Rule) (state : State) (before : List Char) (c : Char) (ahead : Option Char) :
    Move State :=
  match state with
  | .plain => movePlain rule before c ahead
  | .comment => if c == '*' && ahead == some '/' then .skip .plain else .advance .comment
  | .bracket depth =>
      if c == '[' then .advance (.bracket (depth + 1))
      else if c == ']' then .advance (if depth ≤ 1 then .closed else .bracket (depth - 1))
      else if c == '\'' || c == '"' then .advance (.quoted c depth)
      else .advance state
  | .quoted mark depth =>
      if c == '\\' then .skip state
      else if c == mark then .advance (.bracket depth)
      else .advance state
  | .group depth =>
      if c == '(' then .advance (.group (depth + 1))
      else if c == ')' then .advance (if depth ≤ 1 then .closed else .group (depth - 1))
      else .advance state
  | .closed => if c == '!' then .advance .done else movePlain rule before c ahead
  | .done => .halt

def split (separator : List Char) (cs : List Char) : List Char × List Char :=
  let swept := sweep (move ⟨separator, true⟩) .plain [] cs
  (swept.before.reverse, swept.rest)

/-- The offset where the body that starts at `start` ends, looking no further than `stop`. -/
def findEnd (text : String) (start stop : Nat) (separator : String) : Nat :=
  let cs := text.toList
  let window := (splitBytes stop cs).1
  let body := dropBefore start window
  let aligned := byteLength window - byteLength body == start
  let swept := sweep (move ⟨separator.toList, aligned⟩) .plain [] body
  if swept.rest.isEmpty && swept.state != .done then min stop (byteLength cs)
  else byteLength window - byteLength swept.rest

end ClassExpr.Body
