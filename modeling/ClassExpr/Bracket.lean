import ClassExpr.Text.Sweep
import ClassExpr.Text.Utf8
import ClassExpr.Text.Word

set_option autoImplicit false

/-! Matching of brackets. Nesting counts outside quoted strings, comments and the argument of a
`url(…)` call, whose own two parentheses do not count either. The opener is read like any other
character, so the search starts at depth zero. -/

namespace ClassExpr.Bracket

open Text

structure Pair where
  opener : Char
  closer : Char
deriving Repr, DecidableEq

def Pair.parens : Pair := ⟨'(', ')'⟩

def Pair.square : Pair := ⟨'[', ']'⟩

/-- How much of `url(` has been read; quotes and comments leave it as it is. -/
inductive Call where
  | none
  | u
  | ur
  | url
  | argument
deriving Repr, DecidableEq

/-- A `u` starts a call where no word character comes before it. -/
def Call.next (before : List Char) (c : Char) : Call → Call
  | .argument => if c == ')' then .none else .argument
  | .u => if c == 'r' then .ur else start
  | .ur => if c == 'l' then .url else start
  | .url => if c == '(' then .argument else start
  | .none => start
where
  start : Call := if c == 'u' && !(before.head?.any isAsciiWord) then .u else .none

inductive Mode where
  | code
  | quoted (mark : Char)
  | lineComment
  | blockComment
deriving Repr, DecidableEq

structure State where
  mode : Mode
  call : Call
  depth : Nat
deriving Repr, DecidableEq

def State.initial : State := ⟨.code, .none, 0⟩

def isQuote (c : Char) : Bool :=
  c == '\'' || c == '"'

def moveCode (pair : Pair) (state : State) (before : List Char) (c : Char) : Move State :=
  let call := state.call.next before c
  let mode := if isQuote c then .quoted c else .code
  if call = .argument then .advance ⟨mode, call, state.depth⟩
  else if c == pair.opener then .advance ⟨mode, call, state.depth + 1⟩
  else if c == pair.closer then
    if state.depth ≤ 1 then .halt else .advance ⟨mode, call, state.depth - 1⟩
  else .advance ⟨mode, call, state.depth⟩

/-- Halts at the closer that brings the depth back to zero. -/
def move (pair : Pair) (state : State) (before : List Char) (c : Char) (ahead : Option Char) :
    Move State :=
  match state.mode with
  | .quoted mark =>
      if c == '\\' then .skip state
      else if c == mark then .advance { state with mode := .code }
      else .advance state
  | .lineComment => if c == '\n' then .advance { state with mode := .code } else .advance state
  | .blockComment =>
      if c == '*' && ahead == some '/' then .skip { state with mode := .code } else .advance state
  | .code =>
      if state.call = .argument then
        if isQuote c then .advance { state with mode := .quoted c }
        else .advance { state with call := state.call.next before c }
      else if c == '/' && ahead == some '/' then .skip { state with mode := .lineComment }
      else if c == '/' && ahead == some '*' then .skip { state with mode := .blockComment }
      else moveCode pair state before c

/-- Splits a text that starts with an opener, after `before`, in front of the matching closer. The
opener belongs to the first part and the closer to the second. -/
def split? (pair : Pair) (before cs : List Char) : Option (List Char × List Char) :=
  let swept := sweep (move pair) .initial before cs
  if swept.rest.isEmpty then none
  else some ((swept.before.take (swept.before.length - before.length)).reverse, swept.rest)

/-- The offset of the closer that matches the opener at `opener`, looking no further than `stop`;
none where there is no opener. -/
def findMatch (text : String) (opener stop : Nat) (pair : Pair) : Option Nat :=
  let window := (splitBytes stop text.toList).1
  let (before, cs) := splitBytes opener window
  if byteLength before = opener && cs.head? == some pair.opener then
    (split? pair before.reverse cs).map (fun (_, rest) => byteLength window - byteLength rest)
  else none

end ClassExpr.Bracket
