import ClassExpr.Scope
import ClassExpr.Tree

set_option autoImplicit false

/-! The context of a cursor. A cursor lies between characters, so it belongs to the token that
ends at it rather than to the one that starts there. Whether it is in a comment or in a string is
read off the raw text: comments count outside of square brackets only, and quotes inside of them
only. -/

namespace ClassExpr

open Text

structure Completion where
  /-- The token to be completed. -/
  target : Option Token := none
  /-- The part of the target before the cursor. -/
  word : Option Token := none
  kind : Option Kind := none
  variants : List Token := []
  important : Bool := false
  inComment : Bool := false
  inString : Bool := false
  prop : Option Token := none
  value : Option Token := none
deriving Repr, DecidableEq

namespace Completion

inductive Mode where
  | code
  | lineComment
  | blockComment
  | quoted (mark : Char)
deriving Repr, DecidableEq

structure Reader where
  mode : Mode
  depth : Nat
  budget : Nat
deriving Repr, DecidableEq

def moveMode (mode : Mode) (depth : Nat) (c : Char) (ahead : Option Char) : Move (Mode × Nat) :=
  match mode with
  | .code =>
      if c == '/' && depth = 0 && ahead == some '/' then .skip (.lineComment, depth)
      else if c == '/' && depth = 0 && ahead == some '*' then .skip (.blockComment, depth)
      else if c == '[' then .advance (.code, depth + 1)
      else if c == ']' then .advance (.code, depth - 1)
      else if (c == '\'' || c == '"') && 0 < depth then .advance (.quoted c, depth)
      else .advance (.code, depth)
  | .lineComment => .advance (if c == '\n' then .code else .lineComment, depth)
  | .blockComment =>
      if c == '*' && ahead == some '/' then .skip (.code, depth)
      else .advance (.blockComment, depth)
  | .quoted mark =>
      if c == '\\' then .skip (mode, depth)
      else .advance (if c == mark then .code else mode, depth)

theorem moveMode_ne_halt (mode : Mode) (depth : Nat) (c : Char) (ahead : Option Char) :
    moveMode mode depth c ahead ≠ .halt := by
  intro moved
  unfold moveMode at moved
  split at moved
  all_goals repeat' first | cases moved | split at moved

/-- Halts at the cursor, but sees the character after it. -/
def move (reader : Reader) (_ : List Char) (c : Char) (ahead : Option Char) : Move Reader :=
  if reader.budget = 0 then .halt
  else
    match moveMode reader.mode reader.depth c ahead with
    | .halt => .halt
    | .advance (mode, depth) => .advance ⟨mode, depth, reader.budget - c.utf8Size⟩
    | .skip (mode, depth) =>
        .skip ⟨mode, depth, reader.budget - c.utf8Size - (ahead.map Char.utf8Size).getD 0⟩

def modeAt (cs : List Char) (position : Nat) : Mode :=
  (sweep move ⟨.code, 0, position⟩ [] cs).state.mode

def ofScope (scope : Scope) : Completion :=
  { variants := scope.variants, important := scope.important }

def ofLeaf (position : Nat) (scope : Scope) (leaf : Leaf) : Completion :=
  { target := some leaf.target
    word := some (leaf.target.upTo position)
    kind := some leaf.kind
    variants := scope.variants
    important := scope.important || leaf.important
    prop := leaf.prop?
    value := leaf.content? }

/-- A cursor inside the text of a variant completes its identifier. -/
def ofVariant (position : Nat) (scope : Scope) (variant : Variant) : Completion :=
  { ofScope scope with
    target := some variant.identifier
    word := some (variant.identifier.upTo position)
    kind := some variant.kind }

/-- Whether a cursor is between the parentheses of a group. One that is not closed has no end. -/
def isInside (range : Token) (closed : Bool) (position : Nat) : Bool :=
  let cs := range.text.toList
  let opener := range.start + (cs.head? == some '!').toNat
  let closer := range.stop - (if [')', '!'].isSuffixOf cs then 2 else 1)
  opener < position && (!closed || position ≤ closer)

mutual

def locate (position : Nat) (scope : Scope) : Node → Completion
  | .declaration _ children => locateFirst position scope children
  | .variantSpan range variant none =>
      if !range.touches position || position ≤ variant.range.start then ofScope scope
      else if position < variant.range.stop then ofVariant position scope variant
      else ofScope (scope.enter variant)
  | .variantSpan range variant (some child) =>
      if !range.touches position || position ≤ variant.range.start then ofScope scope
      else if position < variant.range.stop then ofVariant position scope variant
      else
        let inner := scope.enter variant
        if variant.range.stop < position && child.range.touches position then
          locate position inner child
        else ofScope inner
  | .group range child closed important =>
      if !range.touches position || !isInside range closed position then ofScope scope
      else
        let inner := scope.mark important
        if child.range.touches position then locate position inner child else ofScope inner
  | .leaf leaf =>
      if leaf.range.touches position then ofLeaf position scope leaf else ofScope scope

def locateFirst (position : Nat) (scope : Scope) : List Node → Completion
  | [] => ofScope scope
  | child :: rest =>
      if child.range.touches position then locate position scope child
      else locateFirst position scope rest

end

def atCursor (settings : Settings) (text : String) (cursor : Nat) : Completion :=
  let position := floorBoundary text.toList cursor
  match modeAt text.toList position with
  | .lineComment | .blockComment => { inComment := true }
  | .quoted _ =>
      { locate position {} (Tree.read settings text (some position)) with inString := true }
  | .code => locate position {} (Tree.read settings text (some position))

end Completion

end ClassExpr
