import ClassExpr.Json.Reader

set_option autoImplicit false

/-! Scalars of YAML: plain, in single quotes and in double quotes. A scalar may go on over lines;
then a line break stands for a blank, and each further one for itself. A text has line feeds for
its only line breaks here. -/

namespace ClassExpr.Yaml

/-- A value is a scalar with its text, or a collection of which only the syntax matters. -/
inductive Value where
  | plain (text : String)
  | quoted (text : String)
  | collection
deriving Repr, DecidableEq

def Value.text? : Value → Option String
  | .plain text => some text
  | .quoted text => some text
  | .collection => none

def isInlineBlank (c : Char) : Bool :=
  c == ' ' || c == '\t'

def endsWord (cs : List Char) : Bool :=
  cs.head?.all (fun c => isInlineBlank c || c == '\n')

def isMarker (cs : List Char) : Bool :=
  (['-', '-', '-'].isPrefixOf cs || ['.', '.', '.'].isPrefixOf cs) && endsWord (cs.drop 3)

/-- White space inside a scalar: blanks, or line breaks of which the first counts as a blank
unless it is escaped. -/
inductive Gap where
  | blanks (read : List Char)
  | breaks (folded : Bool) (further : Nat)
deriving Repr, DecidableEq

namespace Gap

def none : Gap := .blanks []

def isNone : Gap → Bool
  | .blanks read => read.isEmpty
  | .breaks _ _ => false

def isBreak : Gap → Bool
  | .blanks _ => false
  | .breaks _ _ => true

def pushBlank (c : Char) : Gap → Gap
  | .blanks read => .blanks (c :: read)
  | .breaks folded further => .breaks folded further

def pushBreak : Gap → Gap
  | .blanks _ => .breaks true 0
  | .breaks folded further => .breaks folded (further + 1)

/-- Puts what a gap stands for in front of the characters read, the last one first. -/
def close (kept : List Char) : Gap → List Char
  | .blanks read => read ++ kept
  | .breaks true 0 => ' ' :: kept
  | .breaks _ further => List.replicate further '\n' ++ kept

end Gap

def single? (kept : List Char) (gap : Gap) : List Char → Option (String × List Char)
  | [] => none
  | '\'' :: '\'' :: cs => single? ('\'' :: gap.close kept) .none cs
  | '\'' :: cs => some (String.ofList (gap.close kept).reverse, cs)
  | '\n' :: cs => if isMarker cs then none else single? kept gap.pushBreak cs
  | c :: cs =>
      if isInlineBlank c then single? kept (gap.pushBlank c) cs
      else single? (c :: gap.close kept) .none cs

def namedEscape? (c : Char) : Option Char :=
  match c with
  | '0' => some '\x00'
  | 'a' => some '\x07'
  | 'b' => some '\x08'
  | 't' => some '\t'
  | '\t' => some '\t'
  | 'n' => some '\n'
  | 'v' => some '\x0b'
  | 'f' => some '\x0c'
  | 'r' => some '\r'
  | 'e' => some '\x1b'
  | ' ' => some ' '
  | '"' => some '"'
  | '/' => some '/'
  | '\\' => some '\\'
  | 'N' => some '\u0085'
  | '_' => some '\u00a0'
  | 'L' => some '\u2028'
  | 'P' => some '\u2029'
  | _ => none

def codeDigits? (c : Char) : Option Nat :=
  match c with
  | 'x' => some 2
  | 'u' => some 4
  | 'U' => some 8
  | _ => none

inductive DoubleMode where
  | text
  | escape
  | code (missing value : Nat)
deriving Repr, DecidableEq

def double? (mode : DoubleMode) (kept : List Char) (gap : Gap) :
    List Char → Option (String × List Char)
  | [] => none
  | c :: cs =>
      match mode with
      | .text =>
          if c == '"' then some (String.ofList (gap.close kept).reverse, cs)
          else if c == '\\' then double? .escape (gap.close kept) .none cs
          else if c == '\n' then if isMarker cs then none else double? .text kept gap.pushBreak cs
          else if isInlineBlank c then double? .text kept (gap.pushBlank c) cs
          else double? .text (c :: gap.close kept) .none cs
      | .escape =>
          if c == '\n' then double? .text kept (.breaks false 0) cs
          else
            match namedEscape? c, codeDigits? c with
            | some named, _ => double? .text (named :: kept) .none cs
            | none, some digits => double? (.code (digits - 1) 0) kept .none cs
            | none, none => none
      | .code missing value =>
          match Text.hexDigit? c with
          | none => none
          | some digit =>
              let value := 16 * value + digit
              if 0 < missing then double? (.code (missing - 1) value) kept .none cs
              else if value.isValidChar then double? .text (Char.ofNat value :: kept) .none cs
              else none

/-- A character that ends a plain scalar inside a collection in brackets. -/
def isFlowMark (c : Char) : Bool :=
  c == ',' || c == '[' || c == ']' || c == '\x7b' || c == '\x7d'

def startsPlain (flow : Bool) : List Char → Bool
  | [] => false
  | c :: cs =>
      if c == '-' then !endsWord cs
      else if c == '?' || c == ':' then !flow && !endsWord cs
      else
        !(isInlineBlank c || c == '\n' || isFlowMark c || c == '#' || c == '&' || c == '*' ||
          c == '!' || c == '|' || c == '>' || c == '\'' || c == '"' || c == '%' || c == '@' ||
          c.toNat == 0x60)

/-- Where the reading of a plain scalar stands: what was read, the white space after it, the column,
and the text from the first line break of that white space on. -/
structure PlainState where
  kept : List Char := []
  gap : Gap := .none
  column : Nat := 0
  lineEnd : List Char := []
deriving Repr, DecidableEq

namespace PlainState

def push (state : PlainState) (c : Char) : PlainState :=
  { state with kept := c :: state.gap.close state.kept, gap := .none, column := state.column + 1 }

/-- Ends a scalar before the white space at its end, if that contains a line break, else at `cs`. -/
def finish (state : PlainState) (cs : List Char) : String × List Char :=
  (String.ofList state.kept.reverse, if state.gap.isBreak then state.lineEnd else cs)

end PlainState

/-- Reads a plain scalar. Outside of brackets it goes on over lines that are indented by more than
`indent`. -/
def plain? (flow : Bool) (indent : Nat) (state : PlainState) :
    List Char → Option (String × List Char)
  | [] => some (state.finish [])
  | c :: cs =>
      if c == '\n' then
        let lineEnd := if state.gap.isBreak then state.lineEnd else c :: cs
        plain? flow indent { state with gap := state.gap.pushBreak, column := 0, lineEnd } cs
      else if isInlineBlank c then
        if c == '\t' && !flow && state.gap.isBreak && state.column ≤ indent then none
        else
          plain? flow indent
            { state with gap := state.gap.pushBlank c, column := state.column + 1 } cs
      else if state.gap.isBreak &&
          ((!flow && state.column ≤ indent) || (state.column = 0 && isMarker (c :: cs))) then
        some (state.finish (c :: cs))
      else if c == '#' && !state.gap.isNone then some (state.finish (c :: cs))
      else if c == ':' && endsWord cs then some (String.ofList state.kept.reverse, c :: cs)
      else if flow && c == ':' && cs.head?.any (fun next => isFlowMark next || next == '?') then
        none
      else if flow && isFlowMark c then some (String.ofList state.kept.reverse, c :: cs)
      else plain? flow indent (state.push c) cs

end ClassExpr.Yaml
