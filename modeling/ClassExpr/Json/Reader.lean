import ClassExpr.Json.Basic
import ClassExpr.Text.Numeral
import ClassExpr.Text.Run

set_option autoImplicit false

/-! Reading JSON text. A string literal is read one character at a time; a surrogate that is not
part of a pair leaves it without a text, which makes the value that holds it unreadable but is no
fault of syntax. Nesting is bounded by the length of the text. -/

namespace ClassExpr.Json

open Text

def isSpace (c : Char) : Bool :=
  c == ' ' || c == '\n' || c == '\t' || c == '\r'

def namedEscape? (c : Char) : Option Char :=
  match c with
  | '"' => some '"'
  | '\\' => some '\\'
  | '/' => some '/'
  | 'b' => some '\x08'
  | 'f' => some '\x0c'
  | 'n' => some '\n'
  | 'r' => some '\r'
  | 't' => some '\t'
  | _ => none

/-- Where the reading of a string literal stands; a code unit has some of its four digits. -/
inductive LiteralMode where
  | plain
  | escape
  | unit (digits value : Nat)
deriving Repr, DecidableEq

/-- The characters read, last one first, a high surrogate that waits for its low one, and whether
some surrogate has remained alone. -/
structure LiteralState where
  mode : LiteralMode := .plain
  read : List Char := []
  high : Option Nat := none
  broken : Bool := false
deriving Repr, DecidableEq

namespace LiteralState

def abandon (state : LiteralState) : LiteralState :=
  { state with high := none, broken := state.broken || state.high.isSome }

def push (state : LiteralState) (c : Char) : LiteralState :=
  { state.abandon with mode := .plain, read := c :: state.read }

def isHigh (unit : Nat) : Bool :=
  0xD800 ≤ unit && unit < 0xDC00

def isLow (unit : Nat) : Bool :=
  0xDC00 ≤ unit && unit < 0xE000

def pushUnit (state : LiteralState) (unit : Nat) : LiteralState :=
  match state.high with
  | some high =>
      if isLow unit then
        { state with
          mode := .plain
          high := none
          read := Char.ofNat (0x10000 + (high - 0xD800) * 0x400 + (unit - 0xDC00)) :: state.read }
      else { state.abandon with mode := .plain }
  | none =>
      if isHigh unit then { state with mode := .plain, high := some unit }
      else if isLow unit then { state with mode := .plain, broken := true }
      else state.push (Char.ofNat unit)

def text? (state : LiteralState) : Option String :=
  if state.abandon.broken then none else some (String.ofList state.read.reverse)

end LiteralState

def literal? (state : LiteralState) : List Char → Option (Option String × List Char)
  | [] => none
  | c :: cs =>
      match state.mode with
      | .plain =>
          if c == '"' then some (state.text?, cs)
          else if c == '\\' then literal? { state with mode := .escape } cs
          else if c.toNat < 0x20 then none
          else literal? (state.push c) cs
      | .escape =>
          if c == 'u' then literal? { state with mode := .unit 0 0 } cs
          else
            match namedEscape? c with
            | some named => literal? (state.push named) cs
            | none => none
      | .unit digits value =>
          match hexDigit? c with
          | none => none
          | some digit =>
              let value := 16 * value + digit
              if digits = 3 then literal? (state.pushUnit value) cs
              else literal? { state with mode := .unit (digits + 1) value } cs

def digits? (cs : List Char) : Option (List Char × List Char) :=
  match splitRun (fun c _ => c.isDigit) cs with
  | ([], _) => none
  | found => some found

def integerPart? (cs : List Char) : Option (List Char × List Char) :=
  if cs.head? == some '0' then some (['0'], cs.tail) else digits? cs

def fractionPart? : List Char → Option (List Char × List Char)
  | '.' :: cs => (digits? cs).map (fun (digits, rest) => ('.' :: digits, rest))
  | cs => some ([], cs)

def exponentPart? (cs : List Char) : Option (List Char × List Char) :=
  if cs.head? == some 'e' || cs.head? == some 'E' then
    let sign := cs.tail.take (cs.tail.head? == some '+' || cs.tail.head? == some '-').toNat
    (digits? (cs.tail.drop sign.length)).map
      (fun (digits, rest) => (cs.take 1 ++ sign ++ digits, rest))
  else some ([], cs)

def naturalOf (digits : List Char) : Nat :=
  digits.foldl (fun value c => 10 * value + (c.toNat - '0'.toNat)) 0

def number? (cs : List Char) : Option (Json × List Char) := do
  let sign := cs.take (cs.head? == some '-').toNat
  let (integer, cs) ← integerPart? (cs.drop sign.length)
  let (fraction, cs) ← fractionPart? cs
  let (exponent, cs) ← exponentPart? cs
  if sign.isEmpty && fraction.isEmpty && exponent.isEmpty then
    pure (.natural (naturalOf integer), cs)
  else pure (.decimal (String.ofList (sign ++ integer ++ fraction ++ exponent)), cs)

/-- An object of the members read, unless one of the keys has no text. -/
def objectOf (members : List (Option String × Json)) : Json :=
  if members.all (·.1.isSome) then
    .object (members.map (fun (key, value) => (key.getD "", value)))
  else .unreadable

mutual

def value? : Nat → List Char → Option (Json × List Char)
  | 0, _ => none
  | fuel + 1, cs =>
      match cs.dropWhile isSpace with
      | [] => none
      | '"' :: rest =>
          (literal? {} rest).map
            (fun (text, rest) => ((text.map Json.string).getD .unreadable, rest))
      | '[' :: rest =>
          match rest.dropWhile isSpace with
          | ']' :: rest => some (.array [], rest)
          | rest => (elements? fuel rest).map (fun (elements, rest) => (.array elements, rest))
      | '\x7b' :: rest =>
          match rest.dropWhile isSpace with
          | '\x7d' :: rest => some (.object [], rest)
          | rest => (members? fuel rest).map (fun (members, rest) => (objectOf members, rest))
      | 'n' :: 'u' :: 'l' :: 'l' :: rest => some (.null, rest)
      | 't' :: 'r' :: 'u' :: 'e' :: rest => some (.bool true, rest)
      | 'f' :: 'a' :: 'l' :: 's' :: 'e' :: rest => some (.bool false, rest)
      | rest => number? rest

def elements? : Nat → List Char → Option (List Json × List Char)
  | 0, _ => none
  | fuel + 1, cs => do
      let (element, cs) ← value? fuel cs
      match cs.dropWhile isSpace with
      | ']' :: rest => pure ([element], rest)
      | ',' :: rest =>
          let (elements, rest) ← elements? fuel rest
          pure (element :: elements, rest)
      | _ => none

def members? : Nat → List Char → Option (List (Option String × Json) × List Char)
  | 0, _ => none
  | fuel + 1, cs =>
      match cs.dropWhile isSpace with
      | '"' :: cs => do
          let (key, cs) ← literal? {} cs
          match cs.dropWhile isSpace with
          | ':' :: cs => do
              let (value, cs) ← value? fuel cs
              match cs.dropWhile isSpace with
              | '\x7d' :: rest => pure ([(key, value)], rest)
              | ',' :: rest =>
                  let (members, rest) ← members? fuel rest
                  pure ((key, value) :: members, rest)
              | _ => none
          | _ => none
      | _ => none

end

def read? (text : String) : Option Json :=
  let cs := text.toList
  match value? (2 * cs.length + 2) cs with
  | some (value, rest) => if rest.all isSpace then some value else none
  | none => none

end ClassExpr.Json
