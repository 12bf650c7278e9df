import ClassExpr.Json.Basic

set_option autoImplicit false

/-! JSON text. A compact text has no white space; a laid out one has a line for each element, two
blanks of indentation for each level, and nothing inside an empty array or object. -/

namespace ClassExpr.Json

/-- The escapes of a string literal: the quote, the backslash and the characters below U+0020. -/
def escapeChar (c : Char) : List Char :=
  match c with
  | '"' => ['\\', '"']
  | '\\' => ['\\', '\\']
  | '\x08' => ['\\', 'b']
  | '\x0c' => ['\\', 'f']
  | '\n' => ['\\', 'n']
  | '\r' => ['\\', 'r']
  | '\t' => ['\\', 't']
  | _ =>
      if c.toNat < 0x20 then
        ['\\', 'u', '0', '0', Nat.digitChar (c.toNat / 16), Nat.digitChar (c.toNat % 16)]
      else [c]

def literal (text : String) : String :=
  String.ofList ('"' :: text.toList.flatMap escapeChar ++ ['"'])

def indentation (level : Nat) : String :=
  String.ofList (List.replicate (2 * level) ' ')

/-- Joins the parts of an array or object; a level is given when the text is laid out. -/
def enclose (opener closer : String) (level : Option Nat) (parts : List String) : String :=
  if parts.isEmpty then opener ++ closer
  else
    match level with
    | none => opener ++ String.intercalate "," parts ++ closer
    | some level =>
        let lines := parts.map (indentation (level + 1) ++ ·)
        opener ++ "\n" ++ String.intercalate ",\n" lines ++ "\n" ++ indentation level ++ closer

mutual

def print (level : Option Nat) : Json → String
  | .null => "null"
  | .bool value => if value then "true" else "false"
  | .natural value => toString value
  | .decimal numeral => numeral
  | .string text => literal text
  | .unreadable => "null"
  | .array elements => enclose "[" "]" level (printAll (level.map (· + 1)) elements)
  | .object members => enclose "\x7b" "\x7d" level (printMembers (level.map (· + 1)) members)

def printAll (level : Option Nat) : List Json → List String
  | [] => []
  | element :: rest => print level element :: printAll level rest

def printMembers (level : Option Nat) : List (String × Json) → List String
  | [] => []
  | (key, value) :: rest =>
      (literal key ++ (if level.isSome then ": " else ":") ++ print level value) ::
        printMembers level rest

end

def compact (value : Json) : String :=
  print none value

def pretty (value : Json) : String :=
  print (some 0) value

end ClassExpr.Json
