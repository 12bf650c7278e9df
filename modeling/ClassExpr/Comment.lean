import ClassExpr.Text.Run
import ClassExpr.Text.Utf8

set_option autoImplicit false

/-! Comments: from two slashes to the end of the line, or between a slash with a star and the next
star with a slash. Block comments do not nest. -/

namespace ClassExpr.Comment

open Text

def startsLine (cs : List Char) : Bool :=
  ['/', '/'].isPrefixOf cs

def startsBlock (cs : List Char) : Bool :=
  ['/', '*'].isPrefixOf cs

def closeBlock? (cs : List Char) : Option (List Char × List Char) :=
  match splitRun (fun c rest => !(c == '*' && rest.head? == some '/')) cs with
  | (body, star :: slash :: rest) => some (body ++ [star, slash], rest)
  | _ => none

/-- The offset just past the closer of a block comment whose body starts at `start`, looking no
further than `stop`. -/
def findBlockEnd (text : String) (start stop : Nat) : Option Nat :=
  let cs := text.toList
  if min stop (byteLength cs) < start then none
  else
    let window := (splitBytes stop cs).1
    (closeBlock? (dropBefore start window)).map
      (fun (_, rest) => byteLength window - byteLength rest)

end ClassExpr.Comment
