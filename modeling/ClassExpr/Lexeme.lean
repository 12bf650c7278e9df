import ClassExpr.Comment
import ClassExpr.Text.Blank
import ClassExpr.Text.Word
import ClassExpr.Token

set_option autoImplicit false

/-! Lexemes of the expression language. Where several kinds fit at one place, the first of this
order wins: line comment, block comment, variant, bracket, class name, group, anything else up to
the next white space. Each kind takes the longest text it can, a variant name the shortest. -/

namespace ClassExpr

open Text

inductive Lexeme where
  | lineComment (token : Token)
  /-- The opener alone: where a block comment ends is not a lexical matter. -/
  | blockComment (opener : Token)
  | variant (identifier separator : Token)
  /-- A possibly empty stem right before a square bracket, from its marker on. -/
  | bracket (start : Nat) (important : Bool) (stem : Token)
  | className (range body : Token) (important : Bool)
  /-- A parenthesis, from its marker on. -/
  | group (start : Nat) (important : Bool)
  | unhandled (token : Token)
deriving Repr, DecidableEq

namespace Lexeme

def stop : Lexeme → Nat
  | .lineComment token => token.stop
  | .blockComment opener => opener.stop
  | .variant _ separator => separator.stop
  | .bracket _ _ stem => stem.stop + 1
  | .className range _ _ => range.stop
  | .group start important => start + important.toNat + 1
  | .unhandled token => token.stop

def isName (c : Char) : Bool :=
  isWord c || c == '-'

/-- A character of a class name on its own; a slash is one only in front of such a character. -/
def isBody (c : Char) : Bool :=
  isWord c || c == '-' || c == '.'

def splitBody (cs : List Char) : List Char × List Char :=
  splitRun (fun c rest => isBody c || (c == '/' && rest.head?.any isBody)) cs

/-- The shortest name that the separator follows, and the rest after the separator. -/
def splitVariant? (separator cs : List Char) : Option (List Char × List Char) :=
  match splitRun (fun c rest => isName c && !separator.isPrefixOf rest) cs with
  | (name, c :: rest) =>
      if isName c then some (name ++ [c], rest.drop separator.length) else none
  | (_, []) => none

/-- The lexeme of a text that starts with neither a comment nor a variant, and the rest. -/
def scanItem? (offset : Nat) (cs : List Char) : Option (Lexeme × List Char) :=
  let important := cs.head? == some '!'
  let lead := cs.take important.toNat
  let (body, rest) := splitBody (cs.drop important.toNat)
  let (stem, opened) :=
    if rest.head? == some '/' then (body ++ ['/'], rest.tail) else (body, rest)
  let bodyOffset := offset + important.toNat
  if opened.head? == some '[' then
    some (.bracket offset important (.ofChars bodyOffset stem), opened.tail)
  else if !body.isEmpty then
    let trail := rest.take (rest.head? == some '!').toNat
    some (.className (.ofChars offset (lead ++ body ++ trail)) (.ofChars bodyOffset body)
      (important || !trail.isEmpty), rest.drop trail.length)
  else if rest.head? == some '(' then some (.group offset important, rest.tail)
  else
    match splitRun (fun c _ => !isBlank c) cs with
    | ([], _) => none
    | (run, rest) => some (.unhandled (.ofChars offset run), rest)

/-- The lexeme at the start of a text, whose offset is `offset`, and the rest. There is none at the
end of the text and at white space. -/
def scan? (separator : List Char) (offset : Nat) (cs : List Char) : Option (Lexeme × List Char) :=
  if Comment.startsLine cs then
    let (comment, rest) := splitRun (fun c _ => c != '\n') cs
    some (.lineComment (.ofChars offset comment), rest)
  else if Comment.startsBlock cs then
    some (.blockComment (.ofChars offset (cs.take 2)), cs.drop 2)
  else
    match splitVariant? separator cs with
    | some (name, rest) =>
        let identifier := Token.ofChars offset name
        some (.variant identifier (.ofChars identifier.stop separator), rest)
    | none => scanItem? offset cs

/-- The lexemes of a text after passing over `pass` bytes of it, each read from the end of the one
before; those already read come last one first. -/
def scanAll (separator : List Char) : Nat → Nat → List Char → List Lexeme → List Lexeme
  | _, _, [], done => done.reverse
  | offset, pass, c :: cs, done =>
      if 0 < pass || isBlank c then
        scanAll separator (offset + c.utf8Size) (pass - c.utf8Size) cs done
      else
        match scan? separator offset (c :: cs) with
        | none => done.reverse
        | some (lexeme, _) =>
            scanAll separator (offset + c.utf8Size) (lexeme.stop - (offset + c.utf8Size)) cs
              (lexeme :: done)

/-- The lexeme at `position`, read no further than `stop`. There is no answer where the two do not
cut the text between characters and in order. -/
def scanRange? (separator text : String) (position stop : Nat) : Option (Option Lexeme) :=
  if stop ≤ position then some none
  else
    (slice? text.toList position stop).map
      (fun cs => (scan? separator.toList position cs).map (·.1))

def scanAllRange? (separator text : String) (position stop : Nat) : Option (List Lexeme) :=
  if stop ≤ position then some []
  else (slice? text.toList position stop).map (fun cs => scanAll separator.toList position 0 cs [])

end Lexeme

end ClassExpr
