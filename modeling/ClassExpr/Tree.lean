import ClassExpr.Body
import ClassExpr.Bracket
import ClassExpr.Lexeme
import ClassExpr.Node
import ClassExpr.Settings

set_option autoImplicit false

/-! Reading a class expression. Every text has a tree: a bracket that is never closed runs to the
end of its window and is marked, and what fits nothing else becomes an unknown leaf. A window is
read on its own: what lies outside of it has no influence. Every group, and every body of a
variant that is not a group itself, is read one level down; below the last level an interior is
kept as one leaf. -/

namespace ClassExpr.Tree

open Text

/-- What is the same at every level: the separator of variants, and the offset behind which no
further lexeme is read. -/
structure Reading where
  separator : List Char
  limit : Option Nat
deriving Repr, DecidableEq

/-- Whether reading ends after a lexeme that ends at `stop`. -/
def Reading.endsAt (reading : Reading) (stop : Nat) : Bool :=
  reading.limit.any (· < stop)

/-- Reads an interior, given by its offset and characters, one level down. -/
abbrev Interior := Nat → List Char → Node

def marker (cs : List Char) : List Char :=
  cs.take (cs.head? == some '!').toNat

/-- Nothing is attached to a variant at the end of the text and before white space or a comment. -/
def isEmptyBody (cs : List Char) : Bool :=
  (cs.head?.all isBlank) || Comment.startsLine cs || Comment.startsBlock cs

def group (interior : Interior) (offset : Nat) (cs : List Char) : Node :=
  let lead := marker cs
  let opened := cs.drop lead.length
  let inside := offset + byteLength lead + 1
  match Bracket.split? .parens [] opened with
  | none => .group (.ofChars offset cs) (interior inside opened.tail) false (!lead.isEmpty)
  | some (content, closed) =>
      let trail := marker closed.tail
      .group (.ofChars offset (lead ++ content ++ closed.take 1 ++ trail))
        (interior inside content.tail) true (!lead.isEmpty || !trail.isEmpty)

def variantSpan (reading : Reading) (interior : Interior) (variant : Variant) (rest : List Char) :
    Node :=
  let range := variant.range
  if isEmptyBody rest then .variantSpan range variant none
  else
    let child :=
      if (rest.drop (marker rest).length).head? == some '(' then group interior range.stop rest
      else interior range.stop (Body.split reading.separator rest).1
    let body := (splitBytes (child.range.stop - range.stop) rest).1
    .variantSpan (.ofChars range.start (range.text.toList ++ body)) variant (some child)

def opacity? (offset : Nat) : List Char → Option Opacity
  | '/' :: '[' :: rest =>
      match Bracket.split? .square [] ('[' :: rest) with
      | none => some ⟨.ofChars offset ('/' :: '[' :: rest), .ofChars (offset + 2) rest, true, false⟩
      | some (content, closed) =>
          some ⟨.ofChars offset ('/' :: content ++ closed.take 1),
            .ofChars (offset + 2) content.tail, true, true⟩
  | '/' :: rest =>
      match (splitRun (fun c _ => c.isDigit) rest).1 with
      | [] => none
      | digits => some ⟨.ofChars offset ('/' :: digits), .ofChars (offset + 1) digits, false, true⟩
  | _ => none

/-- The stem of a bracket decides what its value belongs to. -/
def bracketLeaf (range target stem content : Token) (closed important : Bool)
    (opacity : Option Opacity) : Leaf :=
  match stem.text.toList.getLast? with
  | none => .arbitraryProperty range target content closed important
  | some c =>
      if c == '-' || c == '/' then
        .arbitraryStyle range target stem content closed important opacity
      else .cssProperty range target stem content closed important

/-- A bracket that is never closed takes all of its window, which is `cs`. -/
def openBracket (offset : Nat) (lead : List Char) (stem : Token) (cs content : List Char) : Node :=
  let range := Token.ofChars offset cs
  let content := Token.ofChars (stem.stop + 1) content
  if stem.isEmpty && lead.isEmpty then
    .variantSpan range (.bracket ⟨range, range, stem, content, none, false⟩) none
  else
    let target := Token.ofChars (offset + byteLength lead) (cs.drop lead.length)
    .leaf (bracketLeaf range target stem content false (!lead.isEmpty) none)

/-- A closed bracket, whose text from its stem on is `body`, as a leaf. -/
def closedLeaf (offset : Nat) (lead : List Char) (stem : Token) (body : List Char) (content : Token)
    (rest : List Char) : Leaf :=
  let start := offset + byteLength lead
  let opacity :=
    if stem.text.toList.getLast? == some '-' then opacity? (start + byteLength body) rest else none
  let suffix := (opacity.map (·.range.text.toList)).getD []
  let trail := marker (rest.drop suffix.length)
  bracketLeaf (.ofChars offset (lead ++ body ++ suffix ++ trail)) (.ofChars start (body ++ suffix))
    stem content true (!lead.isEmpty || !trail.isEmpty) opacity

/-- A bracket with its marker and stem at the start of a text. A closed one without a marker is a
variant if the separator follows. -/
def bracket (reading : Reading) (interior : Interior) (offset : Nat) (stem : Token)
    (cs : List Char) : Node :=
  let lead := marker cs
  let stemText := stem.text.toList
  let opened := cs.drop (lead.length + stemText.length)
  match Bracket.split? .square [] opened with
  | none => openBracket offset lead stem cs opened.tail
  | some (value, closed) =>
      let body := stemText ++ value ++ closed.take 1
      let content := Token.ofChars (stem.stop + 1) value.tail
      let rest := closed.tail
      if lead.isEmpty && reading.separator.isPrefixOf rest then
        let identifier := Token.ofChars offset body
        let separator := Token.ofChars identifier.stop reading.separator
        let range := Token.ofChars offset (body ++ reading.separator)
        variantSpan reading interior
          (.bracket ⟨range, identifier, stem, content, some separator, true⟩)
          (rest.drop reading.separator.length)
      else .leaf (closedLeaf offset lead stem body content rest)

/-- The node that a lexeme begins, if it begins one, in a text that starts with the lexeme and goes
on with `rest`. -/
def node? (reading : Reading) (interior : Interior) (offset : Nat) (cs rest : List Char) :
    Lexeme → Option Node
  | .lineComment _ => none
  | .blockComment _ => none
  | .variant identifier separator =>
      let range := Token.ofChars offset (identifier.text.toList ++ separator.text.toList)
      some (variantSpan reading interior (.named ⟨range, identifier, separator⟩) rest)
  | .bracket _ _ stem => some (bracket reading interior offset stem cs)
  | .className range body important => some (.leaf (.className range body important))
  | .group _ _ => some (group interior offset cs)
  | .unhandled range => some (.leaf (.unknown range))

def commentStop (offset : Nat) (cs rest : List Char) (lexeme : Lexeme) : Nat :=
  match lexeme with
  | .blockComment opener =>
      match Comment.closeBlock? rest with
      | some (body, _) => opener.stop + byteLength body
      | none => offset + byteLength cs
  | _ => lexeme.stop

/-- Reads the items of a window after passing over `pass` bytes of it; those already read come last
item first. -/
def items (reading : Reading) (interior : Interior) :
    Nat → Nat → List Char → List Node → List Node
  | _, _, [], done => done.reverse
  | offset, pass, c :: cs, done =>
      if 0 < pass || isBlank c then
        items reading interior (offset + c.utf8Size) (pass - c.utf8Size) cs done
      else
        match Lexeme.scan? reading.separator offset (c :: cs) with
        | none => done.reverse
        | some (lexeme, rest) =>
            let node := node? reading interior offset (c :: cs) rest lexeme
            let stop :=
              (node.map (·.range.stop)).getD (commentStop offset (c :: cs) rest lexeme)
            let done := node.toList ++ done
            if reading.endsAt stop then done.reverse
            else
              items reading interior (offset + c.utf8Size) (stop - (offset + c.utf8Size)) cs done

/-- One item stands for itself, any other number is a declaration. -/
def collect (offset : Nat) (cs : List Char) : List Node → Node
  | [item] => item
  | items => .declaration (.ofChars offset cs) items

/-- An interior below the last level, less the white space around it. -/
def remainder (offset : Nat) (cs : List Char) : List Node :=
  let (first, rest) := skipBlank offset cs
  match trimEnd rest with
  | [] => []
  | kept => [.leaf (.unknown (.ofChars first kept))]

def sequence (reading : Reading) : Nat → Nat → List Char → Node
  | 0, offset, cs => collect offset cs (remainder offset cs)
  | levels + 1, offset, cs =>
      collect offset cs (items reading (sequence reading levels) offset 0 cs [])

/-- Reads the window between two byte offsets, each moved back to a boundary. -/
def readRange (settings : Settings) (text : String) (start stop : Nat) (limit : Option Nat) :
    Node :=
  let cs := text.toList
  let last := floorBoundary cs stop
  let first := min (floorBoundary cs start) last
  sequence ⟨settings.separator.toList, limit⟩ (settings.maxDepth + 1) first (between first last cs)

/-- Reads a whole text, or as much of it as is needed up to a limit. -/
def read (settings : Settings) (text : String) (limit : Option Nat) : Node :=
  readRange settings text 0 text.utf8ByteSize limit

end ClassExpr.Tree
