import ClassExpr.Proofs.Checked.Extent
import ClassExpr.Proofs.Tree.Items

set_option autoImplicit false

/-! Reading by offsets. Everything is read between two offsets of one text: every token, stretch and
octet is taken from that text where the offsets say, and the loop over items has a bound on its
turns. None of this fails, and what comes of it is the tree that is read from the characters. -/

namespace ClassExpr.Checked

open Text ClassExpr.Tree

def octetAt (text : String) (offset stop : Nat) : Option Char :=
  if offset < stop then (octets text.toList)[offset]? else none

/-- Takes the tokens of a lexeme from the text anew, those of its markers included. -/
def retake? (text : String) : Lexeme → Option Lexeme
  | .lineComment token => do
      let token ← Token.ofSource? text token.start token.stop
      some (.lineComment token)
  | .blockComment opener => do
      let opener ← Token.ofSource? text opener.start opener.stop
      some (.blockComment opener)
  | .variant identifier separator => do
      let identifier ← Token.ofSource? text identifier.start identifier.stop
      let separator ← Token.ofSource? text separator.start separator.stop
      some (.variant identifier separator)
  | .bracket start important stem => do
      let lead ← Token.ofSource? text start (start + important.toNat)
      let stem ← Token.ofSource? text stem.start stem.stop
      some (.bracket lead.start (!lead.isEmpty) stem)
  | .className range body _ => do
      let lead ← Token.ofSource? text range.start body.start
      let trail ← Token.ofSource? text body.stop range.stop
      let body ← Token.ofSource? text body.start body.stop
      let range ← Token.ofSource? text range.start range.stop
      some (.className range body (!lead.isEmpty || !trail.isEmpty))
  | .group start important => do
      let lead ← Token.ofSource? text start (start + important.toNat)
      some (.group lead.start (!lead.isEmpty))
  | .unhandled token => do
      let token ← Token.ofSource? text token.start token.stop
      some (.unhandled token)

def scan? (reading : Reading) (text : String) (position stop : Nat) : Option (Option Lexeme) :=
  if stop ≤ position then some none
  else do
    let window ← slice? text.toList position stop
    match Lexeme.scan? reading.separator position window with
    | none => some none
    | some (lexeme, _) => do
        let lexeme ← retake? text lexeme
        some (some lexeme)

def isEmptyBody? (text : String) (offset stop : Nat) : Option Bool := do
  let rest ← slice? text.toList (min offset stop) stop
  some (isEmptyBody rest)

/-- What an interior between two offsets reads as, one level down. -/
abbrev Interior? := Nat → Nat → Option Node

def group? (interior? : Interior?) (text : String) (start : Nat) (important : Bool)
    (opener stop : Nat) : Option Node := do
  let closer ← findMatch? text opener stop .parens
  let child ← interior? (opener + 1) (closer.getD stop)
  match closer with
  | none => do
      let range ← Token.ofSource? text start stop
      some (.group range child false important)
  | some closer => do
      let trail := octetAt text (closer + 1) stop == some '!'
      let range ← Token.ofSource? text start (closer + 1 + trail.toNat)
      some (.group range child true (important || trail))

def body? (reading : Reading) (interior? : Interior?) (text : String) (start stop : Nat) :
    Option Node :=
  if octetAt text start stop == some '(' then group? interior? text start false start stop
  else if octetAt text start stop == some '!' && octetAt text (start + 1) stop == some '(' then
    group? interior? text start true (start + 1) stop
  else do
    let last ← findEnd? text start stop reading.separator
    interior? start last

def variantSpan? (reading : Reading) (interior? : Interior?) (text : String) (variant : Variant)
    (stop : Nat) : Option Node := do
  let range := variant.range
  let empty ← isEmptyBody? text range.stop stop
  if empty then some (.variantSpan range variant none)
  else do
    let child ← body? reading interior? text range.stop stop
    let whole ← Token.ofSource? text range.start (max child.range.stop range.stop)
    some (.variantSpan whole variant (some child))

def opacity? (text : String) (start stop : Nat) : Option (Option Opacity) :=
  if octetAt text start stop != some '/' then some none
  else if octetAt text (start + 1) stop == some '[' then do
    match ← findMatch? text (start + 1) stop .square with
    | some closer => do
        let range ← Token.ofSource? text start (closer + 1)
        let value ← Token.ofSource? text (start + 2) closer
        some (some ⟨range, value, true, true⟩)
    | none => do
        let range ← Token.ofSource? text start stop
        let value ← Token.ofSource? text (start + 2) stop
        some (some ⟨range, value, true, false⟩)
  else do
    let window ← octetsBetween? (octets text.toList) (start + 1) stop
    let digits := (splitRun (fun c _ => c.isDigit) window).1.length
    if digits = 0 then some none
    else do
      let range ← Token.ofSource? text start (start + 1 + digits)
      let value ← Token.ofSource? text (start + 1) (start + 1 + digits)
      some (some ⟨range, value, false, true⟩)

def openBracket? (text : String) (start : Nat) (important : Bool) (stem : Token)
    (opener stop : Nat) : Option Node := do
  let content ← Token.ofSource? text (opener + 1) stop
  let range ← Token.ofSource? text start stop
  if stem.isEmpty && !important then
    some (.variantSpan range (.bracket ⟨range, range, stem, content, none, false⟩) none)
  else do
    let target ← Token.ofSource? text (start + important.toNat) stop
    some (.leaf (bracketLeaf range target stem content false important none))

def opacityOf? (text : String) (stem : Token) (after stop : Nat) : Option (Option Opacity) :=
  if stem.text.toList.getLast? == some '-' then opacity? text after stop else some none

def closedLeaf? (text : String) (start : Nat) (important : Bool) (stem content : Token)
    (after stop : Nat) : Option Leaf := do
  let opacity ← opacityOf? text stem after stop
  let targetStop := (opacity.map (·.range.stop)).getD after
  let trail := octetAt text targetStop stop == some '!'
  let range ← Token.ofSource? text start (targetStop + trail.toNat)
  let target ← Token.ofSource? text (start + important.toNat) targetStop
  some (bracketLeaf range target stem content true (important || trail) opacity)

def separatorAt? (reading : Reading) (text : String) (important : Bool) (after stop : Nat) :
    Option Bool :=
  if important then some false
  else do
    let rest ← slice? text.toList after stop
    some (reading.separator.isPrefixOf rest)

def bracket? (reading : Reading) (interior? : Interior?) (text : String) (start : Nat)
    (important : Bool) (stem : Token) (opener stop : Nat) : Option Node := do
  match ← findMatch? text opener stop .square with
  | none => openBracket? text start important stem opener stop
  | some closer => do
      let after := closer + 1
      let content ← Token.ofSource? text (opener + 1) closer
      let separated ← separatorAt? reading text important after stop
      if separated then do
        let last := after + byteLength reading.separator
        let range ← Token.ofSource? text start last
        let identifier ← Token.ofSource? text start after
        let separator ← Token.ofSource? text after last
        variantSpan? reading interior? text
          (.bracket ⟨range, identifier, stem, content, some separator, true⟩) stop
      else do
        let leaf ← closedLeaf? text start important stem content after stop
        some (.leaf leaf)

def node? (reading : Reading) (interior? : Interior?) (text : String) (stop : Nat) :
    Lexeme → Option (Option Node)
  | .lineComment _ => some none
  | .blockComment _ => some none
  | .variant identifier separator => do
      let range ← Token.ofSource? text identifier.start separator.stop
      let node ← variantSpan? reading interior? text (.named ⟨range, identifier, separator⟩) stop
      some (some node)
  | .bracket start important stem => do
      let node ← bracket? reading interior? text start important stem stem.stop stop
      some (some node)
  | .className range body important => some (some (.leaf (.className range body important)))
  | .group start important => do
      let node ← group? interior? text start important (start + important.toNat) stop
      some (some node)
  | .unhandled range => some (some (.leaf (.unknown range)))

def commentStop? (text : String) (stop : Nat) : Lexeme → Option Nat
  | .blockComment opener => do
      let found ← findBlockEnd? text opener.stop stop
      some (found.getD stop)
  | lexeme => some lexeme.stop

def turnStop? (text : String) (stop : Nat) (lexeme : Lexeme) : Option Node → Option Nat
  | some node => some node.range.stop
  | none => commentStop? text stop lexeme

/-- The items between two offsets, read in at most so many turns. -/
def items? (reading : Reading) (interior? : Interior?) (text : String) (stop : Nat) :
    Nat → Nat → List Node → Option (List Node)
  | 0, _, _ => none
  | turns + 1, position, done => do
      let position ← skipBlankRange? text position stop
      match ← scan? reading text position stop with
      | none => some done.reverse
      | some lexeme => do
          let node ← node? reading interior? text stop lexeme
          let next ← turnStop? text stop lexeme node
          let done := node.toList ++ done
          if reading.endsAt next then some done.reverse
          else items? reading interior? text stop turns next done

def remainder? (text : String) (start stop : Nat) : Option (List Node) := do
  let first ← skipBlankRange? text start stop
  let window ← slice? text.toList start stop
  let last := start + byteLength (trimEnd window)
  if last ≤ first then some []
  else do
    let range ← Token.ofSource? text first last
    some [.leaf (.unknown range)]

def collect? (text : String) (start stop : Nat) : List Node → Option Node
  | [item] => some item
  | items => do
      let range ← Token.ofSource? text start stop
      some (.declaration range items)

def sequence? (reading : Reading) (text : String) : Nat → Nat → Nat → Option Node
  | 0, start, stop => do
      let items ← remainder? text start stop
      collect? text start stop items
  | levels + 1, start, stop => do
      let items ← items? reading (sequence? reading text levels) text stop (stop - start + 1) start []
      collect? text start stop items

def readRange? (settings : Settings) (text : String) (start stop : Nat) (limit : Option Nat) :
    Option Node := do
  let last ← floorBoundary? text.toList stop
  let first ← floorBoundary? text.toList start
  sequence? ⟨settings.separator.toList, limit⟩ text (settings.maxDepth + 1) (min first last) last

/-- The interiors between two offsets are those of the characters between them. -/
def Agrees (text : String) (interior? : Interior?) (interior : Interior) : Prop :=
  ∀ offset cs stop, Occurs text.toList offset cs → offset + byteLength cs = stop →
    interior? offset stop = some (interior offset cs)

theorem token?_eq {text : String} {offset stop : Nat} {cs : List Char}
    (occurs : Occurs text.toList offset cs) (stops : offset + byteLength cs = stop) :
    Token.ofSource? text offset stop = some (.ofChars offset cs) := by
  subst stops
  exact Token.ofSource?_eq occurs

theorem slice?_eq {text : String} {offset stop : Nat} {cs : List Char}
    (occurs : Occurs text.toList offset cs) (stops : offset + byteLength cs = stop) :
    slice? text.toList offset stop = some cs := by
  subst stops
  exact occurs.slice?_eq

theorem octetAt_eq {text : String} {offset stop : Nat} {cs : List Char} {mark : Char}
    (narrow : ¬IsWide mark) (occurs : Occurs text.toList offset cs)
    (stops : offset + byteLength cs = stop) :
    (octetAt text offset stop == some mark) = (cs.head? == some mark) := by
  obtain ⟨before, after, whole, rfl⟩ := occurs
  have parts : octets text.toList = octets before ++ (octets cs ++ octets after) := by
    rw [whole, List.append_assoc, octets_append, octets_append]
  cases cs with
  | nil =>
      rw [octetAt, if_neg (by simp at stops; omega)]
      rfl
  | cons c cs =>
      have positive := c.utf8Size_pos
      rw [byteLength_cons] at stops
      cases spelled : octets (c :: cs) with
      | nil =>
          have empty := isEmpty_octets (c :: cs)
          rw [spelled] at empty
          cases empty
      | cons first others =>
          have here : (octets text.toList)[byteLength before]? = some first := by
            rw [parts, spelled, List.cons_append, ← length_octets]
            exact getElem?_middle _ _ _
          rw [octetAt, if_pos (by omega), here, ← head?_octets narrow (c :: cs), spelled,
            List.head?_cons]

end ClassExpr.Checked
