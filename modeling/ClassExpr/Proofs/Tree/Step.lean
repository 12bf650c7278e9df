import ClassExpr.Proofs.Bracket
import ClassExpr.Proofs.Lexeme
import ClassExpr.Proofs.Text.Occurrence

set_option autoImplicit false

/-! What one step of reading can do. Each relation names the text that a node takes from the start
of a window, the rest of the window, and the node itself; every node that reading builds stands in
one of them. How interiors are read is a parameter, of which only the frame is needed: an interior
is read as a stretch of its window. -/

namespace ClassExpr

open Text

namespace Opacity

inductive Spelled (offset : Nat) : List Char → List Char → Opacity → Prop
  | number {digits rest : List Char} (nonempty : digits ≠ [])
      (numeric : ∀ c ∈ digits, c.isDigit = true) :
      Spelled offset ('/' :: digits) rest
        ⟨.ofChars offset ('/' :: digits), .ofChars (offset + 1) digits, false, true⟩
  | closed {value rest : List Char} (enclosed : Bracket.Encloses value) :
      Spelled offset ('/' :: '[' :: value ++ [']']) rest
        ⟨.ofChars offset ('/' :: '[' :: value ++ [']']), .ofChars (offset + 2) value, true, true⟩
  | opened {value : List Char} :
      Spelled offset ('/' :: '[' :: value) []
        ⟨.ofChars offset ('/' :: '[' :: value), .ofChars (offset + 2) value, true, false⟩

theorem Spelled.range_eq {offset : Nat} {taken rest : List Char} {opacity : Opacity}
    (spelled : Spelled offset taken rest opacity) : opacity.range = .ofChars offset taken := by
  cases spelled <;> rfl

end Opacity

namespace Variant

inductive Spelled (separator : List Char) (offset : Nat) : List Char → Variant → Prop
  | named {name : List Char} (nonempty : name ≠ []) (legal : ∀ c ∈ name, Lexeme.isName c = true) :
      Spelled separator offset (name ++ separator)
        (.named ⟨.ofChars offset (name ++ separator), .ofChars offset name,
          .ofChars (offset + byteLength name) separator⟩)
  | bracket {stem value : List Char} (isStem : Lexeme.IsStem stem)
      (enclosed : Bracket.Encloses value) :
      Spelled separator offset (stem ++ '[' :: value ++ [']'] ++ separator)
        (.bracket ⟨.ofChars offset (stem ++ '[' :: value ++ [']'] ++ separator),
          .ofChars offset (stem ++ '[' :: value ++ [']']), .ofChars offset stem,
          .ofChars (offset + byteLength stem + 1) value,
          some (.ofChars (offset + byteLength (stem ++ '[' :: value ++ [']'])) separator), true⟩)

theorem Spelled.range_eq {separator text : List Char} {offset : Nat} {variant : Variant}
    (spelled : Spelled separator offset text variant) : variant.range = .ofChars offset text := by
  cases spelled <;> rfl

theorem Spelled.ne_nil {separator text : List Char} {offset : Nat} {variant : Variant}
    (spelled : Spelled separator offset text variant) : text ≠ [] := by
  cases spelled with
  | named nonempty _ => simp [nonempty]
  | bracket _ _ => simp

end Variant

namespace Tree

inductive LeafAt (offset : Nat) : List Char → List Char → Leaf → Prop
  | className {lead body trail rest : List Char} (marked : IsMarker lead (body ++ trail ++ rest))
      (nonempty : body ≠ []) (run : Lexeme.IsBodyRun body) (trailing : IsMarker trail rest) :
      LeafAt offset (lead ++ body ++ trail) rest
        (.className (.ofChars offset (lead ++ body ++ trail))
          (.ofChars (offset + byteLength lead) body) (!lead.isEmpty || !trail.isEmpty))
  | unknown {run rest : List Char} (nonempty : run ≠ []) :
      LeafAt offset run rest (.unknown (.ofChars offset run))
  | openBracket {lead stem value : List Char} (marked : IsMarker lead (stem ++ '[' :: value))
      (unmatched : Bracket.split? .square [] ('[' :: value) = none) :
      LeafAt offset (lead ++ stem ++ '[' :: value) []
        (bracketLeaf (.ofChars offset (lead ++ stem ++ '[' :: value))
          (.ofChars (offset + byteLength lead) (stem ++ '[' :: value))
          (.ofChars (offset + byteLength lead) stem)
          (.ofChars (offset + byteLength lead + byteLength stem + 1) value)
          false (!lead.isEmpty) none)
  | closedBracket {lead stem value trail rest : List Char}
      (marked : IsMarker lead (stem ++ '[' :: value ++ [']'] ++ trail ++ rest))
      (trailing : IsMarker trail rest) (isStem : Lexeme.IsStem stem)
      (enclosed : Bracket.Encloses value) :
      LeafAt offset (lead ++ (stem ++ '[' :: value ++ [']']) ++ trail) rest
        (bracketLeaf (.ofChars offset (lead ++ (stem ++ '[' :: value ++ [']']) ++ trail))
          (.ofChars (offset + byteLength lead) (stem ++ '[' :: value ++ [']']))
          (.ofChars (offset + byteLength lead) stem)
          (.ofChars (offset + byteLength lead + byteLength stem + 1) value)
          true (!lead.isEmpty || !trail.isEmpty) none)
  | withOpacity {lead stem value suffix trail rest : List Char} {opacity : Opacity}
      (marked : IsMarker lead (stem ++ '[' :: value ++ [']'] ++ suffix ++ trail ++ rest))
      (trailing : IsMarker trail rest) (isStem : Lexeme.IsStem stem)
      (enclosed : Bracket.Encloses value) (styled : stem.getLast? = some '-')
      (spelled : opacity.Spelled
        (offset + byteLength lead + byteLength (stem ++ '[' :: value ++ [']']))
        suffix (trail ++ rest)) :
      LeafAt offset (lead ++ (stem ++ '[' :: value ++ [']'] ++ suffix) ++ trail) rest
        (bracketLeaf (.ofChars offset (lead ++ (stem ++ '[' :: value ++ [']'] ++ suffix) ++ trail))
          (.ofChars (offset + byteLength lead) (stem ++ '[' :: value ++ [']'] ++ suffix))
          (.ofChars (offset + byteLength lead) stem)
          (.ofChars (offset + byteLength lead + byteLength stem + 1) value)
          true (!lead.isEmpty || !trail.isEmpty) (some opacity))

inductive GroupAt (interior : Interior) (offset : Nat) : List Char → List Char → Node → Prop
  | opened {lead inside : List Char} (marked : IsMarker lead ('(' :: inside))
      (unmatched : Bracket.split? .parens [] ('(' :: inside) = none) :
      GroupAt interior offset (lead ++ '(' :: inside) []
        (.group (.ofChars offset (lead ++ '(' :: inside))
          (interior (offset + byteLength lead + 1) inside) false (!lead.isEmpty))
  | closed {lead inside trail rest : List Char}
      (marked : IsMarker lead ('(' :: inside ++ ')' :: (trail ++ rest)))
      (trailing : IsMarker trail rest)
      (matched : Bracket.split? .parens [] ('(' :: inside ++ ')' :: (trail ++ rest)) =
        some ('(' :: inside, ')' :: (trail ++ rest))) :
      GroupAt interior offset (lead ++ '(' :: inside ++ ')' :: trail) rest
        (.group (.ofChars offset (lead ++ '(' :: inside ++ ')' :: trail))
          (interior (offset + byteLength lead + 1) inside) true
          (!lead.isEmpty || !trail.isEmpty))

/-- A variant with what it applies to: the text of the latter, the rest of the window, and the
span. A body that is not a group ends at the latest where it is delimited, and a single item in it
may end before. -/
inductive SpanAt (reading : Reading) (interior : Interior) (variant : Variant) :
    List Char → List Char → Node → Prop
  | empty {rest : List Char} (nothing : isEmptyBody rest = true) :
      SpanAt reading interior variant [] rest (.variantSpan variant.range variant none)
  | group {body rest : List Char} {child : Node}
      (something : isEmptyBody (body ++ rest) = false)
      (grouped : GroupAt interior variant.range.stop body rest child) :
      SpanAt reading interior variant body rest
        (.variantSpan (.ofChars variant.range.start (variant.range.text.toList ++ body)) variant
          (some child))
  | item {body tail rest : List Char}
      (something : isEmptyBody (body ++ tail ++ rest) = false)
      (single : ((body ++ tail ++ rest).drop (marker (body ++ tail ++ rest)).length).head? ≠
        some '(')
      (delimited : Body.split reading.separator (body ++ tail ++ rest) = (body ++ tail, rest))
      (framed : (interior variant.range.stop (body ++ tail)).range =
        .ofChars variant.range.stop body)
      (nonempty : body ≠ [])
      (solid : (interior variant.range.stop (body ++ tail)).isBlank = false) :
      SpanAt reading interior variant body (tail ++ rest)
        (.variantSpan (.ofChars variant.range.start (variant.range.text.toList ++ body)) variant
          (some (interior variant.range.stop (body ++ tail))))

/-- The token of a bracket variant that is never closed: all of the window, and no separator. -/
def openVariant (offset : Nat) (value : List Char) : Variant :=
  .bracket ⟨.ofChars offset ('[' :: value), .ofChars offset ('[' :: value), .ofChars offset [],
    .ofChars (offset + 1) value, none, false⟩

/-- A node at the start of a window, the text it takes and the rest of the window. -/
inductive NodeAt (reading : Reading) (interior : Interior) (offset : Nat) :
    List Char → List Char → Node → Prop
  | leaf {taken rest : List Char} {leaf : Leaf} (leafAt : LeafAt offset taken rest leaf) :
      NodeAt reading interior offset taken rest (.leaf leaf)
  | group {taken rest : List Char} {node : Node} (groupAt : GroupAt interior offset taken rest node) :
      NodeAt reading interior offset taken rest node
  | span {text body rest : List Char} {variant : Variant} {node : Node}
      (spelled : variant.Spelled reading.separator offset text)
      (spanAt : SpanAt reading interior variant body rest node) :
      NodeAt reading interior offset (text ++ body) rest node
  | openVariant {value : List Char}
      (unmatched : Bracket.split? .square [] ('[' :: value) = none) :
      NodeAt reading interior offset ('[' :: value) []
        (.variantSpan (.ofChars offset ('[' :: value)) (openVariant offset value) none)

/-- An interior is read as a stretch of its window, from its very start if there is something
there that a variant could apply to. -/
def Framed (interior : Interior) : Prop :=
  ∀ offset cs, ∃ lead taken rest, cs = lead ++ taken ++ rest ∧
    (interior offset cs).range = .ofChars (offset + byteLength lead) taken ∧
    (isEmptyBody cs = false → lead = [] ∧ taken ≠ [] ∧ (interior offset cs).isBlank = false)

theorem bracketLeaf_range (range target stem content : Token) (closed important : Bool)
    (opacity : Option Opacity) :
    (bracketLeaf range target stem content closed important opacity).range = range := by
  unfold bracketLeaf
  split
  · rfl
  · split <;> rfl

theorem bracketLeaf_closed (range target stem content : Token) (closed important : Bool)
    (opacity : Option Opacity) :
    (bracketLeaf range target stem content closed important opacity).closed = closed := by
  unfold bracketLeaf
  split
  · rfl
  · split <;> rfl

theorem LeafAt.range_eq {offset : Nat} {taken rest : List Char} {leaf : Leaf}
    (leafAt : LeafAt offset taken rest leaf) : leaf.range = .ofChars offset taken := by
  cases leafAt with
  | className _ _ _ _ => rfl
  | unknown _ => rfl
  | openBracket _ _ => exact bracketLeaf_range ..
  | closedBracket _ _ _ _ => exact bracketLeaf_range ..
  | withOpacity _ _ _ _ _ _ => exact bracketLeaf_range ..

theorem GroupAt.range_eq {interior : Interior} {offset : Nat} {taken rest : List Char} {node : Node}
    (groupAt : GroupAt interior offset taken rest node) :
    node.range = .ofChars offset taken := by
  cases groupAt <;> rfl

theorem GroupAt.kind_eq {interior : Interior} {offset : Nat} {taken rest : List Char} {node : Node}
    (groupAt : GroupAt interior offset taken rest node) : node.kind = .group := by
  cases groupAt <;> rfl

theorem NodeAt.range_eq {reading : Reading} {interior : Interior} {offset : Nat}
    {taken rest : List Char} {node : Node} (nodeAt : NodeAt reading interior offset taken rest node) :
    node.range = .ofChars offset taken := by
  cases nodeAt with
  | leaf leafAt => exact leafAt.range_eq
  | group groupAt => exact groupAt.range_eq
  | span spelled spanAt =>
      cases spanAt with
      | empty _ => rw [Node.range, spelled.range_eq, List.append_nil]
      | group _ _ => rw [Node.range, spelled.range_eq, Token.start_ofChars, Token.toList_ofChars]
      | item _ _ _ _ _ _ =>
          rw [Node.range, spelled.range_eq, Token.start_ofChars, Token.toList_ofChars]
  | openVariant _ => rfl

theorem LeafAt.ne_nil {offset : Nat} {taken rest : List Char} {leaf : Leaf}
    (leafAt : LeafAt offset taken rest leaf) : taken ≠ [] := by
  cases leafAt with
  | className _ nonempty _ _ => simp [nonempty]
  | unknown nonempty => exact nonempty
  | openBracket _ _ => simp
  | closedBracket _ _ _ _ => simp
  | withOpacity _ _ _ _ _ _ => simp

theorem NodeAt.ne_nil {reading : Reading} {interior : Interior} {offset : Nat}
    {taken rest : List Char} {node : Node} (nodeAt : NodeAt reading interior offset taken rest node) :
    taken ≠ [] := by
  cases nodeAt with
  | leaf leafAt => exact leafAt.ne_nil
  | group groupAt => cases groupAt <;> simp
  | span spelled _ => simp [spelled.ne_nil]
  | openVariant _ => simp

theorem NodeAt.kind_ne {reading : Reading} {interior : Interior} {offset : Nat}
    {taken rest : List Char} {node : Node} (nodeAt : NodeAt reading interior offset taken rest node) :
    node.kind ≠ .declaration := by
  cases nodeAt with
  | @leaf _ _ leaf _ => cases leaf <;> simp [Node.kind, Leaf.kind]
  | group groupAt => cases groupAt <;> simp [Node.kind]
  | span _ spanAt => cases spanAt <;> simp [Node.kind]
  | openVariant _ => simp [Node.kind]

end Tree

end ClassExpr
