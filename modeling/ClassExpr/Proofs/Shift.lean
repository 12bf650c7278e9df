import ClassExpr.Lexeme
import ClassExpr.Node

set_option autoImplicit false

/-! Lexemes and trees further on in a text. Only their offsets differ; and a lexeme is scanned
wherever its window stands. -/

namespace ClassExpr

open Text

def Token.shift (distance : Nat) (token : Token) : Token :=
  ⟨token.start + distance, token.text⟩

def Variant.shift (distance : Nat) : Variant → Variant
  | .named variant =>
      .named ⟨variant.range.shift distance, variant.identifier.shift distance,
        variant.separator.shift distance⟩
  | .bracket variant =>
      .bracket ⟨variant.range.shift distance, variant.identifier.shift distance,
        variant.stem.shift distance, variant.content.shift distance,
        variant.separator.map (Token.shift distance), variant.closed⟩

def Opacity.shift (distance : Nat) (opacity : Opacity) : Opacity :=
  { opacity with range := opacity.range.shift distance, value := opacity.value.shift distance }

def Leaf.shift (distance : Nat) : Leaf → Leaf
  | .className range target important =>
      .className (range.shift distance) (target.shift distance) important
  | .cssProperty range target prop content closed important =>
      .cssProperty (range.shift distance) (target.shift distance) (prop.shift distance)
        (content.shift distance) closed important
  | .arbitraryStyle range target prop content closed important opacity =>
      .arbitraryStyle (range.shift distance) (target.shift distance) (prop.shift distance)
        (content.shift distance) closed important (opacity.map (Opacity.shift distance))
  | .arbitraryProperty range target content closed important =>
      .arbitraryProperty (range.shift distance) (target.shift distance) (content.shift distance)
        closed important
  | .unknown range => .unknown (range.shift distance)

namespace Node

mutual

def shift (distance : Nat) : Node → Node
  | .declaration range children =>
      .declaration (range.shift distance) (shiftAll distance children)
  | .variantSpan range variant none =>
      .variantSpan (range.shift distance) (variant.shift distance) none
  | .variantSpan range variant (some child) =>
      .variantSpan (range.shift distance) (variant.shift distance) (some (shift distance child))
  | .group range child closed important =>
      .group (range.shift distance) (shift distance child) closed important
  | .leaf item => .leaf (item.shift distance)

def shiftAll (distance : Nat) : List Node → List Node
  | [] => []
  | child :: rest => shift distance child :: shiftAll distance rest

end

section

variable (distance : Nat)

theorem shift_declaration (range : Token) (children : List Node) :
    shift distance (.declaration range children) =
      .declaration (range.shift distance) (shiftAll distance children) := rfl

theorem shift_variant (range : Token) (variant : Variant) :
    shift distance (.variantSpan range variant none) =
      .variantSpan (range.shift distance) (variant.shift distance) none := rfl

theorem shift_variantSpan (range : Token) (variant : Variant) (child : Node) :
    shift distance (.variantSpan range variant (some child)) =
      .variantSpan (range.shift distance) (variant.shift distance) (some (shift distance child)) :=
  rfl

theorem shift_group (range : Token) (child : Node) (closed important : Bool) :
    shift distance (.group range child closed important) =
      .group (range.shift distance) (shift distance child) closed important := rfl

theorem shift_leaf (item : Leaf) : shift distance (.leaf item) = .leaf (item.shift distance) := rfl

end

theorem shiftAll_eq (distance : Nat) (children : List Node) :
    shiftAll distance children = children.map (shift distance) := by
  induction children with
  | nil => rw [shiftAll, List.map_nil]
  | cons child rest ih => rw [shiftAll, List.map_cons, ih]

end Node

def Lexeme.shift (distance : Nat) : Lexeme → Lexeme
  | .lineComment token => .lineComment (token.shift distance)
  | .blockComment opener => .blockComment (opener.shift distance)
  | .variant identifier separator =>
      .variant (identifier.shift distance) (separator.shift distance)
  | .bracket start important stem => .bracket (start + distance) important (stem.shift distance)
  | .className range body important =>
      .className (range.shift distance) (body.shift distance) important
  | .group start important => .group (start + distance) important
  | .unhandled token => .unhandled (token.shift distance)

section

variable (distance : Nat)

@[simp] theorem Token.start_shift (token : Token) :
    (token.shift distance).start = token.start + distance := rfl

@[simp] theorem Token.text_shift (token : Token) : (token.shift distance).text = token.text := rfl

@[simp] theorem Token.stop_shift (token : Token) :
    (token.shift distance).stop = token.stop + distance :=
  Nat.add_right_comm _ _ _

theorem Token.ofChars_add (offset : Nat) (cs : List Char) :
    ofChars (offset + distance) cs = (ofChars offset cs).shift distance := rfl

@[simp] theorem Variant.range_shift (variant : Variant) :
    (variant.shift distance).range = variant.range.shift distance := by
  cases variant <;> rfl

@[simp] theorem Leaf.range_shift (leaf : Leaf) :
    (leaf.shift distance).range = leaf.range.shift distance := by
  cases leaf <;> rfl

@[simp] theorem Node.range_shift (node : Node) :
    (node.shift distance).range = node.range.shift distance := by
  cases node with
  | declaration range children => rfl
  | variantSpan range variant child => cases child <;> rfl
  | group range child closed important => rfl
  | leaf item => exact Leaf.range_shift distance item

end

namespace Lexeme

theorem stop_shift (distance : Nat) (lexeme : Lexeme) :
    (lexeme.shift distance).stop = lexeme.stop + distance := by
  cases lexeme with
  | lineComment token => exact token.stop_shift distance
  | blockComment opener => exact opener.stop_shift distance
  | variant identifier separator => exact separator.stop_shift distance
  | bracket start important stem =>
      rw [shift, stop, stop, stem.stop_shift, Nat.add_right_comm]
  | className range body important => exact range.stop_shift distance
  | group start important =>
      rw [shift, stop, stop]
      omega
  | unhandled token => exact token.stop_shift distance

private theorem scanItem?_shift (offset distance : Nat) (cs : List Char) :
    scanItem? (offset + distance) cs =
      (scanItem? offset cs).map fun (lexeme, rest) => (lexeme.shift distance, rest) := by
  unfold scanItem?
  simp only [Nat.add_right_comm offset distance]
  generalize splitBody (cs.drop (cs.head? == some '!').toNat) = parts
  generalize (if parts.2.head? == some '/' then (parts.1 ++ ['/'], parts.2.tail) else
    (parts.1, parts.2)) = opened
  split
  · rfl
  · split
    · rfl
    · split
      · rfl
      · generalize splitRun (fun c _ => !isBlank c) cs = run
        obtain ⟨run, rest⟩ := run
        cases run <;> rfl

/-- Scanning finds the same lexeme wherever the window stands. -/
theorem scan?_shift (separator : List Char) (offset distance : Nat) (cs : List Char) :
    scan? separator (offset + distance) cs =
      (scan? separator offset cs).map fun (lexeme, rest) => (lexeme.shift distance, rest) := by
  unfold scan?
  split
  · rfl
  · split
    · rfl
    · split
      · simp only [Token.stop_ofChars, Nat.add_right_comm offset distance]
        rfl
      · exact scanItem?_shift offset distance cs

end Lexeme

end ClassExpr
