import ClassExpr.Token

set_option autoImplicit false

/-! The tree of a class expression. Leaves name one utility or declaration each; variants and groups
give them context. Every node knows the range of text it was read from. -/

namespace ClassExpr

/-- What a node, a variant or a finding is called. -/
inductive Kind where
  | declaration
  | variant
  | arbitraryVariant
  | variantSpan
  | group
  | className
  | cssProperty
  | arbitraryStyle
  | arbitraryProperty
  | unknown
deriving Repr, DecidableEq

namespace Kind

def isLeaf : Kind → Bool
  | .className | .cssProperty | .arbitraryStyle | .arbitraryProperty | .unknown => true
  | .declaration | .variant | .arbitraryVariant | .variantSpan | .group => false

def name : Kind → String
  | .declaration => "Declaration"
  | .variant => "Variant"
  | .arbitraryVariant => "ArbitraryVariant"
  | .variantSpan => "VariantSpan"
  | .group => "Group"
  | .className => "ClassName"
  | .cssProperty => "CssProperty"
  | .arbitraryStyle => "ArbitraryStyle"
  | .arbitraryProperty => "ArbitraryProperty"
  | .unknown => "Unknown"

end Kind

structure NamedVariant where
  range : Token
  identifier : Token
  separator : Token
deriving Repr, DecidableEq

/-- A bracket with its stem and separator. One that is not closed has no separator, and its
identifier is all of it. -/
structure BracketVariant where
  range : Token
  identifier : Token
  stem : Token
  content : Token
  separator : Option Token
  closed : Bool
deriving Repr, DecidableEq

inductive Variant where
  | named (variant : NamedVariant)
  | bracket (variant : BracketVariant)
deriving Repr, DecidableEq

namespace Variant

def range : Variant → Token
  | .named variant => variant.range
  | .bracket variant => variant.range

/-- What the variant is listed as: all of it but the separator. -/
def identifier : Variant → Token
  | .named variant => variant.identifier
  | .bracket variant => variant.identifier

def closed : Variant → Bool
  | .named _ => true
  | .bracket variant => variant.closed

def kind : Variant → Kind
  | .named _ => .variant
  | .bracket _ => .arbitraryVariant

end Variant

structure Opacity where
  range : Token
  value : Token
  bracketed : Bool
  closed : Bool
deriving Repr, DecidableEq

/-- In a leaf the range includes the importance markers and the target does not. -/
inductive Leaf where
  | className (range target : Token) (important : Bool)
  | cssProperty (range target prop content : Token) (closed important : Bool)
  | arbitraryStyle (range target prop content : Token) (closed important : Bool)
      (opacity : Option Opacity)
  | arbitraryProperty (range target content : Token) (closed important : Bool)
  | unknown (range : Token)
deriving Repr, DecidableEq

namespace Leaf

def kind : Leaf → Kind
  | .className .. => .className
  | .cssProperty .. => .cssProperty
  | .arbitraryStyle .. => .arbitraryStyle
  | .arbitraryProperty .. => .arbitraryProperty
  | .unknown _ => .unknown

def range : Leaf → Token
  | .className range .. => range
  | .cssProperty range .. => range
  | .arbitraryStyle range .. => range
  | .arbitraryProperty range .. => range
  | .unknown range => range

def target : Leaf → Token
  | .className _ target _ => target
  | .cssProperty _ target .. => target
  | .arbitraryStyle _ target .. => target
  | .arbitraryProperty _ target .. => target
  | .unknown range => range

def important : Leaf → Bool
  | .className _ _ important => important
  | .cssProperty _ _ _ _ _ important => important
  | .arbitraryStyle _ _ _ _ _ important _ => important
  | .arbitraryProperty _ _ _ _ important => important
  | .unknown _ => false

def closed : Leaf → Bool
  | .className .. => true
  | .cssProperty _ _ _ _ closed _ => closed
  | .arbitraryStyle _ _ _ _ closed _ _ => closed
  | .arbitraryProperty _ _ _ closed _ => closed
  | .unknown _ => true

def prop? : Leaf → Option Token
  | .cssProperty _ _ prop .. => some prop
  | .arbitraryStyle _ _ prop .. => some prop
  | _ => none

def content? : Leaf → Option Token
  | .cssProperty _ _ _ content .. => some content
  | .arbitraryStyle _ _ _ content .. => some content
  | .arbitraryProperty _ _ content .. => some content
  | _ => none

def opacity? : Leaf → Option Opacity
  | .arbitraryStyle _ _ _ _ _ _ opacity => opacity
  | _ => none

end Leaf

inductive Node where
  /-- Any number of items but one. -/
  | declaration (range : Token) (children : List Node)
  /-- A variant with its body; a variant without a body has no child. -/
  | variantSpan (range : Token) (variant : Variant) (child : Option Node)
  | group (range : Token) (child : Node) (closed important : Bool)
  | leaf (leaf : Leaf)
deriving Repr

namespace Node

def kind : Node → Kind
  | .declaration .. => .declaration
  | .variantSpan .. => .variantSpan
  | .group .. => .group
  | .leaf item => item.kind

def range : Node → Token
  | .declaration range _ => range
  | .variantSpan range _ _ => range
  | .group range _ _ _ => range
  | .leaf item => item.range

def isBlank : Node → Bool
  | .declaration _ children => children.isEmpty
  | _ => false

def children : Node → List Node
  | .declaration _ children => children
  | .variantSpan _ _ child => child.toList
  | .group _ child _ _ => [child]
  | .leaf _ => []

mutual

def preorder (depth : Nat) : Node → List (Nat × Node)
  | .declaration range children =>
      (depth, .declaration range children) :: preorderAll (depth + 1) children
  | .variantSpan range variant none => [(depth, .variantSpan range variant none)]
  | .variantSpan range variant (some child) =>
      (depth, .variantSpan range variant (some child)) :: preorder (depth + 1) child
  | .group range child closed important =>
      (depth, .group range child closed important) :: preorder (depth + 1) child
  | .leaf item => [(depth, .leaf item)]

def preorderAll (depth : Nat) : List Node → List (Nat × Node)
  | [] => []
  | child :: rest => preorder depth child ++ preorderAll depth rest

end

end Node

end ClassExpr
