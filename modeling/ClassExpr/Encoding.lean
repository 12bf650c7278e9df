import ClassExpr.Completion
import ClassExpr.Hover
import ClassExpr.Json.Basic
import ClassExpr.Spread

set_option autoImplicit false

/-! JSON of trees and of the answers to queries. A field without a value is left out of an answer
and null in a tree. -/

namespace ClassExpr

def Token.toJson (token : Token) : Json :=
  .object
    [("start", .natural token.start), ("end", .natural token.stop), ("text", .string token.text)]

def Kind.toJson (kind : Kind) : Json :=
  .string kind.name

namespace Json

def tokens (tokens : List Token) : Json :=
  .array (tokens.map Token.toJson)

def orNull (value : Option Json) : Json :=
  value.getD .null

end Json

def Item.toJson (item : Item) : Json :=
  .object (
    [("target", item.target.toJson), ("kind", item.kind.toJson),
      ("variants", Json.tokens item.variants), ("important", .bool item.important)] ++
    Json.member? "prop" (item.prop.map Token.toJson) ++
    Json.member? "content" (item.content.map Token.toJson) ++
    Json.member? "opacity" (item.opacity.map Token.toJson))

def Fault.toJson (fault : Fault) : Json :=
  .object [("target", fault.target.toJson), ("kind", fault.kind.toJson),
    ("variants", Json.tokens fault.variants), ("important", .bool fault.important)]

def Spread.toJson (spread : Spread) : Json :=
  .object [("items", .array (spread.items.map Item.toJson)),
    ("emptyGroup", .array (spread.emptyGroup.map Fault.toJson)),
    ("emptyVariants", .array (spread.emptyVariants.map Fault.toJson)),
    ("notClosed", .array (spread.notClosed.map Fault.toJson))]

def Hover.toJson (hover : Hover) : Json :=
  .object (
    [("target", hover.target.toJson), ("kind", hover.kind.toJson),
      ("variants", Json.tokens hover.variants), ("important", .bool hover.important)] ++
    Json.member? "prop" (hover.prop.map Token.toJson) ++
    Json.member? "value" (hover.value.map Token.toJson))

def Completion.toJson (completion : Completion) : Json :=
  .object (
    Json.member? "target" (completion.target.map Token.toJson) ++
    Json.member? "word" (completion.word.map Token.toJson) ++
    Json.member? "kind" (completion.kind.map Kind.toJson) ++
    [("variants", Json.tokens completion.variants), ("important", .bool completion.important),
      ("inComment", .bool completion.inComment), ("inString", .bool completion.inString)] ++
    Json.member? "prop" (completion.prop.map Token.toJson) ++
    Json.member? "value" (completion.value.map Token.toJson))

def Variant.toJson : Variant → Json
  | .named variant =>
      .object [("kind", Kind.variant.toJson), ("range", variant.range.toJson),
        ("child", variant.identifier.toJson), ("separator", variant.separator.toJson)]
  | .bracket variant =>
      .object [("kind", Kind.arbitraryVariant.toJson), ("range", variant.range.toJson),
        ("child", variant.identifier.toJson), ("prefix", variant.stem.toJson),
        ("content", variant.content.toJson),
        ("separator", Json.orNull (variant.separator.map Token.toJson)),
        ("closed", .bool variant.closed)]

def Opacity.toJson (opacity : Opacity) : Json :=
  .object [("range", opacity.range.toJson), ("value", opacity.value.toJson),
    ("bracketed", .bool opacity.bracketed), ("closed", .bool opacity.closed)]

def Leaf.members : Leaf → List (String × Json)
  | .className range target important =>
      [("range", range.toJson), ("target", target.toJson), ("important", .bool important)]
  | .cssProperty range target prop content closed important =>
      [("range", range.toJson), ("target", target.toJson), ("prop", prop.toJson),
        ("content", content.toJson), ("closed", .bool closed), ("important", .bool important)]
  | .arbitraryStyle range target prop content closed important opacity =>
      [("range", range.toJson), ("target", target.toJson), ("prop", prop.toJson),
        ("content", content.toJson), ("closed", .bool closed), ("important", .bool important),
        ("opacity", Json.orNull (opacity.map Opacity.toJson))]
  | .arbitraryProperty range target content closed important =>
      [("range", range.toJson), ("target", target.toJson), ("content", content.toJson),
        ("closed", .bool closed), ("important", .bool important)]
  | .unknown range => [("range", range.toJson)]

mutual

def Node.toJson : Node → Json
  | .declaration range children =>
      .object [("kind", Kind.declaration.toJson), ("range", range.toJson),
        ("children", .array (Node.allToJson children))]
  | .variantSpan range variant none =>
      .object [("kind", Kind.variantSpan.toJson), ("range", range.toJson),
        ("variant", variant.toJson), ("child", .null)]
  | .variantSpan range variant (some child) =>
      .object [("kind", Kind.variantSpan.toJson), ("range", range.toJson),
        ("variant", variant.toJson), ("child", child.toJson)]
  | .group range child closed important =>
      .object [("kind", Kind.group.toJson), ("range", range.toJson), ("child", child.toJson),
        ("closed", .bool closed), ("important", .bool important)]
  | .leaf item => .object (("kind", item.kind.toJson) :: item.members)

def Node.allToJson : List Node → List Json
  | [] => []
  | child :: rest => child.toJson :: Node.allToJson rest

end

end ClassExpr
