import ClassExpr.Encoding
import ClassExpr.Json.Printer

set_option autoImplicit false

/-! Queries over one expression, and their answers as JSON text with the keys in order. -/

namespace ClassExpr

inductive Query where
  | spread
  | hover (position : Nat)
  | suggest (cursor : Nat)
deriving Repr, DecidableEq

namespace Query

def answer (settings : Settings) (text : String) : Query → Json
  | .spread => (Spread.ofText settings text).toJson
  | .hover position => Json.orNull ((Hover.atPosition? settings text position).map Hover.toJson)
  | .suggest cursor => (Completion.atCursor settings text cursor).toJson

def render (settings : Settings) (query : Query) (text : String) (pretty : Bool) : String :=
  let value := (query.answer settings text).sortKeys
  if pretty then value.pretty else value.compact

end Query

end ClassExpr
