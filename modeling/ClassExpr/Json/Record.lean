import ClassExpr.Json.Basic
import ClassExpr.Text.Numeral

set_option autoImplicit false

/-! Decoding of records. A record is an object, whose unknown members are ignored, or an array of
the values in the order of the fields. A field that is named twice, or an array that is too long,
is refused; a missing field is left to the one who reads it. -/

namespace ClassExpr.Json

def fields? (names : List String) : Json → Option (List (Option Json))
  | .array elements =>
      if names.length < elements.length then none
      else some (elements.map some ++ List.replicate (names.length - elements.length) none)
  | .object members =>
      if names.any (fun name => 1 < (members.filter (·.1 == name)).length) then none
      else some (names.map (fun name => members.lookup name))
  | _ => none

def natural? : Json → Option Nat
  | .natural value => Text.word? value
  | _ => none

def text? : Json → Option String
  | .string text => some text
  | _ => none

def bool? : Json → Option Bool
  | .bool value => some value
  | _ => none

def texts? : Json → Option (List String)
  | .array elements => elements.mapM text?
  | _ => none

/-- A field that may be missing but, if it is there, must be readable. -/
def field? {T : Type} (read : Json → Option T) (default : T) : Option Json → Option T
  | none => some default
  | some value => read value

end ClassExpr.Json
