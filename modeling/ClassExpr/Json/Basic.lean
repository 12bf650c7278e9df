set_option autoImplicit false

/-! JSON values. An object is the list of its members as they are written, so that a repeated key
stays visible. Numbers are natural or kept by their numeral; a value with a string that denotes no
text, because a surrogate is unpaired, has no reading. -/

namespace ClassExpr

inductive Json where
  | null
  | bool (value : Bool)
  | natural (value : Nat)
  /-- Any number that is not written as a natural number. -/
  | decimal (numeral : String)
  | string (text : String)
  /-- A value that contains a string without a text. -/
  | unreadable
  | array (elements : List Json)
  | object (members : List (String × Json))
deriving Repr, BEq

namespace Json

def get? (key : String) : Json → Option Json
  | .object members => members.lookup key
  | _ => none

def member? (key : String) (value : Option Json) : List (String × Json) :=
  (value.map fun value => (key, value)).toList

mutual

def sortKeys : Json → Json
  | .array elements => .array (sortAll elements)
  | .object members =>
      .object ((sortMembers members).mergeSort (fun left right => left.1 ≤ right.1))
  | other => other

def sortAll : List Json → List Json
  | [] => []
  | element :: rest => sortKeys element :: sortAll rest

def sortMembers : List (String × Json) → List (String × Json)
  | [] => []
  | (key, value) :: rest => (key, sortKeys value) :: sortMembers rest

end

end Json

end ClassExpr
