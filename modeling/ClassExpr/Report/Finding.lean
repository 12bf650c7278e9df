import ClassExpr.Json.Record
import ClassExpr.Spread
import ClassExpr.Text.Place

set_option autoImplicit false

/-! Findings of one file: what flattening reports as broken or empty, and the items that could not
be recognised, in the order of the text. Items that were recognised are counted only. -/

namespace ClassExpr

inductive FindingKind where
  | notClosed
  | emptyGroup
  | emptyVariants
  | unknown
deriving Repr, DecidableEq

namespace FindingKind

def all : List FindingKind :=
  [.notClosed, .emptyGroup, .emptyVariants, .unknown]

def name : FindingKind → String
  | .notClosed => "notClosed"
  | .emptyGroup => "emptyGroup"
  | .emptyVariants => "emptyVariants"
  | .unknown => "unknown"

def ofName? (name : String) : Option FindingKind :=
  all.find? (fun kind => kind.name == name)

def toJson (kind : FindingKind) : Json :=
  .string kind.name

/-- A kind is given by its name, or by an object with that name for its only key and null. -/
def ofJson? : Json → Option FindingKind
  | .string name => ofName? name
  | .object [(name, .null)] => ofName? name
  | _ => none

end FindingKind

structure Finding where
  kind : FindingKind
  /-- The name of the kind of node that was found. -/
  node : String
  text : String
  line : Nat
  column : Nat
  variants : List String
  important : Bool
deriving Repr, DecidableEq

namespace Finding

def ofFault (source : List Char) (kind : FindingKind) (fault : Fault) : Finding :=
  let (line, column) := Text.place source fault.target.start
  { kind
    node := fault.kind.name
    text := fault.target.text
    line
    column
    variants := fault.variants.map (·.text)
    important := fault.important }

def location (finding : Finding) : String :=
  toString finding.line ++ ":" ++ toString finding.column

def toJson (finding : Finding) : Json :=
  .object (
    [("kind", finding.kind.toJson), ("node", .string finding.node), ("text", .string finding.text),
      ("line", .natural finding.line), ("column", .natural finding.column)] ++
    (if finding.variants.isEmpty then []
      else [("variants", .array (finding.variants.map .string))]) ++
    [("important", .bool finding.important)])

def fieldNames : List String :=
  ["kind", "node", "text", "line", "column", "variants", "important"]

def ofJson? (value : Json) : Option Finding := do
  match ← value.fields? fieldNames with
  | [kind, node, text, line, column, variants, important] =>
      pure
        { kind := ← FindingKind.ofJson? (← kind)
          node := ← Json.text? (← node)
          text := ← Json.text? (← text)
          line := ← Json.natural? (← line)
          column := ← Json.natural? (← column)
          variants := ← Json.field? Json.texts? [] variants
          important := ← Json.field? Json.bool? false important }
  | _ => none

end Finding

structure FileReport where
  /-- The number of recognised items. -/
  items : Nat
  findings : List Finding
deriving Repr, DecidableEq

namespace FileReport

/-- An item as a region, for those that were not recognised. -/
def regionOf (item : Item) : Fault :=
  ⟨item.target, item.kind, item.variants, item.important⟩

def regions (spread : Spread) : List (FindingKind × Fault) :=
  spread.notClosed.map (FindingKind.notClosed, ·) ++
    spread.emptyGroup.map (FindingKind.emptyGroup, ·) ++
    spread.emptyVariants.map (FindingKind.emptyVariants, ·) ++
    spread.unknown.map (fun item => (FindingKind.unknown, regionOf item))

def ofSpread (source : String) (spread : Spread) : FileReport :=
  let cs := source.toList
  let ordered := (regions spread).mergeSort
    (fun left right => left.2.target.start ≤ right.2.target.start)
  { items := spread.items.length - spread.unknown.length
    findings := ordered.map (fun (kind, fault) => Finding.ofFault cs kind fault) }

def ofText (settings : Settings) (source : String) : FileReport :=
  ofSpread source (Spread.ofText settings source)

def toJson (file : FileReport) : Json :=
  .object [("items", .natural file.items), ("findings", .array (file.findings.map Finding.toJson))]

def fieldNames : List String :=
  ["items", "findings"]

def ofJson? (value : Json) : Option FileReport := do
  match ← value.fields? fieldNames with
  | [items, findings] =>
      let items ← Json.natural? (← items)
      match ← findings with
      | .array elements => pure { items, findings := ← elements.mapM Finding.ofJson? }
      | _ => none
  | _ => none

end FileReport

end ClassExpr
