import ClassExpr.FileTree.Path
import ClassExpr.Json.Reader
import ClassExpr.Json.Record
import ClassExpr.Settings
import ClassExpr.Yaml.Mapping

set_option autoImplicit false

/-! Settings in files. A setting that is not there has its default; one that is there twice, or is
of another type, makes the file malformed. What the settings say is judged later. -/

namespace ClassExpr.Settings

def fieldNames : List String :=
  ["separator", "max_depth"]

def ofJson? (value : Json) : Option Settings := do
  match ← value.fields? fieldNames with
  | [separator, maxDepth] =>
      let default : Settings := {}
      pure
        { separator := ← Json.field? Json.text? default.separator separator
          maxDepth := ← Json.field? Json.natural? default.maxDepth maxDepth }
  | _ => none

/-- A natural number of at most 64 bits as a plain scalar: in decimal without zeros in front, or in
base 16, 8 or 2 with the base in front. -/
def naturalOfPlain? (text : String) : Option Nat :=
  let value? := match Text.dropPlus text.toList with
    | '0' :: 'x' :: digits => Text.numeral? 16 digits
    | '0' :: 'o' :: digits => Text.numeral? 8 digits
    | '0' :: 'b' :: digits => Text.numeral? 2 digits
    | '0' :: _ :: _ => none
    | digits => Text.numeral? 10 digits
  value?.bind Text.word?

def naturalOfYaml? : Yaml.Value → Option Nat
  | .plain text => naturalOfPlain? text
  | _ => none

def ofYaml? (fields : List (String × Yaml.Value)) : Option Settings := do
  let default : Settings := {}
  if fieldNames.any (fun name => 1 < (fields.filter (·.1 == name)).length) then none
  else
    let separator ← match fields.lookup "separator" with
      | none => some default.separator
      | some value => value.text?
    let maxDepth ← match fields.lookup "max_depth" with
      | none => some default.maxDepth
      | some value => naturalOfYaml? value
    pure { separator, maxDepth }

inductive Format where
  | json
  | yaml
deriving Repr, DecidableEq

def Format.ofPath? (path : String) : Option Format :=
  match Path.extension? path with
  | some "json" => some .json
  | some "yaml" => some .yaml
  | some "yml" => some .yaml
  | _ => none

/-- A way to read the text of a file in a format. The settings may be out of bounds. -/
abbrev Reading : Type :=
  Format → String → Except Error Settings

def ofText (format : Format) (text : String) : Except Error Settings :=
  match format with
  | .json => ((Json.read? text).bind ofJson?).elim (.error (.settings .malformedJson)) .ok
  | .yaml => ((Yaml.fields? text).bind ofYaml?).elim (.error .malformedYaml) .ok

def ofFile (reading : Reading) (format : Format) (path : String)
    (content : Except FileFault String) : Except Error Settings :=
  match content with
  | .error cause => .error (.settings (.unreadable path cause))
  | .ok text => reading format text

def withSeparator (settings : Settings) (separator : Option String) : Settings :=
  { settings with separator := separator.getD settings.separator }

end ClassExpr.Settings
