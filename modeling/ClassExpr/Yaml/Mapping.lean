import ClassExpr.Yaml.Scalar

set_option autoImplicit false

/-! A document that is one mapping with scalars for its keys: block style with an entry for each
line, or flow style in braces. Comments and one document start are passed over. Values that are
collections are read for their syntax only; those in block style end where the indentation does.
Anchors, tags, block scalars and second documents are refused. -/

namespace ClassExpr.Yaml

/-! ### Lines -/

def normalizeBreaks : List Char → List Char
  | [] => []
  | '\r' :: '\n' :: cs => '\n' :: normalizeBreaks cs
  | c :: cs => (if c == '\r' || c == '\u0085' then '\n' else c) :: normalizeBreaks cs

def isAllowed (c : Char) : Bool :=
  let n := c.toNat
  n == 0x9 || n == 0xA || n == 0xD || (0x20 ≤ n && n ≤ 0x7E) || n == 0x85 ||
    (0xA0 ≤ n && n ≤ 0xFFFD) || 0x10000 ≤ n

/-- The start of the first line that has content, seen from a place inside the line at `start`. -/
def nextLine (start : List Char) (inComment : Bool) : List Char → List Char
  | [] => []
  | c :: cs =>
      if c == '\n' then nextLine cs false cs
      else if inComment then nextLine start true cs
      else if c == ' ' then nextLine start false cs
      else if c == '#' then nextLine start true cs
      else start

def skipLines (cs : List Char) : List Char :=
  nextLine cs false cs

def endLine? (cs : List Char) : Option (List Char) :=
  match cs.dropWhile isInlineBlank with
  | [] => some []
  | '\n' :: rest => some rest
  | '#' :: rest => some ((rest.dropWhile (· != '\n')).drop 1)
  | _ => none

def skipDirectives (inside : Bool) : List Char → List Char
  | [] => []
  | c :: cs =>
      if inside then skipDirectives (c != '\n') cs
      else if c == '%' then skipDirectives true cs
      else c :: cs

def isDocumentEnd (cs : List Char) : Bool :=
  match skipLines cs with
  | [] => true
  | '.' :: '.' :: '.' :: rest =>
      endsWord rest && (endLine? rest).any (fun rest => (skipLines rest).isEmpty)
  | _ => false

/-- Drops a line and all lines after it that are indented by more than `indent`, or by as much and
begin an element of a sequence. -/
def skipBlock (indent : Nat) : Nat → List Char → List Char
  | 0, cs => cs
  | fuel + 1, cs =>
      let rest := skipLines ((cs.dropWhile (· != '\n')).drop 1)
      let column := (rest.takeWhile (· == ' ')).length
      let content := rest.drop column
      if content.isEmpty then []
      else if indent < column || (column = indent && content.head? == some '-' &&
          endsWord content.tail) then skipBlock indent fuel rest
      else rest

/-! ### Flow style -/

def skipFlow (inComment : Bool) : List Char → List Char
  | [] => []
  | c :: cs =>
      if c == '\n' then skipFlow false cs
      else if inComment then skipFlow true cs
      else if isInlineBlank c then skipFlow false cs
      else if c == '#' then skipFlow true cs
      else c :: cs

def scalar? (flow : Bool) (indent column : Nat) : List Char → Option (Value × List Char)
  | '\'' :: cs => (single? [] .none cs).map (fun (text, rest) => (.quoted text, rest))
  | '"' :: cs => (double? .text [] .none cs).map (fun (text, rest) => (.quoted text, rest))
  | cs =>
      if startsPlain flow cs then
        (plain? flow indent { column } cs).map (fun (text, rest) => (.plain text, rest))
      else none

mutual

def flowValue? : Nat → List Char → Option (Value × List Char)
  | 0, _ => none
  | fuel + 1, cs =>
      match cs with
      | '[' :: rest =>
          (flowElements? fuel (skipFlow false rest)).map (fun rest => (.collection, rest))
      | '\x7b' :: rest =>
          (flowEntries? fuel (skipFlow false rest)).map (fun (_, rest) => (.collection, rest))
      | cs => scalar? true 0 0 cs

/-- Reads one entry of a flow mapping; what has no value is empty. -/
def flowEntry? : Nat → List Char → Option ((Value × Value) × List Char)
  | 0, _ => none
  | fuel + 1, cs => do
      let (key, rest) ← flowValue? fuel cs
      match skipFlow false rest with
      | ':' :: rest =>
          match skipFlow false rest with
          | ',' :: rest => pure ((key, .plain ""), ',' :: rest)
          | '\x7d' :: rest => pure ((key, .plain ""), '\x7d' :: rest)
          | ']' :: rest => pure ((key, .plain ""), ']' :: rest)
          | rest => do
              let (value, rest) ← flowValue? fuel rest
              pure ((key, value), rest)
      | rest => pure ((key, .plain ""), rest)

def flowElements? : Nat → List Char → Option (List Char)
  | 0, _ => none
  | fuel + 1, cs =>
      match cs with
      | ']' :: rest => some rest
      | cs => do
          let (_, rest) ← flowEntry? fuel cs
          match skipFlow false rest with
          | ',' :: rest => flowElements? fuel (skipFlow false rest)
          | ']' :: rest => pure rest
          | _ => none

def flowEntries? : Nat → List Char → Option (List (Value × Value) × List Char)
  | 0, _ => none
  | fuel + 1, cs =>
      match cs with
      | '\x7d' :: rest => some ([], rest)
      | cs => do
          let (entry, rest) ← flowEntry? fuel cs
          match skipFlow false rest with
          | ',' :: rest =>
              let (entries, rest) ← flowEntries? fuel (skipFlow false rest)
              pure (entry :: entries, rest)
          | '\x7d' :: rest => pure ([entry], rest)
          | _ => none

end

/-! ### Block style -/

/-- Reads a value that starts on the line of its key or, if `below`, on a line of its own; then it
may be a collection in block style. The rest starts at a line. -/
def blockValue? (indent column : Nat) (below : Bool) (cs : List Char) :
    Option (Value × List Char) :=
  match cs with
  | '[' :: _ | '\x7b' :: _ => do
      let (value, rest) ← flowValue? (4 * cs.length + 4) cs
      pure (value, ← endLine? rest)
  | cs =>
      if below && cs.head? == some '-' && endsWord cs.tail then
        some (.collection, skipBlock indent cs.length cs)
      else do
        let (value, rest) ← scalar? false indent column cs
        match rest.dropWhile isInlineBlank with
        | ':' :: _ => if below then pure (.collection, skipBlock indent cs.length cs) else none
        | rest => pure (value, ← endLine? rest)

def entryValue? (indent : Nat) (cs : List Char) : Option (Value × List Char) :=
  match endLine? cs with
  | none => blockValue? indent (indent + 1) false (cs.dropWhile isInlineBlank)
  | some rest =>
      let rest := skipLines rest
      let column := (rest.takeWhile (· == ' ')).length
      let content := rest.drop column
      if content.isEmpty then some (.plain "", [])
      else if indent < column then blockValue? indent column true content
      else if column = indent && content.head? == some '-' && endsWord content.tail then
        some (.collection, skipBlock indent content.length content)
      else some (.plain "", rest)

/-- Reads the key of an entry, up to its colon; a key does not go on over lines. -/
def entryKey? (cs : List Char) : Option (String × List Char) := do
  let (key, rest) ← scalar? false cs.length 0 cs
  match rest.dropWhile isInlineBlank with
  | ':' :: rest =>
      if endsWord rest && !((cs.take (cs.length - rest.length)).contains '\n') then
        key.text?.map (fun text => (text, rest))
      else none
  | _ => none

/-- Reads the entries of a block mapping, each at the start of a line with the same indentation. -/
def blockEntries? (indent : Nat) : Nat → List Char → Option (List (String × Value) × List Char)
  | 0, _ => none
  | fuel + 1, cs =>
      let rest := skipLines cs
      let column := (rest.takeWhile (· == ' ')).length
      if rest.isEmpty || isMarker rest then some ([], rest)
      else if column ≠ indent then none
      else do
        let (key, rest) ← entryKey? (rest.drop column)
        let (value, rest) ← entryValue? indent rest
        let (entries, rest) ← blockEntries? indent fuel rest
        pure ((key, value) :: entries, rest)

/-! ### Documents -/

def fieldsOf? (entries : List (Value × Value)) : Option (List (String × Value)) :=
  entries.mapM (fun (key, value) => key.text?.map (fun text => (text, value)))

def flowDocument? (cs : List Char) : Option (List (String × Value)) := do
  let (entries, rest) ← flowEntries? (4 * cs.length + 4) (skipFlow false cs)
  let rest ← endLine? rest
  if isDocumentEnd rest then fieldsOf? entries else none

def body? (cs : List Char) : Option (List (String × Value)) :=
  let rest := skipLines cs
  if isDocumentEnd rest then some []
  else
    let column := (rest.takeWhile (· == ' ')).length
    match rest.drop column with
    | '\x7b' :: inside => flowDocument? inside
    | _ => do
        let (fields, rest) ← blockEntries? column (rest.length + 1) rest
        if isDocumentEnd rest then pure fields else none

def fields? (text : String) : Option (List (String × Value)) :=
  let cs := text.toList
  let cs := if cs.head? == some '\uFEFF' then cs.tail else cs
  if !cs.all isAllowed then none
  else
    let cs := skipLines (normalizeBreaks cs)
    let rest := skipLines (skipDirectives false cs)
    if isMarker rest && rest.head? == some '-' then
      match endLine? (rest.drop 3) with
      | some rest => body? rest
      | none =>
          match (rest.drop 3).dropWhile isInlineBlank with
          | '\x7b' :: inside => flowDocument? inside
          | _ => none
    else if cs.head? == some '%' then none
    else body? rest

end ClassExpr.Yaml
