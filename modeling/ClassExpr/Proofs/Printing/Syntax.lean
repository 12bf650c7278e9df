import ClassExpr.Spread

set_option autoImplicit false

/-! Expressions that are written out: utilities, variants in front of them and groups around them.
Every part carries what its characters have to be, so a phrase can always be printed. What a printed
phrase means is said without reading it: one item for each utility, in order, where it stands. -/

namespace ClassExpr.Printing

open Text

def isNameChar (c : Char) : Bool :=
  isAsciiWord c || c == '-'

def isWordChar (c : Char) : Bool :=
  isNameChar c || c == '.'

/-- A value has no brackets, no parentheses, no quotes and neither slash. -/
def isValueChar (c : Char) : Bool :=
  !(c == '(' || c == ')' || c == '[' || c == ']' || c == '\'' || c == '"' || c == '/' || c == '\\')

structure Run (accepts : Char → Bool) where
  chars : List Char
  nonempty : chars ≠ []
  accepted : ∀ c ∈ chars, accepts c = true

abbrev Name := Run isNameChar

abbrev Word := Run isWordChar

abbrev Digits := Run Char.isDigit

/-- What separates one phrase from the next. -/
abbrev Gap := Run isAsciiBlank

/-- Words with a single slash between one and the next. -/
structure ClassName where
  first : Word
  others : List Word

structure Property where
  word : Word
  solid : word.chars.getLast? ≠ some '-'

/-- What stands in a bracket, which may be nothing. -/
structure Value where
  chars : List Char
  accepted : ∀ c ∈ chars, isValueChar c = true

/-- The opacity of a style. -/
inductive Strength where
  | number (digits : Digits)
  | bracket (value : Value)

inductive Utility where
  | className (name : ClassName)
  | property (prop : Property) (value : Value)
  | style (stem : Word) (value : Value) (strength : Option Strength)
  | slashed (stem : Word) (value : Value)
  | bare (value : Value)

structure Atom where
  leading : Bool := false
  utility : Utility
  trailing : Bool := false

/-- What stands in front of the separator. -/
inductive Modifier where
  | named (name : Name)
  | bare (value : Value)
  | styled (stem : Word) (value : Value)

mutual

inductive Phrase where
  | atom (atom : Atom)
  | modified (modifier : Modifier) (body : Phrase)
  | group (leading : Bool) (inside : Phrases) (trailing : Bool)

inductive Phrases where
  | one (phrase : Phrase)
  | more (phrase : Phrase) (gap : Gap) (rest : Phrases)

end

abbrev Document := Option Phrases

/-! ### Printing -/

def mark (important : Bool) : List Char :=
  if important then ['!'] else []

def bracketed (stem : List Char) (value : Value) : List Char :=
  stem ++ '[' :: value.chars ++ [']']

def ClassName.print (name : ClassName) : List Char :=
  name.first.chars ++ name.others.flatMap (fun word => '/' :: word.chars)

def Strength.print : Strength → List Char
  | .number digits => '/' :: digits.chars
  | .bracket value => '/' :: bracketed [] value

def suffix (strength : Option Strength) : List Char :=
  (strength.map Strength.print).getD []

@[simp] theorem suffix_none : suffix none = [] :=
  rfl

def Utility.print : Utility → List Char
  | .className name => name.print
  | .property prop value => bracketed prop.word.chars value
  | .style stem value strength => bracketed (stem.chars ++ ['-']) value ++ suffix strength
  | .slashed stem value => bracketed (stem.chars ++ ['/']) value
  | .bare value => bracketed [] value

def Atom.print (atom : Atom) : List Char :=
  mark atom.leading ++ atom.utility.print ++ mark atom.trailing

def Modifier.identifier : Modifier → List Char
  | .named name => name.chars
  | .bare value => bracketed [] value
  | .styled stem value => bracketed (stem.chars ++ ['-']) value

def Modifier.print (modifier : Modifier) : List Char :=
  modifier.identifier ++ [':']

mutual

def Phrase.print : Phrase → List Char
  | .atom atom => atom.print
  | .modified modifier body => modifier.print ++ body.print
  | .group leading inside trailing => mark leading ++ '(' :: inside.print ++ ')' :: mark trailing

def Phrases.print : Phrases → List Char
  | .one phrase => phrase.print
  | .more phrase gap rest => phrase.print ++ gap.chars ++ rest.print

end

def Document.print (document : Document) : String :=
  String.ofList ((document.map Phrases.print).getD [])

/-! ### Nesting -/

def Phrase.isGroup : Phrase → Bool
  | .group .. => true
  | .atom _ | .modified .. => false

mutual

/-- Every group and every variant that is not in front of a group is one level. -/
def Phrase.height : Phrase → Nat
  | .atom _ => 0
  | .modified _ body => if body.isGroup then body.height else body.height + 1
  | .group _ inside _ => inside.height + 1

def Phrases.height : Phrases → Nat
  | .one phrase => phrase.height
  | .more phrase _ rest => max phrase.height rest.height

end

def Document.height (document : Document) : Nat :=
  (document.map Phrases.height).getD 0

/-! ### Meaning -/

def Utility.kind : Utility → Kind
  | .className _ => .className
  | .property .. => .cssProperty
  | .style .. => .arbitraryStyle
  | .slashed .. => .arbitraryStyle
  | .bare _ => .arbitraryProperty

/-- What the value belongs to, with the hyphen or the slash behind it. -/
def Utility.prop? : Utility → Option (List Char)
  | .className _ => none
  | .property prop _ => some prop.word.chars
  | .style stem _ _ => some (stem.chars ++ ['-'])
  | .slashed stem _ => some (stem.chars ++ ['/'])
  | .bare _ => none

def Utility.value? : Utility → Option Value
  | .className _ => none
  | .property _ value => some value
  | .style _ value _ => some value
  | .slashed _ value => some value
  | .bare value => some value

def Strength.token (offset : Nat) : Strength → Token
  | .number digits => .ofChars (offset + 1) digits.chars
  | .bracket value => .ofChars (offset + 2) value.chars

def Utility.opacity? (offset : Nat) : Utility → Option Token
  | .style stem value strength =>
      strength.map (Strength.token (offset + byteLength (bracketed (stem.chars ++ ['-']) value)))
  | _ => none

def Atom.item (offset : Nat) (variants : List Token) (important : Bool) (atom : Atom) : Item :=
  let start := offset + byteLength (mark atom.leading)
  let prop := atom.utility.prop?
  { target := .ofChars start atom.utility.print
    kind := atom.utility.kind
    variants
    important := important || (atom.leading || atom.trailing)
    prop := prop.map (.ofChars start)
    content := atom.utility.value?.map fun value =>
      .ofChars (start + byteLength (prop.getD []) + 1) value.chars
    opacity := atom.utility.opacity? start }

mutual

/-- The items of a phrase at an offset. A variant comes behind those around it, and a marker of a
group counts for everything inside. -/
def Phrase.items (offset : Nat) (variants : List Token) (important : Bool) : Phrase → List Item
  | .atom atom => [atom.item offset variants important]
  | .modified modifier body =>
      body.items (offset + byteLength modifier.print)
        (variants ++ [.ofChars offset modifier.identifier]) important
  | .group leading inside trailing =>
      inside.items (offset + byteLength (mark leading) + 1) variants
        (important || (leading || trailing))

def Phrases.items (offset : Nat) (variants : List Token) (important : Bool) : Phrases → List Item
  | .one phrase => phrase.items offset variants important
  | .more phrase gap rest =>
      phrase.items offset variants important ++
        rest.items (offset + byteLength phrase.print + byteLength gap.chars) variants important

end

def Document.items (document : Document) : List Item :=
  (document.map (Phrases.items 0 [] false)).getD []

end ClassExpr.Printing
