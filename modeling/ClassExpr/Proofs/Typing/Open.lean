import ClassExpr.Proofs.Query.Comment
import ClassExpr.Proofs.Query.Limit

set_option autoImplicit false

/-! Where a class name may be typed. A cursor is open if what is typed there is an item of its own,
in the context that the cursor is told: this is not so behind some delimiters and in comments, nor
where typing takes a body further or ends it. Typing may also end a group or a body early, and so
take a marker away from what is around the cursor. -/

namespace ClassExpr

open Text

/-- A text with a class name of one letter, and a blank, typed behind a number of its bytes. -/
def Text.typeName (count : Nat) (cs : List Char) : List Char :=
  let (left, right) := splitBytes count cs
  left ++ 'x' :: ' ' :: right

theorem Text.typeName_byteLength (left right : List Char) :
    typeName (byteLength left) (left ++ right) = left ++ 'x' :: ' ' :: right := by
  rw [typeName, splitBytes_byteLength]

def Leaf.typed (position : Nat) : Leaf :=
  .className (.ofChars position ['x']) (.ofChars position ['x']) false

def Scope.within (scope : Scope) (variants : List Token) (important : Bool) : Scope :=
  ⟨scope.variants ++ variants, scope.important || important⟩

@[simp] theorem Scope.within_nil (scope : Scope) : scope.within [] false = scope := by
  simp [within]

@[simp] theorem Scope.enter_within (scope : Scope) (variant : Variant) (variants : List Token)
    (important : Bool) :
    (scope.enter variant).within variants important =
      scope.within (variant.identifier :: variants) important := by
  simp [within, enter]

@[simp] theorem Scope.mark_within (scope : Scope) (marked important : Bool)
    (variants : List Token) :
    (scope.mark marked).within variants important = scope.within variants (marked || important) := by
  simp [within, mark, Bool.or_assoc]

/-- A group has the position behind its start, and in front of its closing parenthesis if it is
closed. -/
def Node.Surrounds (position : Nat) : Node → Prop
  | .group range _ closed _ =>
      range.start < position ∧ position ≤ if closed then (closer range).start else range.stop
  | _ => False

def Node.Around (position : Nat) (node : Node) : Prop :=
  ∃ inner ∈ node.nodes, inner.Surrounds position

namespace Window

def Delimits (text : String) (window : Window) (offset : Nat) (taken : List Char) : Prop :=
  ∃ rest, Occurs text.toList offset (taken ++ rest) ∧
    offset + byteLength (taken ++ rest) = window.stop ∧ Comment.Spans taken rest

/-- The offsets of a window from which reading goes on: its start, and the end of all that is passed
over or read from such an offset. -/
inductive Visits (text : String) (window : Window) : Nat → Prop
  | start : Visits text window window.start
  | blank {offset : Nat} {c : Char} (before : Visits text window offset)
      (occurs : Occurs text.toList offset [c]) (white : isBlank c = true) :
      Visits text window (offset + c.utf8Size)
  | comment {offset : Nat} {taken : List Char} (before : Visits text window offset)
      (delimits : window.Delimits text offset taken) :
      Visits text window (offset + byteLength taken)
  | item {node : Node} (member : node ∈ window.items)
      (before : Visits text window node.range.start) : Visits text window node.range.stop

end Window

/-- The body that starts at an offset goes on with a name that is typed at a position. -/
def Body.Takes (text : String) (start position : Nat) : Prop :=
  (Body.split [':'] (between start position text.toList ++ ['x'])).2 = []

/-- What is typed at a position becomes an item, in the context that a cursor has there. -/
structure Open (text : String) (position : Nat) (nodes : List Node) (windows : List Window) :
    Prop where
  /-- The position is not at the end of a bracket that is never closed. -/
  bracket : ∀ range variant, Node.variantSpan range variant none ∈ nodes →
    variant.closed = false → position ≠ range.stop
  /-- It is not right behind the parenthesis of a group that a variant applies to. -/
  attached : ∀ range variant inner child important,
    Node.variantSpan range variant (some (.group inner child true important)) ∈ nodes →
      ¬((Node.closer inner).start < position ∧ position ≤ inner.stop)
  /-- The body of a variant takes what is typed there if it is not behind what the variant applies
  to. -/
  body : ∀ window ∈ windows, ∀ range variant child,
    Node.variantSpan range variant (some child) ∈ window.items → child.kind ≠ .group →
      variant.range.stop ≤ position → position ≤ window.stop →
        (Body.Takes text variant.range.stop position ↔ position ≤ range.stop)
  /-- No body loses its further items where the text is read up to the position. -/
  whole : ∀ node ∈ nodes, ¬node.Shortened position
  /-- It is not in a comment that reading passes over. -/
  comment : ∀ window ∈ windows, ∀ offset taken, window.Visits text offset →
    window.Delimits text offset taken → ¬Completion.Within position offset taken

/-- Typing at a position takes a marker from no group and gives none to what is typed: the position
is not between a marker and its parenthesis, and neither a group around it nor a body that such a
group stands in ends elsewhere. -/
structure Steady (text : String) (position : Nat) (nodes : List Node) (windows : List Window) :
    Prop where
  marker : ∀ range child closed important, Node.group range child closed important ∈ nodes →
    range.text.toList.head? = some '!' → position ≠ range.start + 1
  group : ∀ range child closed important, Node.group range child closed important ∈ nodes →
    (Node.group range child closed important).Surrounds position →
      let lead := Tree.marker range.text.toList
      let opened := range.text.toList.drop lead.length
      (Bracket.split? .parens []
          (typeName (position - (range.start + byteLength lead)) opened)).map (·.2) =
        (Bracket.split? .parens [] opened).map (·.2)
  body : ∀ window ∈ windows, ∀ range variant child,
    Node.variantSpan range variant (some child) ∈ window.items → child.kind ≠ .group →
      child.Around position →
        let behind := between variant.range.stop window.stop text.toList
        (Body.split [':'] (typeName (position - variant.range.stop) behind)).2 =
          (Body.split [':'] behind).2

section

variable {text : String} {position : Nat} {nodes others : List Node} {windows more : List Window}

theorem Open.mono (isOpen : Open text position nodes windows) (sub : others ⊆ nodes)
    (fewer : more ⊆ windows) : Open text position others more := by
  constructor
  · intro range variant member
    exact isOpen.bracket range variant (sub member)
  · intro range variant inner child important member
    exact isOpen.attached range variant inner child important (sub member)
  · intro window known
    exact isOpen.body window (fewer known)
  · intro node member
    exact isOpen.whole node (sub member)
  · intro window known
    exact isOpen.comment window (fewer known)

theorem Steady.mono (steady : Steady text position nodes windows) (sub : others ⊆ nodes)
    (fewer : more ⊆ windows) : Steady text position others more := by
  constructor
  · intro range child closed important member
    exact steady.marker range child closed important (sub member)
  · intro range child closed important member
    exact steady.group range child closed important (sub member)
  · intro window known
    exact steady.body window (fewer known)

end

/-- A context that is found at a position, and what is found there once a class name is typed: the
name, in the same context but for what marks it as important. Where no group is around, nothing
does; and where typing moves nothing, the same does. -/
def Lands (position : Nat) (scope : Scope) (found : Completion) (typed : Scope → Option Hover)
    (around steady : Prop) : Prop :=
  ∃ variants important marked, found = .ofScope (scope.within variants important) ∧
    (∀ scope, typed scope =
      some (.ofLeaf (scope.within variants marked) (.typed position))) ∧
    (¬around → important = false ∧ marked = false) ∧ (steady → important = marked)

namespace Lands

variable {position : Nat} {scope : Scope} {found : Completion} {typed : Scope → Option Hover}
  {around steady : Prop}

theorem fresh (none : found = .ofScope scope)
    (name : ∀ scope, typed scope = some (.ofLeaf scope (.typed position))) :
    Lands position scope found typed around steady := by
  refine ⟨[], false, false, ?_, ?_, fun _ => ⟨rfl, rfl⟩, fun _ => rfl⟩
  · rw [none, Scope.within_nil]
  · intro scope
    rw [name, Scope.within_nil]

theorem marked (none : found = .ofScope scope)
    (name : ∀ scope, typed scope = some (.ofLeaf (scope.mark true) (.typed position)))
    (inside : around) (changed : ¬steady) : Lands position scope found typed around steady := by
  refine ⟨[], false, true, ?_, ?_, fun outside => absurd inside outside,
    fun steady => absurd steady changed⟩
  · rw [none, Scope.within_nil]
  · intro scope
    rw [name, ← Scope.within_nil (scope.mark true), Scope.mark_within, Bool.or_false]

theorem enter {variant : Variant} (lands : Lands position (scope.enter variant) found typed around
    steady) :
    Lands position scope found (fun scope => typed (scope.enter variant)) around steady := by
  obtain ⟨variants, important, marked, here, there, outside, same⟩ := lands
  refine ⟨variant.identifier :: variants, important, marked, ?_, ?_, outside, same⟩
  · rw [here, Scope.enter_within]
  · intro scope
    dsimp only
    rw [there, Scope.enter_within]

/-- Inside of a group its mark counts, which typing may change only with the end of the group. -/
theorem mark {important marked : Bool} {further : Prop}
    (lands : Lands position (scope.mark important) found typed around further) (inside : around)
    (calm : steady → further ∧ important = marked) :
    Lands position scope found (fun scope => typed (scope.mark marked)) around steady := by
  obtain ⟨variants, inner, typedInner, here, there, _, same⟩ := lands
  refine ⟨variants, important || inner, marked || typedInner, ?_, ?_, ?_, ?_⟩
  · rw [here, Scope.mark_within]
  · intro scope
    dsimp only
    rw [there, Scope.mark_within]
  · intro outside
    exact absurd inside outside
  · intro steady
    obtain ⟨further, equal⟩ := calm steady
    rw [same further, equal]

theorem imp {others calm : Prop} (lands : Lands position scope found typed around steady)
    (wider : around → others) (calmer : calm → others → steady) :
    Lands position scope found typed others calm := by
  obtain ⟨variants, important, marked, here, there, outside, same⟩ := lands
  refine ⟨variants, important, marked, here, there, fun none => outside (none ∘ wider), ?_⟩
  intro settled
  by_cases inside : others
  · exact same (calmer settled inside)
  · obtain ⟨rfl, rfl⟩ := outside (inside ∘ wider)
    rfl

end Lands

end ClassExpr
