import ClassExpr.Token

set_option autoImplicit false

/-! Where a run of characters stands in a text, and which cuts find it there. Cuts between two
characters are exact, so a token over such cuts is the text itself. -/

namespace ClassExpr

namespace Text

/-- The characters stand in the text at a byte offset. -/
def Occurs (text : List Char) (offset : Nat) (cs : List Char) : Prop :=
  ∃ before after, text = before ++ cs ++ after ∧ byteLength before = offset

theorem Occurs.refl (text : List Char) : Occurs text 0 text :=
  ⟨[], [], by simp, rfl⟩

theorem Occurs.left {text : List Char} {offset : Nat} {first second : List Char}
    (occurs : Occurs text offset (first ++ second)) : Occurs text offset first := by
  obtain ⟨before, after, whole, start⟩ := occurs
  exact ⟨before, second ++ after, by simp [whole], start⟩

theorem Occurs.right {text : List Char} {offset : Nat} {first second : List Char}
    (occurs : Occurs text offset (first ++ second)) :
    Occurs text (offset + byteLength first) second := by
  obtain ⟨before, after, whole, start⟩ := occurs
  exact ⟨before ++ first, after, by simp [whole], by simp [start]⟩

theorem Occurs.tail {text : List Char} {offset : Nat} {c : Char} {cs : List Char}
    (occurs : Occurs text offset (c :: cs)) : Occurs text (offset + c.utf8Size) cs := by
  have later : Occurs text (offset + byteLength [c]) cs := Occurs.right occurs
  simpa using later

theorem Occurs.trans {text cs inner : List Char} {offset shift : Nat}
    (outside : Occurs text offset cs) (inside : Occurs cs shift inner) :
    Occurs text (offset + shift) inner := by
  obtain ⟨before, after, whole, start⟩ := outside
  obtain ⟨front, back, parts, place⟩ := inside
  exact ⟨before ++ front, back ++ after, by simp [whole, parts], by simp [start, place]⟩

theorem Occurs.stop_le {text cs : List Char} {offset : Nat} (occurs : Occurs text offset cs) :
    offset + byteLength cs ≤ byteLength text := by
  obtain ⟨before, after, whole, start⟩ := occurs
  rw [whole, byteLength_append, byteLength_append]
  omega

theorem Occurs.isInfix {text cs : List Char} {offset : Nat} (occurs : Occurs text offset cs) :
    cs <:+: text := by
  obtain ⟨before, after, whole, _⟩ := occurs
  exact ⟨before, after, whole.symm⟩

theorem byteLength_toList (text : String) : byteLength text.toList = text.utf8ByteSize := by
  rw [← utf8ByteSize_ofList, String.ofList_toList]

theorem Occurs.suffix_splitBytes {text first second : List Char} {offset : Nat}
    (occurs : Occurs text offset (first ++ second)) :
    first <:+ (splitBytes (offset + byteLength first) text).1 := by
  obtain ⟨before, after, whole, rfl⟩ := occurs
  rw [whole, ← byteLength_append, ← List.append_assoc before, List.append_assoc (before ++ first),
    splitBytes_byteLength]
  exact List.suffix_append _ _

theorem floorBoundary_byteLength (left right : List Char) :
    floorBoundary (left ++ right) (byteLength left) = byteLength left := by
  rw [floorBoundary, splitBytes_byteLength]

theorem isBoundary_byteLength (left right : List Char) :
    isBoundary (left ++ right) (byteLength left) = true := by
  rw [isBoundary, floorBoundary_byteLength]
  exact beq_self_eq_true _

theorem exists_split_of_isBoundary {cs : List Char} {offset : Nat}
    (boundary : isBoundary cs offset = true) :
    ∃ left right, cs = left ++ right ∧ byteLength left = offset :=
  ⟨(splitBytes offset cs).1, (splitBytes offset cs).2, (splitBytes_append offset cs).symm,
    eq_of_beq boundary⟩

theorem isBoundary_floorBoundary (cs : List Char) (offset : Nat) :
    isBoundary cs (floorBoundary cs offset) = true := by
  have boundary := isBoundary_byteLength (splitBytes offset cs).1 (splitBytes offset cs).2
  rw [splitBytes_append] at boundary
  exact boundary

theorem floorBoundary_of_isBoundary {cs : List Char} {offset : Nat}
    (boundary : isBoundary cs offset = true) : floorBoundary cs offset = offset :=
  eq_of_beq boundary

theorem floorBoundary_le (cs : List Char) (offset : Nat) : floorBoundary cs offset ≤ offset :=
  byteLength_splitBytes_le offset cs

theorem Occurs.start_isBoundary {text cs : List Char} {offset : Nat}
    (occurs : Occurs text offset cs) : isBoundary text offset = true := by
  obtain ⟨before, after, whole, start⟩ := occurs
  rw [whole, List.append_assoc, ← start]
  exact isBoundary_byteLength before (cs ++ after)

theorem Occurs.stop_isBoundary {text cs : List Char} {offset : Nat}
    (occurs : Occurs text offset cs) : isBoundary text (offset + byteLength cs) = true := by
  obtain ⟨before, after, whole, start⟩ := occurs
  rw [whole, ← start, ← byteLength_append]
  exact isBoundary_byteLength (before ++ cs) after

theorem Occurs.between_eq {text cs : List Char} {offset : Nat} (occurs : Occurs text offset cs) :
    between offset (offset + byteLength cs) text = cs := by
  obtain ⟨before, after, whole, start⟩ := occurs
  subst start
  rw [whole, List.append_assoc, between, floorBoundary_byteLength, splitBytes_byteLength,
    Nat.add_sub_cancel_left, splitBytes_byteLength]

/-- A cut along both ends of an occurrence finds it. -/
theorem Occurs.slice?_eq {text cs : List Char} {offset : Nat} (occurs : Occurs text offset cs) :
    slice? text offset (offset + byteLength cs) = some cs := by
  rw [slice?, occurs.start_isBoundary, occurs.stop_isBoundary, occurs.between_eq]
  simp

theorem occurs_between {text : List Char} {start stop : Nat} (ordered : start ≤ stop)
    (first : isBoundary text start = true) (last : isBoundary text stop = true) :
    Occurs text start (between start stop text) ∧
      start + byteLength (between start stop text) = stop := by
  obtain ⟨before, rest, whole, atStart⟩ := exists_split_of_isBoundary first
  obtain ⟨front, back, parts, atStop⟩ := exists_split_of_isBoundary last
  have longer : byteLength before ≤ byteLength front := by omega
  have nested : before <+: front := by
    have shared : before <+: text := ⟨rest, whole.symm⟩
    have other : front <+: text := ⟨back, parts.symm⟩
    rcases List.prefix_or_prefix_of_prefix shared other with inside | outside
    · exact inside
    · obtain ⟨extra, same⟩ := outside
      have sizes := congrArg byteLength same
      rw [byteLength_append] at sizes
      cases extra with
      | nil => exact ⟨[], by simpa using same.symm⟩
      | cons c extra =>
          have positive := c.utf8Size_pos
          rw [byteLength_cons] at sizes
          omega
  obtain ⟨cs, same⟩ := nested
  have found : Occurs text start cs := ⟨before, back, by rw [same, ← parts], atStart⟩
  have size : start + byteLength cs = stop := by
    rw [← atStop, ← same, byteLength_append, atStart]
  have exact := found.between_eq
  rw [size] at exact
  rw [exact]
  exact ⟨found, size⟩

/-- The two offsets of a window, each moved back to a boundary and the first one to the last. -/
theorem occurs_window (text : List Char) (start stop : Nat) :
    let last := floorBoundary text stop
    let first := min (floorBoundary text start) last
    Occurs text first (between first last text) ∧
      first + byteLength (between first last text) = last := by
  apply occurs_between (Nat.min_le_right _ _)
  · rcases Nat.le_total (floorBoundary text start) (floorBoundary text stop) with ordered | reversed
    · rw [Nat.min_eq_left ordered]
      exact isBoundary_floorBoundary _ _
    · rw [Nat.min_eq_right reversed]
      exact isBoundary_floorBoundary _ _
  · exact isBoundary_floorBoundary _ _

end Text

namespace Token

open Text

@[simp] theorem toList_ofChars (start : Nat) (cs : List Char) :
    (ofChars start cs).text.toList = cs :=
  String.toList_ofList

theorem isEmpty_ofChars (offset : Nat) (cs : List Char) :
    (ofChars offset cs).isEmpty = cs.isEmpty := by
  rw [isEmpty, size, ofChars, utf8ByteSize_ofList]
  cases cs with
  | nil => rfl
  | cons c cs =>
      have positive := c.utf8Size_pos
      rw [byteLength_cons, List.isEmpty_cons, beq_eq_false_iff_ne]
      omega

theorem ofChars_inj {first second : Nat} {left right : List Char}
    (same : ofChars first left = ofChars second right) : left = right := by
  have texts := congrArg (fun token : Token => token.text.toList) same
  simpa using texts

theorem ofSource?_eq {source : String} {offset : Nat} {cs : List Char}
    (occurs : Occurs source.toList offset cs) :
    ofSource? source offset (offset + byteLength cs) = some (ofChars offset cs) := by
  rw [ofSource?, occurs.slice?_eq, Option.map_some]

def PartOf (inner outer : Token) : Prop :=
  ∃ shift, inner.start = outer.start + shift ∧ Occurs outer.text.toList shift inner.text.toList

theorem PartOf.refl (token : Token) : token.PartOf token :=
  ⟨0, rfl, Occurs.refl _⟩

theorem PartOf.trans {inner middle outer : Token} (first : inner.PartOf middle)
    (second : middle.PartOf outer) : inner.PartOf outer := by
  obtain ⟨shift, start, inside⟩ := first
  obtain ⟨further, place, outside⟩ := second
  exact ⟨further + shift, by omega, outside.trans inside⟩

theorem stop_eq (token : Token) : token.stop = token.start + byteLength token.text.toList := by
  rw [stop, size, ← utf8ByteSize_ofList, String.ofList_toList]

theorem PartOf.start_le {inner outer : Token} (part : inner.PartOf outer) :
    outer.start ≤ inner.start := by
  obtain ⟨shift, start, _⟩ := part
  omega

theorem PartOf.stop_le {inner outer : Token} (part : inner.PartOf outer) :
    inner.stop ≤ outer.stop := by
  obtain ⟨shift, start, inside⟩ := part
  have bound := inside.stop_le
  rw [stop_eq, stop_eq]
  omega

theorem PartOf.occurs {token : Token} {source : List Char}
    (part : token.PartOf (.ofChars 0 source)) :
    Occurs source token.start token.text.toList := by
  obtain ⟨shift, start, inside⟩ := part
  rw [start_ofChars, Nat.zero_add] at start
  rwa [toList_ofChars, ← start] at inside

theorem partOf_ofChars (offset : Nat) (before cs after : List Char) :
    (ofChars (offset + byteLength before) cs).PartOf (ofChars offset (before ++ cs ++ after)) :=
  ⟨byteLength before, rfl, before, after, by simp, rfl⟩

end Token

end ClassExpr
