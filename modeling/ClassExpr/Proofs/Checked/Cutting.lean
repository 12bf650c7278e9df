import ClassExpr.Proofs.Checked.Cursor

set_option autoImplicit false

/-! Tokens that are cut out of tokens. Both ends of a stretch are kept as numbers beside its
characters, and every cut is made of operations that can fail; still no cut fails, and whatever
offsets are asked for, the ends go with the characters: a stretch is inside the one that it is cut
out of, and it is what stands in the source between its ends. -/

namespace ClassExpr

open Text

namespace Token

/-- What is asked of a token: a part between two offsets, or the part in front of one. -/
inductive Cut where
  | slice (start stop : Nat)
  | upTo (position : Nat)
deriving Repr, DecidableEq

def cut (token : Token) : Cut → Token
  | .slice start stop => token.slice start stop
  | .upTo position => token.upTo position

def cutAll (token : Token) (cuts : List Cut) : Token :=
  cuts.foldl cut token

end Token

namespace Checked

/-- Some characters with the offsets of both their ends, which nothing makes fit together. -/
structure Stretch where
  start : Nat
  stop : Nat
  text : List Char
deriving Repr, DecidableEq

namespace Stretch

def ofToken (token : Token) : Stretch :=
  ⟨token.start, token.stop, token.text.toList⟩

def ofSource? (source : String) (start stop : Nat) : Option Stretch := do
  let text ← Text.slice? source.toList start stop
  some ⟨start, stop, text⟩

/-- The part between two offsets. Both ends of it are counted from the start of the stretch. -/
def slice? (stretch : Stretch) (start stop : Nat) : Option Stretch := do
  let first ← clamp? start stretch.start stretch.stop
  let last ← clamp? stop first stretch.stop
  let inner ← floorBoundary? stretch.text (← sub? first stretch.start)
  let outer := max (← floorBoundary? stretch.text (← sub? last stretch.start)) inner
  let part ← Text.slice? stretch.text inner outer
  some ⟨stretch.start + inner, stretch.start + outer, part⟩

def cut? (stretch : Stretch) : Token.Cut → Option Stretch
  | .slice start stop => stretch.slice? start stop
  | .upTo position => stretch.slice? stretch.start position

end Stretch

def cutAll? (source : String) (start stop : Nat) (cuts : List Token.Cut) : Option Stretch := do
  cuts.foldlM Stretch.cut? (← Stretch.ofSource? source start stop)

private theorem occurs_of_slice? {cs part : List Char} {start stop : Nat}
    (found : slice? cs start stop = some part) :
    Occurs cs start part ∧ start + byteLength part = stop := by
  unfold slice? at found
  split at found
  next fits =>
    obtain ⟨⟨ordered, left⟩, right⟩ : (start ≤ stop ∧ isBoundary cs start = true) ∧
        isBoundary cs stop = true := by simpa using fits
    cases found
    exact occurs_between ordered left right
  · cases found

private theorem ofSource?_ofToken {source : String} {start stop : Nat} {token : Token}
    (made : Token.ofSource? source start stop = some token) :
    Stretch.ofSource? source start stop = some (.ofToken token) := by
  obtain ⟨part, found, rfl⟩ := Option.map_eq_some_iff.1 made
  rw [Stretch.ofSource?, found, Option.bind_eq_bind, Option.bind_some, Stretch.ofToken,
    Token.stop_ofChars, (occurs_of_slice? found).2, Token.start_ofChars, Token.toList_ofChars]

private theorem slice?_ofToken (token : Token) (start stop : Nat) :
    (Stretch.ofToken token).slice? start stop = some (.ofToken (token.slice start stop)) := by
  have whole := cut?_eq token start stop
  simp only [cut?, Option.bind_eq_bind, Option.bind_eq_some_iff, Option.some.injEq] at whole
  obtain ⟨first, isFirst, last, isLast, before, isBefore, inner, isInner, behind, isBehind, outer,
    isOuter, part, found, same⟩ := whole
  have size := (occurs_of_slice? found).2
  rw [← same]
  simp only [Stretch.slice?, Stretch.ofToken, isFirst, isLast, isBefore, isInner, isBehind, isOuter,
    found, Option.bind_eq_bind, Option.bind_some, Token.start_ofChars, Token.stop_ofChars,
    Token.toList_ofChars, Nat.add_assoc, size]

private theorem cut?_ofToken (token : Token) (cut : Token.Cut) :
    (Stretch.ofToken token).cut? cut = some (.ofToken (token.cut cut)) := by
  cases cut with
  | slice start stop => exact slice?_ofToken token start stop
  | upTo position => exact slice?_ofToken token token.start position

private theorem foldlM_ofToken (token : Token) (cuts : List Token.Cut) :
    cuts.foldlM Stretch.cut? (.ofToken token) = some (.ofToken (token.cutAll cuts)) := by
  induction cuts generalizing token with
  | nil => rfl
  | cons cut cuts ih =>
      rw [List.foldlM_cons, cut?_ofToken, Option.bind_eq_bind, Option.bind_some, ih]
      rfl

end Checked

namespace Token

private theorem partOf_slice (token : Token) (start stop : Nat) :
    (token.slice start stop).PartOf token := by
  have ordered : max token.start (min start token.stop) - token.start ≤
      max (max token.start (min start token.stop) - token.start + token.start)
        (min stop token.stop) - token.start := by omega
  have found := Checked.slice?_floorBoundary token.text.toList ordered
  refine ⟨_, rfl, ?_⟩
  rw [slice, toList_ofChars]
  exact (Checked.occurs_of_slice? found).1

private theorem partOf_cut (token : Token) (cut : Cut) : (token.cut cut).PartOf token := by
  cases cut with
  | slice start stop => exact partOf_slice token start stop
  | upTo position => exact partOf_slice token token.start position

private theorem partOf_cutAll (token : Token) (cuts : List Cut) :
    (token.cutAll cuts).PartOf token := by
  induction cuts generalizing token with
  | nil => exact PartOf.refl token
  | cons cut cuts ih => exact (ih (token.cut cut)).trans (partOf_cut token cut)

private theorem slice_self (token : Token) : token.slice token.start token.stop = token := by
  have first : max token.start (min token.start token.stop) - token.start = 0 := by omega
  have last : max (0 + token.start) (min token.stop token.stop) - token.start =
      0 + byteLength token.text.toList := by
    rw [stop_eq]
    omega
  have zero : floorBoundary token.text.toList 0 = 0 := floorBoundary_byteLength [] _
  rw [slice]
  simp only [first, last, zero, (Occurs.refl token.text.toList).between_eq, Nat.add_zero]
  rw [ofChars, String.ofList_toList]

private theorem exists_ofSource? {source : String} {start stop : Nat} (ordered : start ≤ stop)
    (left : isBoundary source.toList start = true) (right : isBoundary source.toList stop = true) :
    ∃ token, ofSource? source start stop = some token ∧
      token.PartOf (.ofChars 0 source.toList) := by
  obtain ⟨occurs, stops⟩ := occurs_between ordered left right
  have made := ofSource?_eq occurs
  rw [stops] at made
  refine ⟨_, made, start, ?_, ?_⟩
  · rw [start_ofChars, start_ofChars, Nat.zero_add]
  · rwa [toList_ofChars, toList_ofChars]

/-- However often a token of a source is cut, and whatever offsets are asked for, no cut fails, the
ends that are counted are boundaries of the source in order with exactly the token's text between
them, each part is inside the token it is taken from, and the part between both ends of a token is
the token itself. -/
theorem cutAll_faithful {source : String} {start stop : Nat} (ordered : start ≤ stop)
    (left : isBoundary source.toList start = true) (right : isBoundary source.toList stop = true) :
    ∃ token, ofSource? source start stop = some token ∧ ∀ cuts,
      let reached := token.cutAll cuts
      Checked.cutAll? source start stop cuts =
        some ⟨reached.start, reached.stop, reached.text.toList⟩ ∧
      reached.start ≤ reached.stop ∧
      isBoundary source.toList reached.start = true ∧
      isBoundary source.toList reached.stop = true ∧
      slice? source.toList reached.start reached.stop = some reached.text.toList ∧
      reached.slice reached.start reached.stop = reached ∧
      ∀ cut, reached.start ≤ (reached.cut cut).start ∧ (reached.cut cut).stop ≤ reached.stop := by
  obtain ⟨token, made, inside⟩ := exists_ofSource? ordered left right
  refine ⟨token, made, fun cuts => ?_⟩
  have occurs := ((partOf_cutAll token cuts).trans inside).occurs
  have run : Checked.cutAll? source start stop cuts = some (.ofToken (token.cutAll cuts)) := by
    rw [Checked.cutAll?, Checked.ofSource?_ofToken made]
    exact Checked.foldlM_ofToken token cuts
  refine ⟨run, Nat.le_add_right _ _, occurs.start_isBoundary, ?_, ?_, slice_self _, fun cut => ?_⟩
  · rw [stop_eq]
    exact occurs.stop_isBoundary
  · rw [stop_eq]
    exact occurs.slice?_eq
  · have part := partOf_cut (token.cutAll cuts) cut
    exact ⟨part.start_le, part.stop_le⟩

/-- Cuts past both ends, in the middle of a character and in reverse. -/
theorem cutAll_faithful_wide :
    isBoundary "aé-b".toList 1 = true ∧ isBoundary "aé-b".toList 5 = true ∧
    ∃ token, ofSource? "aé-b" 1 5 = some token ∧
      Checked.cutAll? "aé-b" 1 5 [.slice 0 4, .slice 2 9, .slice 9 3] = some ⟨4, 4, []⟩ ∧
      (token.cutAll [.slice 0 4, .slice 2 9, .slice 9 3]).start = 4 ∧
      isBoundary "aé-b".toList (token.cutAll [.slice 0 4, .slice 2 9, .slice 9 3]).stop = true := by
  have left : isBoundary "aé-b".toList 1 = true := by decide
  have right : isBoundary "aé-b".toList 5 = true := by decide
  obtain ⟨token, made, faithful⟩ := cutAll_faithful (show 1 ≤ 5 by decide) left right
  obtain ⟨run, _, _, stop, _⟩ := faithful [.slice 0 4, .slice 2 9, .slice 9 3]
  have cut : Checked.cutAll? "aé-b" 1 5 [.slice 0 4, .slice 2 9, .slice 9 3] = some ⟨4, 4, []⟩ := by
    decide
  rw [cut] at run
  exact ⟨left, right, token, made, cut, (congrArg Checked.Stretch.start (Option.some.inj run)).symm,
    stop⟩

end Token

end ClassExpr
