import ClassExpr.Proofs.Query.Cursor
import ClassExpr.Proofs.Tree.Origin

set_option autoImplicit false

/-! A cursor in a region that is not closed. Where a value or an opacity is not closed the leaf
takes the rest of its window, and a cursor completes it up to its end. A bracket that is all of a
variant is completed as long as some of it is behind the cursor; at its end, where the separator of
a closed one would be, the cursor is told that the variant applies. -/

namespace ClassExpr

open Text

/-- What a region that is not closed says is what a leaf says in its scope, or a variant that is
only its bracket. -/
inductive Fault.Describes (fault : Fault) (scope : Scope) : Node → Prop
  | leaf {leaf : Leaf} (target : leaf.target = fault.target) (kind : leaf.kind = fault.kind)
      (variants : scope.variants = fault.variants)
      (important : (scope.important || leaf.important) = fault.important) :
      fault.Describes scope (.leaf leaf)
  | variant {variant : Variant} (range : variant.range = fault.target)
      (identifier : variant.identifier = fault.target) (kind : variant.kind = fault.kind)
      (bracket : fault.kind = .arbitraryVariant) (variants : scope.variants = fault.variants)
      (important : scope.important = fault.important) :
      fault.Describes scope (.variantSpan fault.target variant none)

namespace Fault.Describes

variable {region : Fault} {scope : Scope} {target : Node}

theorem partOf (describes : region.Describes scope target) (proper : target.Proper) :
    region.target.PartOf target.range := by
  cases describes with
  | leaf same _ _ _ =>
      have shape : Leaf.Proper _ := proper
      exact same ▸ shape.inside
  | variant _ _ _ _ _ _ => exact Token.PartOf.refl _

theorem kind_ne (describes : region.Describes scope target) : target.kind ≠ .declaration := by
  cases describes with
  | @leaf leaf _ _ _ _ => cases leaf <;> simp [Node.kind, Leaf.kind]
  | variant _ _ _ _ _ _ => simp [Node.kind]

private theorem children_eq (describes : region.Describes scope target) : target.children = [] := by
  cases describes <;> rfl

end Fault.Describes

private theorem Entry.describes_notClosed {scope : Scope} {leaf : Leaf} {region : Fault}
    (found : ofLeaf scope leaf = .notClosed region) : region.Describes scope (.leaf leaf) := by
  unfold ofLeaf at found
  split at found
  · cases found
  · cases found
    exact Fault.Describes.leaf rfl rfl rfl rfl

/-- Every region that is not closed, a group apart, is found at a leaf or a variant that is reached
from the root. -/
theorem Spread.reaches_notClosed {settings : Settings} {text : String} {region : Fault}
    (member : region ∈ (ofText settings text).notClosed) (single : region.kind ≠ .group) :
    ∃ scope target, Reaches {} (Tree.read settings text none) scope target ∧
      region.Describes scope target := by
  obtain ⟨entry, found, isRegion⟩ := List.mem_filterMap.1 member
  have same : entry = .notClosed region := by
    cases entry <;> simp_all [Entry.notClosed?]
  rw [List.mem_reverse] at found
  obtain ⟨scope, target, reaches, isAt⟩ :=
    (Entry.reaches_of_mem_gather _ found).resolve_left List.not_mem_nil
  refine ⟨scope, target, reaches, ?_⟩
  cases isAt with
  | leaf => exact Entry.describes_notClosed same
  | @unclosed range variant child opened =>
      cases same
      have allRead := Tree.allRead_sequence ⟨settings.separator.toList, none⟩
        (settings.maxDepth + 1) 0 text.toList
      rw [← Tree.read_eq] at allRead
      obtain ⟨rfl, whole, identifier, kind, _⟩ :=
        Tree.unclosed_of_isRead (allRead _ reaches.mem_nodes (by simp [Node.kind])) opened
      exact Fault.Describes.variant whole identifier rfl kind rfl rfl
  | openGroup =>
      cases same
      exact absurd rfl single
  | bare _ => cases same
  | emptyGroup _ => cases same

namespace Completion

/-- A cursor completes a region: the word is what stands of it in front of the cursor. -/
structure Completes (completion : Completion) (text : String) (position : Nat) (region : Fault) :
    Prop where
  target : completion.target = some region.target
  kind : completion.kind = some region.kind
  variants : completion.variants = region.variants
  important : completion.important = region.important
  word : ∃ word, Token.ofSource? text region.target.start position = some word ∧
    completion.word = some word

variable {settings : Settings} {text : String} {region : Fault} {position : Nat} {scope : Scope}
  {target : Node}

/-- A cursor that touches a region that is not closed answers by the leaf or the variant there. -/
theorem exists_locate (member : region ∈ (Spread.ofText settings text).notClosed)
    (single : region.kind ≠ .group) (boundary : isBoundary text.toList position = true)
    (start : region.target.start < position) (stop : position ≤ region.target.stop)
    (outside : (atCursor settings text position).inComment = false) :
    ∃ scope target inString, region.Describes scope target ∧
      target.range.touches position = true ∧
      Token.ofSource? text region.target.start position = some (region.target.upTo position) ∧
      atCursor settings text position = { locate position scope target with inString } := by
  obtain ⟨scope, target, reaches, describes⟩ := Spread.reaches_notClosed member single
  have proper := Tree.allProper_read settings text none
  have cutProper := Tree.allProper_read settings text (some position)
  have part := describes.partOf (proper _ reaches.mem_nodes).1
  have source : region.target.PartOf (.ofChars 0 text.toList) :=
    (part.trans (reaches.inside proper)).trans (Tree.read_partOf settings text none)
  have touched := part.touches ((Token.touches_iff _ _).2 ⟨start, stop⟩)
  have before := Nat.le_of_lt ((Token.touches_iff _ _).1 touched).1
  have kept := reaches.kept (Tree.pruned_read settings text position) proper describes.kind_ne
    describes.children_eq before
  obtain ⟨inString, answer⟩ := atCursor_eq boundary outside
  refine ⟨scope, target, inString, describes, touched,
    Token.ofSource?_upTo source boundary (Nat.le_of_lt start) stop, ?_⟩
  rw [answer, locate_reached kept cutProper touched]

/-- A cursor in a region that is not closed, a group apart, completes that region, but for the end
of a bracket that is all of a variant: there it completes nothing, in the scope of that variant. -/
theorem atCursor_notClosed (settings : Settings) (text : String) {region : Fault} {position : Nat}
    (member : region ∈ (Spread.ofText settings text).notClosed) (single : region.kind ≠ .group)
    (boundary : isBoundary text.toList position = true) (start : region.target.start < position)
    (stop : position ≤ region.target.stop)
    (outside : (atCursor settings text position).inComment = false) :
    let completion := atCursor settings text position
    (completion.Completes text position region ↔
        region.kind = .arbitraryVariant → position < region.target.stop) ∧
      (region.kind = .arbitraryVariant → position = region.target.stop →
        completion =
          { variants := region.variants ++ [region.target], important := region.important,
            inString := completion.inString }) := by
  intro completion
  obtain ⟨scope, target, inString, describes, touched, word, answer⟩ :=
    exists_locate member single boundary start stop outside
  have result : completion = { locate position scope target with inString } := answer
  rw [result]
  cases describes with
  | @leaf leaf target kind variants important =>
      have value : region.kind ≠ .arbitraryVariant := by
        rw [← kind]
        cases leaf <;> simp [Leaf.kind]
      have found : locate position scope (.leaf leaf) = ofLeaf position scope leaf := by
        rw [locate, if_pos (by exact touched)]
      refine ⟨⟨fun _ same => absurd same value, fun _ => ?_⟩, fun same => absurd same value⟩
      rw [found]
      exact ⟨congrArg some target, congrArg some kind, variants, important, _, word,
        congrArg (fun token : Token => some (token.upTo position)) target⟩
  | @variant variant range identifier kind bracket variants important =>
      have covers : region.target.touches position = true := touched
      rw [locate, covers, range]
      by_cases within : position < region.target.stop
      · rw [if_neg (by simp; omega), if_pos within]
        refine ⟨⟨fun _ _ => within, fun _ => ?_⟩, fun _ last => by omega⟩
        exact ⟨congrArg some identifier, congrArg some kind, variants, important, _, word,
          congrArg (fun token : Token => some (token.upTo position)) identifier⟩
      · rw [if_neg (by simp; omega), if_neg within]
        refine ⟨⟨fun completes => ?_, fun early => absurd (early bracket) within⟩, fun _ _ => ?_⟩
        · cases completes.target
        · simp only [ofScope, Scope.enter, variants, important, identifier]

/-- In the bracket of a marked group behind a variant. -/
theorem atCursor_notClosed_nested :
    ⟨⟨8, "[é"⟩, .arbitraryVariant, [⟨0, "md"⟩], true⟩ ∈
        (Spread.ofText {} "md:(w-1 [é)!").notClosed ∧
      Kind.arbitraryVariant ≠ .group ∧ isBoundary "md:(w-1 [é)!".toList 9 = true ∧
      (⟨8, "[é"⟩ : Token).start < 9 ∧ 9 ≤ (⟨8, "[é"⟩ : Token).stop ∧
      (atCursor {} "md:(w-1 [é)!" 9).inComment = false ∧
      let completion := atCursor {} "md:(w-1 [é)!" 9
      (completion.Completes "md:(w-1 [é)!" 9
          ⟨⟨8, "[é"⟩, .arbitraryVariant, [⟨0, "md"⟩], true⟩ ↔
        Kind.arbitraryVariant = .arbitraryVariant → 9 < (⟨8, "[é"⟩ : Token).stop) ∧
      (Kind.arbitraryVariant = .arbitraryVariant → 9 = (⟨8, "[é"⟩ : Token).stop →
        completion =
          { variants := [⟨0, "md"⟩] ++ [⟨8, "[é"⟩], important := true,
            inString := completion.inString }) :=
  have member : ⟨⟨8, "[é"⟩, .arbitraryVariant, [⟨0, "md"⟩], true⟩ ∈
      (Spread.ofText {} "md:(w-1 [é)!").notClosed := by decide +kernel
  have boundary : isBoundary "md:(w-1 [é)!".toList 9 = true := by decide +kernel
  have outside : (atCursor {} "md:(w-1 [é)!" 9).inComment = false := by decide +kernel
  ⟨member, by decide, boundary, by decide, by decide, outside,
    atCursor_notClosed {} _ member (by decide) boundary (by decide) (by decide) outside⟩

/-- At the end of the text a bracket that is all of a variant is not completed. -/
theorem not_completes_stop :
    ⟨⟨0, "[ab"⟩, .arbitraryVariant, [], false⟩ ∈ (Spread.ofText {} "[ab").notClosed ∧
      Kind.arbitraryVariant ≠ .group ∧ isBoundary "[ab".toList 3 = true ∧
      (⟨0, "[ab"⟩ : Token).start < 3 ∧
      3 ≤ (⟨0, "[ab"⟩ : Token).stop ∧ (atCursor {} "[ab" 3).inComment = false ∧
      ¬(atCursor {} "[ab" 3).Completes "[ab" 3 ⟨⟨0, "[ab"⟩, .arbitraryVariant, [], false⟩ := by
  refine ⟨by decide +kernel, by decide, by decide +kernel, by decide, by decide,
    by decide +kernel, ?_⟩
  intro completes
  have target : (atCursor {} "[ab" 3).target = none := by decide +kernel
  rw [completes.target] at target
  cases target

end Completion

end ClassExpr
