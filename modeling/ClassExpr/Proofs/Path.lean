import ClassExpr.FileTree.Path

set_option autoImplicit false

/-! Names and the paths that are written with them. A name has no slash in it, and a path that is
written with names has these names again. -/

namespace ClassExpr.Path

def Solid (name : String) : Prop :=
  '/' ∉ name.toList

private theorem split_slash (cs : List Char) : split ('/' :: cs) = [] :: split cs := rfl

private theorem split_cons_of_ne {c : Char} {cs part : List Char} {parts : List (List Char)}
    (differs : '/' ≠ c) (whole : split cs = part :: parts) :
    split (c :: cs) = (c :: part) :: parts := by
  rw [split, whole, beq_false_of_ne (Ne.symm differs)]
  rfl

private theorem split_of_solid {part : List Char} (solid : '/' ∉ part) : split part = [part] := by
  induction part with
  | nil => rfl
  | cons c part ih =>
      rw [List.mem_cons, not_or] at solid
      exact split_cons_of_ne solid.1 (ih solid.2)

theorem split_append {part : List Char} (solid : '/' ∉ part) (rest : List Char) :
    split (part ++ '/' :: rest) = part :: split rest := by
  induction part with
  | nil => exact split_slash rest
  | cons c part ih =>
      rw [List.mem_cons, not_or] at solid
      exact split_cons_of_ne solid.1 (ih solid.2)

private theorem split_intercalate {parts : List (List Char)} (some' : parts ≠ [])
    (solid : ∀ part ∈ parts, '/' ∉ part) : split (['/'].intercalate parts) = parts := by
  induction parts with
  | nil => exact absurd rfl some'
  | cons part parts ih =>
      cases parts with
      | nil => simpa using split_of_solid (solid part (by simp))
      | cons next parts =>
          rw [List.intercalate_cons_cons, List.append_assoc, List.singleton_append,
            split_append (solid part (by simp)), ih (by simp)]
          exact fun other member => solid other (List.mem_cons_of_mem part member)

private theorem solid_of_mem_split {cs part : List Char} (member : part ∈ split cs) :
    '/' ∉ part := by
  induction cs generalizing part with
  | nil =>
      rw [split, List.mem_singleton] at member
      simp [member]
  | cons c cs ih =>
      rw [split] at member
      split at member
      · rcases List.mem_cons.1 member with rfl | member
        · exact List.not_mem_nil
        · exact ih member
      next other =>
        have differs : '/' ≠ c := fun same => other (same ▸ beq_self_eq_true c)
        split at member
        next empty =>
          rw [List.mem_singleton] at member
          rw [member, List.mem_singleton]
          exact differs
        next first parts whole =>
          rcases List.mem_cons.1 member with rfl | member
          · have tail : '/' ∉ first := ih (whole ▸ List.mem_cons_self)
            exact List.not_mem_cons_of_ne_of_not_mem differs tail
          · exact ih (whole ▸ List.mem_cons_of_mem first member)

private theorem solid_of_mem_names {path name : String} (member : name ∈ names path) :
    Solid name := by
  obtain ⟨part, inside, rfl⟩ := List.mem_map.1 member
  simpa [Solid] using solid_of_mem_split inside

private theorem names_ofBackward {way : List String} (some' : way ≠ [])
    (solid : ∀ name ∈ way, Solid name) : names (ofBackward way) = way.reverse := by
  rw [names, ofBackward, String.toList_intercalate]
  change (split (['/'].intercalate _)).map String.ofList = _
  rw [split_intercalate]
  · simp [Function.comp_def]
  · simpa using some'
  · intro part member
    obtain ⟨name, inside, rfl⟩ := List.mem_map.1 member
    exact solid name (List.mem_reverse.1 inside)

def EndsWithName (path : String) (before : List String) (name : String) : Prop :=
  names path = before ++ [name] ∧ isIdle name = false ∧ name ≠ ".."

private theorem solid_splitName {name : String} (solid : Solid name) :
    Solid (splitName name).1 := by
  unfold splitName
  dsimp only
  split
  next c before dropped =>
    intro inside
    rw [String.toList_ofList, List.mem_reverse] at inside
    have behind : '/' ∈ '.' :: c :: before := List.mem_cons_of_mem _ inside
    rw [← dropped] at behind
    exact solid (List.mem_reverse.1 (List.mem_of_mem_drop behind))
  · exact solid

variable {path name : String} {before : List String}

private theorem EndsWithName.backward_eq (ends : EndsWithName path before name) :
    backward path = name :: before.reverse := by
  rw [backward, ends.1, List.reverse_append, List.reverse_singleton, List.singleton_append,
    List.dropWhile_cons, ends.2.1]
  rfl

theorem EndsWithName.names_withExtension (ends : EndsWithName path before name)
    {extension : String} (solid : Solid extension) :
    names (withExtension path extension) =
      before ++ [(splitName name).1 ++ "." ++ extension] := by
  have inside : ∀ other ∈ before ++ [name], Solid other :=
    fun other member => solid_of_mem_names (ends.1 ▸ member)
  have changed : withExtension path extension =
      ofBackward (((splitName name).1 ++ "." ++ extension) :: before.reverse) := by
    unfold withExtension
    rw [ends.backward_eq]
    split
    next none => cases none
    next up => exact absurd (List.cons.inj up).1 ends.2.2
    next whole =>
      cases whole
      rfl
  rw [changed, names_ofBackward (List.cons_ne_nil _ _), List.reverse_cons, List.reverse_reverse]
  intro other member
  rcases List.mem_cons.1 member with rfl | member
  · have front := solid_splitName (inside name (by simp))
    simpa [Solid] using ⟨front, solid⟩
  · exact inside other (List.mem_append_left _ (List.mem_reverse.1 member))

end ClassExpr.Path
