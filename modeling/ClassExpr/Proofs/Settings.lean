import ClassExpr.Settings

set_option autoImplicit false

/-! What acceptable settings promise to reading: there is a separator, it is short, and nothing that
ends a word or delimits a part of an expression stands in it. -/

namespace ClassExpr.Settings

structure SoundSeparator (separator : List Char) : Prop where
  nonempty : separator ≠ []
  short : separator.length ≤ 8
  solid : ∀ c ∈ separator, Text.isBlank c = false
  free : ∀ c ∈ separator, isReserved c = false

theorem separatorFault?_eq_none_iff {separator : List Char} :
    separatorFault? separator = none ↔ SoundSeparator separator := by
  unfold separatorFault?
  constructor
  · intro faultless
    split at faultless
    · cases faultless
    next nonempty =>
      split at faultless
      · cases faultless
      next short =>
        split at faultless
        · cases faultless
        next solid =>
          split at faultless
          · cases faultless
          next free =>
            exact ⟨by simpa using nonempty, Nat.le_of_not_lt short, by simpa using solid,
              by simpa using free⟩
  · rintro ⟨nonempty, short, solid, free⟩
    rw [if_neg (by simpa using nonempty), if_neg (Nat.not_lt.2 short), if_neg (by simpa using solid),
      if_neg (by simpa using free)]

theorem checked_eq (separator : String) (depth : Nat) :
    checked ⟨separator, depth⟩ =
      match separatorFault? separator.toList with
      | some cause => .error (.separator separator cause)
      | none =>
          match depthFault? depth with
          | some cause => .error (.settings cause)
          | none => .ok ⟨separator, depth⟩ := by
  unfold checked fault?
  dsimp only
  cases separatorFault? separator.toList with
  | some cause => rfl
  | none => cases depthFault? depth <;> rfl

theorem separator_sound {settings : Settings} (valid : settings.fault? = none) :
    SoundSeparator settings.separator.toList := by
  rw [← separatorFault?_eq_none_iff]
  unfold fault? at valid
  split at valid
  · cases valid
  next sound => exact sound

end ClassExpr.Settings
