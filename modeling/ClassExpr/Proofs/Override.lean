import ClassExpr.Json.Printer
import ClassExpr.Proofs.Publish
import ClassExpr.Proofs.Settings
import ClassExpr.Settings.Source

set_option autoImplicit false

/-! A separator that is given replaces the one of a file, but only once the file is accepted. So the
file's own separator matters to the outcome where it is not acceptable, and nowhere else. -/

namespace ClassExpr.Settings

open Check (runOn runOn_bind)

/-- The file of a path can be read and is well formed, and these are its settings, acceptable or
not. -/
def HasSettings (reading : Reading) (tree : FileTree ByteArray) (path : String)
    (settings : Settings) : Prop :=
  ∃ format content text, Format.ofPath? path = some format ∧ tree.read path = .ok content ∧
    Host.decode content = .ok text ∧ reading format text = .ok settings

/-- What loading the settings of a file comes to, with a separator that is given. -/
def loadGiven (reading : Reading) (input given path : String) (tree : FileTree ByteArray) :
    Except Error Settings :=
  (runOn (Source.load (Host.ofTree input) { separator := some given, config := some path } reading)
    tree).1

def SoundDepth (depth : Nat) : Prop :=
  1 ≤ depth ∧ depth ≤ greatestDepth

private theorem depthFault?_eq_none_iff {depth : Nat} :
    depthFault? depth = none ↔ SoundDepth depth := by
  unfold depthFault? SoundDepth
  split
  next none => simp [none]
  next some =>
    split
    next great => simp; omega
    next bounded => simp; omega

private theorem not_sound_of_fault {separator : List Char} {cause : SeparatorFault}
    (fault : separatorFault? separator = some cause) : ¬SoundSeparator separator := by
  rw [← separatorFault?_eq_none_iff, fault]
  exact Option.some_ne_none cause

/-! ### Files with only a separator, in a tree of their own -/

def separatorText (separator : String) : String :=
  (Json.object [("separator", .string separator)]).compact

def alone (name text : String) : FileTree ByteArray :=
  { entries := [([name], .file text.toUTF8)] }

private theorem decode_toUTF8 (text : String) : Host.decode text.toUTF8 = .ok text := by
  have decoded : String.fromUTF8? text.toUTF8 = some text := dif_pos text.isValidUTF8
  simp only [Host.decode, decoded]

private theorem hasSettings_alone {reading : Reading} {format : Format} {name text : String}
    {settings : Settings} (known : Format.ofPath? name = some format)
    (found : (alone name text).read name = .ok text.toUTF8)
    (said : reading format text = .ok settings) :
    HasSettings reading (alone name text) name settings :=
  ⟨format, text.toUTF8, text, known, found, decode_toUTF8 text, said⟩

private theorem hasSettings_alone_json {name text : String} {settings : Settings}
    (known : Format.ofPath? name = some .json)
    (found : (alone name text).read name = .ok text.toUTF8)
    (said : (Json.read? text).bind ofJson? = some settings) :
    HasSettings ofText (alone name text) name settings :=
  hasSettings_alone known found (by simp [ofText, said])

/-! ### Two files -/

section

variable {reading : Reading} {input given path path' separator separator' : String}
  {tree tree' : FileTree ByteArray} {settings : Settings} {depth : Nat}

private theorem runOn_ofPath (has : HasSettings reading tree path settings) :
    runOn (ofPath (Host.ofTree input) path reading) tree = (settings.checked, tree) := by
  obtain ⟨format, content, text, known, read, decoded, said⟩ := has
  have found : (tree.read path).bind Host.decode = .ok text := by
    rw [read]
    exact decoded
  have unjudged : runOn (ofPathAs (Host.ofTree input) format path reading) tree =
      (.ok settings, tree) := by
    show (ofFile reading format path ((tree.read path).bind Host.decode), tree) = _
    rw [found]
    exact congrArg (·, tree) said
  unfold ofPath
  rw [known]
  show runOn (_ >>= _) tree = _
  rw [runOn_bind, unjudged]
  rfl

/-- The settings of a file are judged before the separator is replaced, and again afterwards. -/
theorem loadGiven_eq (has : HasSettings reading tree path settings) :
    loadGiven reading input given path tree =
      settings.checked.bind fun accepted => (accepted.withSeparator (some given)).checked := by
  unfold loadGiven Source.load
  rw [runOn_bind, runOn_ofPath has]
  cases settings.checked <;> rfl

private theorem loadGiven_of_fault {cause : SeparatorFault}
    (has : HasSettings reading tree path ⟨separator, depth⟩)
    (fault : separatorFault? separator.toList = some cause) :
    loadGiven reading input given path tree = .error (.separator separator cause) := by
  rw [loadGiven_eq has, checked_eq, fault]
  rfl

private theorem loadGiven_of_sound (has : HasSettings reading tree path ⟨separator, depth⟩)
    (sound : SoundSeparator separator.toList) :
    loadGiven reading input given path tree =
      match depthFault? depth with
      | some cause => .error (.settings cause)
      | none => checked ⟨given, depth⟩ := by
  rw [loadGiven_eq has, checked_eq separator depth, separatorFault?_eq_none_iff.2 sound]
  cases depthFault? depth <;> rfl

/-- A separator that is not acceptable shows, unless it is the one that is given and is reached by
judging that one. -/
theorem loadGiven_eq_iff_of_fault {cause : SeparatorFault}
    (has : HasSettings reading tree path ⟨separator, depth⟩)
    (has' : HasSettings reading tree' path' ⟨separator', depth⟩)
    (sound : SoundSeparator separator.toList)
    (fault : separatorFault? separator'.toList = some cause) :
    loadGiven reading input given path tree = loadGiven reading input given path' tree' ↔
      SoundDepth depth ∧ given = separator' := by
  rw [loadGiven_of_sound has sound, loadGiven_of_fault has' fault, ← depthFault?_eq_none_iff]
  cases deep : depthFault? depth with
  | some cause => simp
  | none =>
      cases judged : separatorFault? given.toList with
      | none =>
          simp only [checked_eq, judged, deep, true_and]
          constructor
          · intro same
            cases same
          · rintro rfl
            rw [fault] at judged
            cases judged
      | some cause' =>
          simp only [checked_eq, judged, true_and]
          constructor
          · intro same
            cases same
            rfl
          · rintro rfl
            rw [fault] at judged
            cases judged
            rfl

/-- The separator of the file does not matter if it is acceptable. Of two files it shows which was
read as soon as one of them has a separator that is not, unless the two say the same or the one that
is given has the same fault to show. -/
theorem loadGiven_eq_iff (has : HasSettings reading tree path ⟨separator, depth⟩)
    (has' : HasSettings reading tree' path' ⟨separator', depth⟩) :
    loadGiven reading input given path tree = loadGiven reading input given path' tree' ↔
      separator = separator' ∨
        SoundSeparator separator.toList ∧ SoundSeparator separator'.toList ∨
        SoundDepth depth ∧
          (given = separator ∧ SoundSeparator separator'.toList ∨
            given = separator' ∧ SoundSeparator separator.toList) := by
  cases judged : separatorFault? separator.toList with
  | none =>
      have sound := separatorFault?_eq_none_iff.1 judged
      cases judged' : separatorFault? separator'.toList with
      | none =>
          have sound' := separatorFault?_eq_none_iff.1 judged'
          simp [loadGiven_of_sound has sound, loadGiven_of_sound has' sound', sound, sound']
      | some cause =>
          have unsound' := not_sound_of_fault judged'
          have other : separator ≠ separator' := by
            rintro rfl
            exact unsound' sound
          simp [loadGiven_eq_iff_of_fault has has' sound judged', sound, unsound', other]
  | some cause =>
      have unsound := not_sound_of_fault judged
      cases judged' : separatorFault? separator'.toList with
      | none =>
          have sound' := separatorFault?_eq_none_iff.1 judged'
          have other : separator ≠ separator' := by
            rintro rfl
            exact unsound sound'
          -- The other file is the one that is accepted.
          rw [eq_comm, loadGiven_eq_iff_of_fault has' has sound' judged]
          simp [sound', unsound, other]
      | some cause' =>
          have unsound' := not_sound_of_fault judged'
          rw [loadGiven_of_fault has judged, loadGiven_of_fault has' judged']
          simp only [unsound, unsound', and_false, or_self, or_false, Except.error.injEq,
            Error.separator.injEq]
          constructor
          · rintro ⟨same, -⟩
            exact same
          · rintro rfl
            exact ⟨rfl, Option.some.inj (judged.symm.trans judged')⟩

end

theorem loadGiven_eq_iff_formats :
    HasSettings ofText (alone "c.json" (separatorText "--")) "c.json" ⟨"--", 128⟩ ∧
      HasSettings ofText (alone "c.yml" "separator: _") "c.yml" ⟨"_", 128⟩ ∧
      loadGiven ofText "" "::" "c.json" (alone "c.json" (separatorText "--")) =
        loadGiven ofText "" "::" "c.yml" (alone "c.yml" "separator: _") := by
  have has : HasSettings ofText (alone "c.json" (separatorText "--")) "c.json" ⟨"--", 128⟩ :=
    hasSettings_alone_json rfl rfl (by decide +kernel)
  have has' : HasSettings ofText (alone "c.yml" "separator: _") "c.yml" ⟨"_", 128⟩ :=
    hasSettings_alone rfl rfl rfl
  have sound : SoundSeparator "--".toList := separatorFault?_eq_none_iff.1 (by decide)
  have sound' : SoundSeparator "_".toList := separatorFault?_eq_none_iff.1 (by decide)
  exact ⟨has, has', (loadGiven_eq_iff has has').2 (.inr (.inl ⟨sound, sound'⟩))⟩

/-- The separator of the file is reported although another one is given. -/
theorem loadGiven_ne_of_reserved :
    HasSettings ofText (alone "c.json" (separatorText "(")) "c.json" ⟨"(", 128⟩ ∧
      HasSettings ofText (alone "c.json" (separatorText ":")) "c.json" ⟨":", 128⟩ ∧
      loadGiven ofText "" "_" "c.json" (alone "c.json" (separatorText "(")) ≠
        loadGiven ofText "" "_" "c.json" (alone "c.json" (separatorText ":")) := by
  have has : HasSettings ofText (alone "c.json" (separatorText "(")) "c.json" ⟨"(", 128⟩ :=
    hasSettings_alone_json rfl rfl (by decide +kernel)
  have has' : HasSettings ofText (alone "c.json" (separatorText ":")) "c.json" ⟨":", 128⟩ :=
    hasSettings_alone_json rfl rfl (by decide +kernel)
  have sound' : SoundSeparator ":".toList := separatorFault?_eq_none_iff.1 (by decide)
  have reserved : separatorFault? "(".toList = some .reserved := by decide
  refine ⟨has, has', fun same => ?_⟩
  have given := ((loadGiven_eq_iff_of_fault has' has sound' reserved).1 same.symm).2
  exact absurd given (by decide)

end ClassExpr.Settings
