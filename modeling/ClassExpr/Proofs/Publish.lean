import ClassExpr.Check.Run
import ClassExpr.Proofs.FileTree

set_option autoImplicit false

/-! What putting a report where it is wanted does to the files of a tree. The directories on the way
are made, whether or not the rest goes well. The file beside is the one thing besides the report
that a run changes: it is gone when the run goes well, and is left behind when a later step than
making it fails, no matter what was there before. -/

namespace ClassExpr.Check

open FileTree

/-! ### Runs on a tree -/

section Runs

variable {E F A B : Type}

def runOn (action : ExceptT E (StateM (FileTree ByteArray)) A) (tree : FileTree ByteArray) :
    Except E A × FileTree ByteArray :=
  action.run.run tree

theorem runOn_bind (action : ExceptT E (StateM (FileTree ByteArray)) A)
    (next : A → ExceptT E (StateM (FileTree ByteArray)) B) (tree : FileTree ByteArray) :
    runOn (action >>= next) tree =
      match runOn action tree with
      | (.ok value, after) => runOn (next value) after
      | (.error cause, after) => (.error cause, after) := by
  change (ExceptT.bindCont next (runOn action tree).1).run (runOn action tree).2 = _
  rcases runOn action tree with ⟨cause | value, after⟩ <;> rfl

private theorem runOn_tryCatch (action : ExceptT E (StateM (FileTree ByteArray)) A)
    (handle : E → ExceptT E (StateM (FileTree ByteArray)) A) (tree : FileTree ByteArray) :
    runOn (tryCatch action handle) tree =
      match runOn action tree with
      | (.ok value, after) => (.ok value, after)
      | (.error cause, after) => runOn (handle cause) after := by
  change (match (runOn action tree).1 with
    | .ok value => (pure (.ok value) : StateM (FileTree ByteArray) (Except E A))
    | .error cause => handle cause).run (runOn action tree).2 = _
  rcases runOn action tree with ⟨cause | value, after⟩ <;> rfl

private theorem runOn_adapt (f : E → F) (action : ExceptT E (StateM (FileTree ByteArray)) A)
    (tree : FileTree ByteArray) :
    runOn (action.adapt f) tree = ((runOn action tree).1.mapError f, (runOn action tree).2) :=
  rfl

private theorem runOn_change (f : FileTree ByteArray → Except FileFault (FileTree ByteArray))
    (tree : FileTree ByteArray) :
    runOn (Host.change f) tree =
      match f tree with
      | .ok after => (.ok (), after)
      | .error cause => (.error cause, tree) := by
  unfold runOn Host.change
  cases done : f tree with
  | error cause => simp [ExceptT.run, StateT.run, done]
  | ok after => simp [ExceptT.run, StateT.run, done]

private theorem runOn_makeDirectory (input : String) (disk : Disk) (path : String)
    (tree : FileTree ByteArray) :
    runOn ((Host.ofTree input disk).makeDirectory path) tree =
      match tree.makeDirectory path with
      | .ok after => (.ok (), after)
      | .error cause => (.error cause, tree) :=
  runOn_change (·.makeDirectory path) tree

private theorem runOn_create (input : String) (disk : Disk) (path : String)
    (tree : FileTree ByteArray) :
    runOn ((Host.ofTree input disk).create path) tree =
      match tree.write path .empty with
      | .ok after => (.ok (), after)
      | .error cause => (.error cause, tree) :=
  runOn_change (·.write path .empty) tree

private theorem runOn_append (input : String) (disk : Disk) {path text : String}
    {place : List String}
    {tree : FileTree ByteArray} (located : tree.locate path = .ok place)
    (empty : tree.at? place = some (.file .empty)) :
    runOn ((Host.ofTree input disk).append path text) tree =
      (if disk.hasRoom text then .ok () else .error (.refused "no space left on device"),
        tree.put place (.file (disk.take text))) := by
  have changed : tree.modify path (· ++ disk.take text) =
      .ok (tree.put place (.file (disk.take text))) := by
    rw [FileTree.modify, located]
    dsimp only [bind, Except.bind]
    rw [empty]
    dsimp only
    rw [ByteArray.empty_append]
  change runOn (Host.change (·.modify path (· ++ disk.take text)) >>= fun _ => _) tree = _
  rw [runOn_bind, runOn_change, changed]
  dsimp only
  split <;> rfl

private theorem take_of_hasRoom {disk : Disk} {text : String} (room : disk.hasRoom text = true) :
    disk.take text = text.toUTF8 := by
  unfold Disk.hasRoom at room
  unfold Disk.take
  cases bound : disk.room with
  | none => rfl
  | some size =>
      have fits : text.utf8ByteSize ≤ size := by simpa [bound] using room
      apply ByteArray.ext
      simpa using Or.inr fits

private theorem runOn_sync (input : String) (disk : Disk) (path : String)
    (tree : FileTree ByteArray) :
    runOn ((Host.ofTree input disk).sync path) tree =
      (match disk.broken with
        | none => .ok ()
        | some cause => .error cause, tree) := by
  change runOn (match disk.broken with
    | none => pure ()
    | some cause => throw cause) tree = _
  cases disk.broken <;> rfl

private theorem runOn_rename (input : String) (disk : Disk) (source target : String)
    (tree : FileTree ByteArray) :
    runOn ((Host.ofTree input disk).rename source target) tree =
      match tree.rename source target with
      | .ok after => (.ok (), after)
      | .error cause => (.error cause, tree) :=
  runOn_change (·.rename source target) tree

end Runs

/-! ### The directories on the way -/

section Directories

variable (input : String) (disk : Disk)

private theorem runOn_orPresent (path : String) (cause : FileFault) (tree : FileTree ByteArray) :
    (runOn (orPresent (Host.ofTree input disk) path cause) tree).2 = tree := by
  change (runOn ((if tree.isDirectory path then pure () else throw cause :
    ExceptT FileFault (StateM (FileTree ByteArray)) Unit)) tree).2 = tree
  split <;> rfl

private theorem grown_makeOrPresent (names : List String) (tree : FileTree ByteArray) :
    Grown names tree (runOn (tryCatch ((Host.ofTree input disk).makeDirectory (Path.ofBackward names))
      (orPresent (Host.ofTree input disk) (Path.ofBackward names))) tree).2 := by
  rw [runOn_tryCatch, runOn_makeDirectory]
  cases made : tree.makeDirectory (Path.ofBackward names) with
  | ok after => exact grown_makeDirectory made
  | error cause =>
      dsimp only
      rw [runOn_orPresent]
      exact Grown.refl names tree

/-- Whatever making the directories comes to, no more than directories on the way are new. -/
theorem grown_makeDirectories (names : List String) (tree : FileTree ByteArray) :
    Grown names tree (runOn (makeDirectories (Host.ofTree input disk) names) tree).2 := by
  induction names generalizing tree with
  | nil => exact Grown.refl [] tree
  | cons name before ih =>
      have inside : before <:+ name :: before := List.suffix_cons name before
      rw [makeDirectories]
      split
      · exact (ih tree).mono inside
      · dsimp only
        rw [runOn_tryCatch, runOn_makeDirectory]
        cases made : tree.makeDirectory (Path.ofBackward (name :: before)) with
        | ok after => exact grown_makeDirectory made
        | error cause =>
            dsimp only
            split
            · -- the directory that it is in comes first, and then it is tried once more
              rw [runOn_bind]
              have parents := (ih tree).mono inside
              split
              next after ran =>
                rw [ran] at parents
                exact parents.trans (grown_makeOrPresent input disk _ after)
              next after ran =>
                rw [ran] at parents
                exact parents
            · rw [runOn_orPresent]
              exact Grown.refl _ tree

end Directories

/-! ### The report -/

/-- Apart from directories on the way of the path, nothing has changed but what is at some places.
-/
structure ChangesOnly (path : String) (tree after : FileTree ByteArray)
    (places : List (List String)) : Prop where
  home : after.home = tree.home
  untouched : ∀ other, other ∉ places → Untouched ((Path.backward path).drop 1) tree after other

/-- All that a run which is to put a text where a path leads can come to. -/
inductive Outcome (disk : Disk) (path text : String) (tree : FileTree ByteArray) :
    Except Error Unit × FileTree ByteArray → Prop where
  /-- The directories could not be made. -/
  | unreached {after : FileTree ByteArray} {cause : FileFault}
      (only : ChangesOnly path tree after []) :
      Outcome disk path text tree (.error (.file cause), after)
  /-- The file beside could not be made. -/
  | refused {after : FileTree ByteArray} {cause : FileFault}
      (only : ChangesOnly path tree after []) :
      Outcome disk path text tree (.error (.output path cause), after)
  /-- The file beside was made, and the disk failed the text. As much of it as there was room for is
  in that file. -/
  | unfinished {after : FileTree ByteArray} {cause : FileFault} {beside : List String}
      (flawed : disk ≠ {})
      (there : after.locate (Path.withExtension path "tmp") = .ok beside)
      (free : tree.at? beside ≠ some .directory)
      (holds : after.at? beside = some (.file (disk.take text)))
      (only : ChangesOnly path tree after [beside]) :
      Outcome disk path text tree (.error (.output path cause), after)
  /-- The file beside was written, and could not take the place of the report, as the path is that
  of a directory or ends with no name. It stays. -/
  | stranded {after : FileTree ByteArray} {cause : FileFault} {beside : List String}
      (blocked : (∀ before name, ¬Path.EndsWithName path before name) ∨
        after.isDirectory path = true)
      (there : after.locate (Path.withExtension path "tmp") = .ok beside)
      (free : tree.at? beside ≠ some .directory)
      (holds : after.at? beside = some (.file text.toUTF8))
      (only : ChangesOnly path tree after [beside]) :
      Outcome disk path text tree (.error (.output path cause), after)
  /-- The report is there, and nothing is where the file beside was. -/
  | published {after : FileTree ByteArray} {place beside : List String}
      (here : after.locate path = .ok place)
      (there : after.locate (Path.withExtension path "tmp") = .ok beside)
      (free : tree.at? beside ≠ some .directory)
      (holds : after.at? place = some (.file text.toUTF8))
      (gone : beside ≠ place → after.at? beside = none)
      (only : ChangesOnly path tree after [place, beside]) :
      Outcome disk path text tree (.ok (), after)

/-- A run touches only the report: it goes well, and but for directories on the way only the report
is new; or it fails, and the files are the ones that there were, with the content they had. -/
def Clean (path text : String) (tree : FileTree ByteArray) :
    Except Error Unit × FileTree ByteArray → Prop
  | (.ok (), after) =>
      ∃ place, after.locate path = .ok place ∧ after.at? place = some (.file text.toUTF8) ∧
        ChangesOnly path tree after [place]
  | (.error _, after) =>
      ∀ place content,
        after.at? place = some (.file content) ↔ tree.at? place = some (.file content)

/-- A run spares the file beside: it goes well, and there was none unless it is the report itself;
or it fails, and there is the one that there was. -/
def Spares (path : String) (tree : FileTree ByteArray) :
    Except Error Unit × FileTree ByteArray → Prop
  | (.ok (), after) =>
      ∀ beside, after.locate (Path.withExtension path "tmp") = .ok beside →
        after.locate path = .ok beside ∨ tree.at? beside = none
  | (.error _, after) =>
      ∀ beside content, after.locate (Path.withExtension path "tmp") = .ok beside →
        (after.at? beside = some (.file content) ↔ tree.at? beside = some (.file content))

section Replacement

variable {disk : Disk} {path text : String} {tree after : FileTree ByteArray}

private theorem changesOnly_of_grown (grown : Grown ((Path.backward path).drop 1) tree after)
    (places : List (List String)) : ChangesOnly path tree after places :=
  ⟨grown.home, fun other _ => grown.untouched other⟩

private theorem changesOnly_put (grown : Grown ((Path.backward path).drop 1) tree after)
    {beside : List String} (free : after.at? beside ≠ some .directory)
    (stored : Stored ByteArray) : ChangesOnly path tree (after.put beside stored) [beside] :=
  ⟨grown.home, fun other outside =>
    (grown.untouched other).after_put free (by simpa using outside)⟩

section Beside

variable {beside : List String} (grown : Grown ((Path.backward path).drop 1) tree after)
  (located : after.locate (Path.withExtension path "tmp") = .ok beside)
  (free : after.at? beside ≠ some .directory)

include grown located free

/-- The disk fails the text, which is in the file beside as far as there is room. -/
theorem outcome_unfinished (flawed : disk ≠ {}) (cause : FileFault) :
    Outcome disk path text tree
      (.error (.output path cause), after.put beside (.file (disk.take text))) :=
  .unfinished flawed ((keeps_put _ free).locate located) (grown.at?_eq free ▸ free)
    (at?_put_self after beside _ (ne_nil_of_free free)) (changesOnly_put grown free _)

/-- The file beside is written, and the path cannot be taken. -/
theorem outcome_stranded {cause : FileFault}
    (renamed : (after.put beside (.file text.toUTF8)).rename (Path.withExtension path "tmp") path =
      .error cause) :
    Outcome disk path text tree (.error (.output path cause), after.put beside (.file text.toUTF8)) := by
  have stored := at?_put_self after beside (.file text.toUTF8) (ne_nil_of_free free)
  have reached := (keeps_put (.file text.toUTF8) free).locate located
  refine .stranded ?_ reached (grown.at?_eq free ▸ free) stored (changesOnly_put grown free _)
  by_cases named : ∃ before name, Path.EndsWithName path before name
  · obtain ⟨before, name, ends⟩ := named
    exact Or.inr (isDirectory_of_rename_eq_error ends
      (ends.names_withExtension (by simp [Path.Solid] : Path.Solid "tmp")) reached stored renamed)
  · exact Or.inl fun before name ends => named ⟨before, name, ends⟩

/-- The file beside is written, and takes the place of the report. -/
theorem outcome_published {final : FileTree ByteArray}
    (renamed : (after.put beside (.file text.toUTF8)).rename (Path.withExtension path "tmp") path =
      .ok final) :
    Outcome disk path text tree (.ok (), final) := by
  have stored := at?_put_self after beside (.file text.toUTF8) (ne_nil_of_free free)
  have reached := (keeps_put (.file text.toUTF8) free).locate located
  obtain ⟨source, content, place, sourced, held, targeted, open', rfl⟩ := rename_eq_ok renamed
  obtain rfl : beside = source := Except.ok.inj (reached.symm.trans sourced)
  obtain rfl : text.toUTF8 = content := Stored.file.inj (Option.some.inj (stored.symm.trans held))
  have solid : (after.put beside (.file text.toUTF8)).at? beside ≠ some .directory := by
    rw [stored]
    simp
  have erased := keeps_erase solid
  have clear : ((after.put beside (.file text.toUTF8)).erase beside).at? place ≠
      some .directory := by
    by_cases same : place = beside
    · rw [same, at?_erase_self _ (ne_nil_of_free free)]
      simp
    · rw [at?_erase_of_ne _ same]
      exact open'
  have kept := keeps_put (.file text.toUTF8) clear
  refine .published (kept.locate (erased.locate targeted)) (kept.locate (erased.locate sourced))
    (grown.at?_eq free ▸ free) (at?_put_self _ place _ (ne_nil_of_free open')) (fun apart => ?_)
    ⟨grown.home, fun other outside => ?_⟩
  · rw [at?_put_of_ne _ _ apart, at?_erase_self _ (ne_nil_of_free free)]
  · obtain ⟨notPlace, notBeside⟩ : other ≠ place ∧ other ≠ beside := by simpa using outside
    exact (((grown.untouched other).after_put free notBeside).after_erase solid notBeside).after_put
      clear notPlace

end Beside

/-- Once the directories are there, the run makes the file beside, puts the text into it, has it
stored and renames it. -/
theorem outcome_replaceFile (input : String)
    (grown : Grown ((Path.backward path).drop 1) tree after) :
    Outcome disk path text tree
      (runOn ((replaceFile (Host.ofTree input disk) path text).adapt (Error.output path))
        after) := by
  rw [runOn_adapt, replaceFile]
  rw [runOn_bind, runOn_create]
  cases created : after.write (Path.withExtension path "tmp") .empty with
  | error cause => exact .refused (changesOnly_of_grown grown _)
  | ok fresh =>
      obtain ⟨beside, located, free, rfl⟩ := write_eq_ok created
      have reached := (keeps_put (.file .empty) free).locate located
      have empty := at?_put_self after beside (.file .empty) (ne_nil_of_free free)
      dsimp only
      rw [runOn_bind, runOn_append input disk reached empty, put_put]
      by_cases room : disk.hasRoom text = true
      · rw [if_pos room]
        dsimp only
        rw [runOn_bind, runOn_sync]
        cases broken : disk.broken with
        | some cause =>
            have flawed : disk ≠ {} := by
              rintro rfl
              cases broken
            exact outcome_unfinished grown located free flawed cause
        | none =>
            dsimp only
            rw [runOn_rename, take_of_hasRoom room]
            cases renamed : (after.put beside (.file text.toUTF8)).rename
                (Path.withExtension path "tmp") path with
            | error cause => exact outcome_stranded grown located free renamed
            | ok final => exact outcome_published grown located free renamed
      · have flawed : disk ≠ {} := by
          rintro rfl
          exact room rfl
        rw [if_neg room]
        exact outcome_unfinished grown located free flawed _

private theorem outcome_publish (input : String) (disk : Disk) (path text : String)
    (tree : FileTree ByteArray) :
    Outcome disk path text tree
      (runOn (publish (Host.ofTree input disk) path text) tree) := by
  rw [publish]
  rw [runOn_bind, runOn_adapt]
  have grown := grown_makeDirectories input disk ((Path.backward path).drop 1) tree
  rcases ran : runOn (makeDirectories (Host.ofTree input disk) ((Path.backward path).drop 1)) tree
    with ⟨cause | done, after⟩
  · rw [ran] at grown
    exact .unreached (changesOnly_of_grown grown _)
  · rw [ran] at grown
    exact outcome_replaceFile input grown

theorem ChangesOnly.same_file {places : List (List String)} {place : List String}
    (only : ChangesOnly path tree after places) (outside : place ∉ places) (content : ByteArray) :
    after.at? place = some (.file content) ↔ tree.at? place = some (.file content) :=
  (only.untouched place outside).same_file content

/-- If a run fails with only the file beside changed, this file decides. -/
theorem clean_iff_of_failed {cause : Error} {beside : List String}
    (there : after.locate (Path.withExtension path "tmp") = .ok beside)
    (only : ChangesOnly path tree after [beside]) :
    Clean path text tree (.error cause, after) ↔ Spares path tree (.error cause, after) := by
  constructor
  · intro clean beside content _
    exact clean beside content
  · intro spares place content
    by_cases same : place = beside
    · exact same ▸ spares beside content there
    · exact only.same_file (by simpa using same) content

private theorem Outcome.clean_iff {result : Except Error Unit × FileTree ByteArray}
    (outcome : Outcome disk path text tree result) :
    Clean path text tree result ↔ Spares path tree result := by
  cases outcome with
  | unreached only =>
      have same := fun place content => (only.untouched place List.not_mem_nil).same_file content
      exact ⟨fun _ beside content _ => same beside content, fun _ => same⟩
  | refused only =>
      have same := fun place content => (only.untouched place List.not_mem_nil).same_file content
      exact ⟨fun _ beside content _ => same beside content, fun _ => same⟩
  | unfinished flawed there free holds only => exact clean_iff_of_failed there only
  | stranded blocked there free holds only => exact clean_iff_of_failed there only
  | @published after place beside here there free holds gone only =>
      constructor
      · rintro ⟨target, located, -, onlyTarget⟩ other reached
        obtain rfl : place = target := Except.ok.inj (here.symm.trans located)
        obtain rfl : beside = other := Except.ok.inj (there.symm.trans reached)
        by_cases same : beside = place
        · exact Or.inl (same ▸ here)
        · rcases onlyTarget.untouched beside (by simpa using same) with unchanged | ⟨missing, _, _⟩
          · exact Or.inr (unchanged.symm.trans (gone same))
          · exact Or.inr missing
      · intro spares
        refine ⟨place, here, holds, only.home, fun other outside => ?_⟩
        have apart : other ≠ place := by simpa using outside
        by_cases same : other = beside
        · subst same
          rcases spares other there with located | missing
          · exact absurd (Except.ok.inj (here.symm.trans located)).symm apart
          · exact Or.inl ((gone apart).trans missing.symm)
        · exact only.untouched other (by simp [apart, same])

end Replacement

/-- A run goes wrong nowhere but with the file beside, whatever the disk is like, and it touches
only the report exactly if it spares that file. -/
theorem publish_clean_iff (input : String) (disk : Disk) (path date : String)
    (report : CheckReport) (tree : FileTree ByteArray) :
    let ran := runOn (publish (Host.ofTree input disk) path (report.text date)) tree
    Outcome disk path (report.text date) tree ran ∧
      (Clean path (report.text date) tree ran ↔ Spares path tree ran) :=
  ⟨outcome_publish input disk path _ tree, (outcome_publish input disk path _ tree).clean_iff⟩

/-- A file that is beside the report by chance is lost. -/
theorem not_clean_of_beside :
    ¬Clean "report.json" (({ separator := ":" } : CheckReport).text "")
      { entries := [(["report.tmp"], .file "keep".toUTF8)] }
      (runOn (publish (Host.ofTree "") "report.json" (({ separator := ":" } : CheckReport).text ""))
        { entries := [(["report.tmp"], .file "keep".toUTF8)] }) := by
  generalize ({ separator := ":" } : CheckReport).text "" = text
  have ran : runOn (publish (Host.ofTree "") "report.json" text)
      { entries := [(["report.tmp"], .file "keep".toUTF8)] } =
        (.ok (), { entries := [(["report.json"], .file text.toUTF8)] }) := by
    rfl
  rw [ran]
  rintro ⟨place, located, -, only⟩
  have there : ({ entries := [(["report.json"], .file text.toUTF8)] } :
      FileTree ByteArray).locate "report.json" = .ok ["report.json"] := rfl
  have reached : place = ["report.json"] := Except.ok.inj (located.symm.trans there)
  rcases only.untouched ["report.tmp"] (by simp [reached]) with unchanged | ⟨missing, _, _⟩
  · cases unchanged
  · cases missing

end ClassExpr.Check
