import ClassExpr.FileTree.Basic
import ClassExpr.Proofs.Path

set_option autoImplicit false

/-! What the operations on a file tree change. A path leads on where it led as long as no directory
is taken away. Making directories adds directories on the way of a path and does nothing else;
writing and renaming change the places of the paths that are given to them. -/

namespace ClassExpr.FileTree

variable {C : Type} {tree after : FileTree C}

/-- No directory is taken away, and the current one is the same. -/
structure Keeps (tree after : FileTree C) : Prop where
  home : after.home = tree.home
  directory : ∀ place, tree.at? place = some .directory → after.at? place = some .directory

theorem keeps_put {place : List String} (stored : Stored C)
    (free : tree.at? place ≠ some .directory) : Keeps tree (tree.put place stored) := by
  refine ⟨rfl, fun other directory => ?_⟩
  have ne : other ≠ place := by
    rintro rfl
    exact free directory
  rw [at?_put_of_ne tree stored ne, directory]

theorem keeps_erase {place : List String} (free : tree.at? place ≠ some .directory) :
    Keeps tree (tree.erase place) := by
  refine ⟨rfl, fun other directory => ?_⟩
  have ne : other ≠ place := by
    rintro rfl
    exact free directory
  rw [at?_erase_of_ne tree ne, directory]

theorem ne_nil_of_free {place : List String} (free : tree.at? place ≠ some .directory) :
    place ≠ [] := by
  rintro rfl
  exact free rfl

theorem at?_erase_self (tree : FileTree C) {place : List String} (below : place ≠ []) :
    (tree.erase place).at? place = none := by
  cases place with
  | nil => exact absurd rfl below
  | cons name place =>
      change (tree.entries.filter fun entry => entry.1 != name :: place).lookup (name :: place) = none
      rw [List.lookup_eq_none_iff]
      intro entry member
      have kept := (List.mem_filter.1 member).2
      rw [bne_comm] at kept
      simpa using kept

theorem put_put (tree : FileTree C) (place : List String) (first second : Stored C) :
    (tree.put place first).put place second = tree.put place second := by
  simp [put, erase]

/-! ### Following paths -/

private theorem follow_nil (tree : FileTree C) (place : List String) :
    tree.follow place [] = .ok place := rfl

private theorem follow_cons (tree : FileTree C) (place : List String) (name : String)
    (rest : List String) :
    tree.follow place (name :: rest) =
      match tree.at? place with
      | none => .error .notFound
      | some (.file _) => .error .notDirectory
      | some .directory =>
          if Path.isIdle name then tree.follow place rest
          else if name == ".." then tree.follow place.dropLast rest
          else tree.follow (place ++ [name]) rest := rfl

private theorem follow_append (tree : FileTree C) (place first second : List String) :
    tree.follow place (first ++ second) =
      (tree.follow place first).bind fun reached => tree.follow reached second := by
  induction first generalizing place with
  | nil => rfl
  | cons name first ih =>
      rw [List.cons_append, follow_cons, follow_cons]
      cases tree.at? place with
      | none => rfl
      | some stored =>
          cases stored with
          | file content => rfl
          | directory =>
              dsimp only
              split
              · exact ih place
              · split
                · exact ih place.dropLast
                · exact ih (place ++ [name])

private theorem follow_concat {start directory names : List String} {name : String}
    (stopped : tree.follow start (names ++ [""]) = .ok directory)
    (busy : Path.isIdle name = false) (down : name ≠ "..") :
    tree.follow start (names ++ [name]) = .ok (directory ++ [name]) := by
  rw [follow_append] at stopped ⊢
  cases reached : tree.follow start names with
  | error cause =>
      rw [reached] at stopped
      cases stopped
  | ok place =>
      rw [reached] at stopped
      change tree.follow place [""] = _ at stopped
      change tree.follow place [name] = _
      rw [follow_cons] at stopped ⊢
      cases stored : tree.at? place with
      | none =>
          rw [stored] at stopped
          cases stopped
      | some what =>
          rw [stored] at stopped
          cases what with
          | file content => cases stopped
          | directory =>
              cases stopped
              simp [busy, down, follow_nil]

theorem Keeps.follow (keeps : Keeps tree after) {place names found : List String}
    (followed : tree.follow place names = .ok found) : after.follow place names = .ok found := by
  induction names generalizing place with
  | nil => exact followed
  | cons name names ih =>
      rw [follow_cons] at followed ⊢
      cases stored : tree.at? place with
      | none =>
          rw [stored] at followed
          cases followed
      | some what =>
          rw [stored] at followed
          cases what with
          | file content => cases followed
          | directory =>
              rw [keeps.directory place stored]
              dsimp only at followed ⊢
              split at followed
              next idle => rw [if_pos idle]; exact ih followed
              next busy =>
                rw [if_neg busy]
                split at followed
                next up => rw [if_pos up]; exact ih followed
                next down => rw [if_neg down]; exact ih followed

private theorem start_congr (tree : FileTree C) {names others : List String}
    (same : names.head? = others.head?) : tree.start names = tree.start others := by
  cases names with
  | nil =>
      cases others with
      | nil => rfl
      | cons other others => cases same
  | cons name names =>
      cases others with
      | nil => cases same
      | cons other others =>
          cases same
          unfold start
          split <;> simp_all

private theorem locate_eq_ok_iff {path : String} {place : List String} :
    tree.locate path = .ok place ↔
      Path.names path ≠ [""] ∧
        tree.follow (tree.start (Path.names path)) (Path.names path) = .ok place := by
  unfold locate
  dsimp only
  split
  next empty => simp [eq_of_beq empty]
  next named => simpa using fun _ => by simpa using named

/-- A path leads to the same place as long as no directory is taken away. -/
theorem Keeps.locate (keeps : Keeps tree after) {path : String} {place : List String}
    (located : tree.locate path = .ok place) : after.locate path = .ok place := by
  obtain ⟨named, followed⟩ := locate_eq_ok_iff.1 located
  have same : after.start (Path.names path) = tree.start (Path.names path) := by
    unfold start
    rw [keeps.home]
  exact locate_eq_ok_iff.2 ⟨named, same ▸ keeps.follow followed⟩

private theorem names_of_reverse {names before : List String} {name : String}
    (solid : names.getLast? ≠ some "")
    (dropped : names.reverse.dropWhile (· == "") = name :: before) :
    names = before.reverse ++ [name] ∧ name ≠ "" := by
  rw [← List.head?_reverse] at solid
  cases reversed : names.reverse with
  | nil =>
      rw [reversed] at dropped
      cases dropped
  | cons last front =>
      rw [reversed] at dropped solid
      have filled : last ≠ "" := by simpa using solid
      rw [List.dropWhile_cons, beq_false_of_ne filled] at dropped
      cases dropped
      exact ⟨by rw [← List.reverse_cons, ← reversed, List.reverse_reverse], filled⟩

/-- Where a file may be put under a path, the path leads to it. -/
theorem locate_of_destination {path : String} {place : List String}
    (found : tree.destination path = .ok place) : tree.locate path = .ok place := by
  unfold destination at found
  dsimp only at found
  split at found
  · split at found <;> cases found
  next name before dropped =>
    cases stopped : tree.follow (tree.start (Path.names path)) (before.reverse ++ [""]) with
    | error cause =>
        rw [stopped] at found
        cases found
    | ok directory =>
        rw [stopped] at found
        change (if (name == "." || name == "..") = true then _ else _) = _ at found
        split at found
        · cases found
        next named =>
          split at found
          · cases found
          next solid =>
            cases found
            obtain ⟨whole, filled⟩ := names_of_reverse (by simpa using solid) dropped
            obtain ⟨notDot, notUp⟩ : name ≠ "." ∧ name ≠ ".." := by simpa using named
            have followed := follow_concat stopped (by simp [Path.isIdle, filled, notDot]) notUp
            rw [← whole] at followed
            refine locate_eq_ok_iff.2 ⟨fun empty => ?_, followed⟩
            rw [empty] at solid
            exact solid rfl

/-- Where the path of one name leads somewhere, a file of another name may be put beside it. -/
theorem exists_destination {path sibling name other : String} {before place : List String}
    (ends : Path.EndsWithName path before name) (shared : Path.names sibling = before ++ [other])
    (located : tree.locate sibling = .ok place) :
    ∃ target, tree.destination path = .ok target := by
  obtain ⟨whole, busy, notUp⟩ := ends
  obtain ⟨filled, notDot⟩ : name ≠ "" ∧ name ≠ "." := by simpa [Path.isIdle] using busy
  obtain ⟨named, followed⟩ := locate_eq_ok_iff.1 located
  rw [shared] at named followed
  have same : tree.start (before ++ [other]) = tree.start (before ++ [name]) := by
    cases before with
    | nil =>
        -- neither name is empty, so both paths start from the current directory
        unfold start
        split <;> split <;> simp_all
    | cons first before => exact tree.start_congr rfl
  rw [same, follow_append] at followed
  cases reached : tree.follow (tree.start (before ++ [name])) before with
  | error cause =>
      rw [reached] at followed
      cases followed
  | ok directory =>
      rw [reached] at followed
      change tree.follow directory [other] = _ at followed
      have stopped : tree.follow (tree.start (before ++ [name])) (before ++ [""]) =
          .ok directory := by
        rw [follow_append, reached]
        change tree.follow directory [""] = _
        rw [follow_cons] at followed ⊢
        cases stored : tree.at? directory with
        | none =>
            rw [stored] at followed
            cases followed
        | some what =>
            rw [stored] at followed
            cases what with
            | file content => cases followed
            | directory => rfl
      refine ⟨directory ++ [name], ?_⟩
      unfold destination
      rw [whole]
      simp [filled, stopped, notDot, notUp]
      rfl

/-! ### Operations -/

/-- The place is as it was, or has become a directory on the way to what the names lead to, which
are given from the last one back. -/
def Untouched (names : List String) (tree after : FileTree C) (place : List String) : Prop :=
  after.at? place = tree.at? place ∨
    tree.at? place = none ∧ after.at? place = some .directory ∧
      ∃ way, way <:+ names ∧ after.locate (Path.ofBackward way) = .ok place

/-- Nothing has changed but that there are directories on the way. -/
structure Grown (names : List String) (tree after : FileTree C) : Prop where
  home : after.home = tree.home
  untouched : ∀ place, Untouched names tree after place

theorem Grown.refl (names : List String) (tree : FileTree C) : Grown names tree tree :=
  ⟨rfl, fun _ => Or.inl rfl⟩

theorem Grown.keeps {names : List String} (grown : Grown names tree after) : Keeps tree after := by
  refine ⟨grown.home, fun place directory => ?_⟩
  rcases grown.untouched place with same | ⟨missing, _, _⟩
  · rw [same, directory]
  · rw [missing] at directory
    cases directory

theorem Grown.mono {names longer : List String} (grown : Grown names tree after)
    (shorter : names <:+ longer) : Grown longer tree after := by
  refine ⟨grown.home, fun place => ?_⟩
  rcases grown.untouched place with same | ⟨missing, made, way, suffix, leads⟩
  · exact Or.inl same
  · exact Or.inr ⟨missing, made, way, suffix.trans shorter, leads⟩

theorem Grown.trans {names : List String} {later : FileTree C} (first : Grown names tree after)
    (second : Grown names after later) : Grown names tree later := by
  refine ⟨second.home.trans first.home, fun place => ?_⟩
  rcases second.untouched place with same | ⟨missing, made, way, suffix, leads⟩
  · rcases first.untouched place with unchanged | ⟨missing, made, way, suffix, leads⟩
    · exact Or.inl (same.trans unchanged)
    · exact Or.inr ⟨missing, same.trans made, way, suffix, second.keeps.locate leads⟩
  · rcases first.untouched place with unchanged | ⟨_, present, _⟩
    · exact Or.inr ⟨unchanged ▸ missing, made, way, suffix, leads⟩
    · rw [missing] at present
      cases present

theorem Untouched.after_put {names place other : List String} {stored : Stored C}
    (untouched : Untouched names tree after other) (free : after.at? place ≠ some .directory)
    (ne : other ≠ place) : Untouched names tree (after.put place stored) other := by
  have same := at?_put_of_ne after stored ne
  rcases untouched with unchanged | ⟨missing, made, way, suffix, leads⟩
  · exact Or.inl (same.trans unchanged)
  · exact Or.inr ⟨missing, same.trans made, way, suffix, (keeps_put stored free).locate leads⟩

theorem Untouched.after_erase {names place other : List String}
    (untouched : Untouched names tree after other) (free : after.at? place ≠ some .directory)
    (ne : other ≠ place) : Untouched names tree (after.erase place) other := by
  have same := at?_erase_of_ne after ne
  rcases untouched with unchanged | ⟨missing, made, way, suffix, leads⟩
  · exact Or.inl (same.trans unchanged)
  · exact Or.inr ⟨missing, same.trans made, way, suffix, (keeps_erase free).locate leads⟩

theorem Untouched.same_file {names place : List String}
    (untouched : Untouched names tree after place) (content : C) :
    after.at? place = some (.file content) ↔ tree.at? place = some (.file content) := by
  rcases untouched with same | ⟨missing, made, _⟩
  · rw [same]
  · rw [missing, made]
    simp

theorem Grown.at?_eq {names place : List String} (grown : Grown names tree after)
    (free : after.at? place ≠ some .directory) : after.at? place = tree.at? place := by
  rcases grown.untouched place with same | ⟨_, made, _⟩
  · exact same
  · exact absurd made free

theorem grown_makeDirectory {names : List String}
    (made : tree.makeDirectory (Path.ofBackward names) = .ok after) : Grown names tree after := by
  unfold makeDirectory at made
  cases located : tree.locate (Path.ofBackward names) with
  | error cause =>
      rw [located] at made
      cases made
  | ok place =>
      rw [located] at made
      dsimp only [bind, Except.bind] at made
      cases missing : tree.at? place with
      | some stored =>
          rw [missing] at made
          cases made
      | none =>
          rw [missing] at made
          cases made
          have free : tree.at? place ≠ some .directory := by simp [missing]
          refine ⟨rfl, fun other => ?_⟩
          by_cases same : other = place
          · subst same
            refine Or.inr ⟨missing, at?_put_self tree other .directory (ne_nil_of_free free), names,
              List.suffix_refl _, (keeps_put .directory free).locate located⟩
          · exact Or.inl (at?_put_of_ne tree .directory same)

theorem write_eq_ok {path : String} {content : C} (written : tree.write path content = .ok after) :
    ∃ place, tree.locate path = .ok place ∧ tree.at? place ≠ some .directory ∧
      after = tree.put place (.file content) := by
  unfold write at written
  cases located : tree.locate path with
  | error cause =>
      rw [located] at written
      cases written
  | ok place =>
      rw [located] at written
      dsimp only [bind, Except.bind] at written
      split at written
      · cases written
      next free =>
        cases written
        exact ⟨place, rfl, free, rfl⟩

private theorem find_eq_ok {path : String} {place : List String} {stored : Stored C}
    (located : tree.locate path = .ok place) (there : tree.at? place = some stored) :
    tree.find path = .ok stored := by
  rw [find, located]
  dsimp only [bind, Except.bind]
  rw [there]

private theorem read_eq_ok {path : String} {place : List String} {content : C}
    (located : tree.locate path = .ok place) (stored : tree.at? place = some (.file content)) :
    tree.read path = .ok content := by
  rw [read, find_eq_ok located stored]
  rfl

private theorem stored_of_read {path : String} {place : List String} {content : C}
    (located : tree.locate path = .ok place) (held : tree.read path = .ok content) :
    tree.at? place = some (.file content) := by
  cases there : tree.at? place with
  | none =>
      rw [read, find, located] at held
      dsimp only [bind, Except.bind] at held
      rw [there] at held
      cases held
  | some stored =>
      rw [read, find_eq_ok located there] at held
      cases stored with
      | directory => cases held
      | file other =>
          cases held
          rfl

theorem rename_eq_ok {source target : String} (renamed : tree.rename source target = .ok after) :
    ∃ place content place', tree.locate source = .ok place ∧
      tree.at? place = some (.file content) ∧ tree.locate target = .ok place' ∧
      tree.at? place' ≠ some .directory ∧ after = (tree.erase place).put place' (.file content) := by
  unfold rename at renamed
  cases located : tree.locate source with
  | error cause =>
      rw [located] at renamed
      cases renamed
  | ok place =>
      cases held : tree.read source with
      | error cause =>
          rw [located, held] at renamed
          cases renamed
      | ok content =>
          cases found : tree.destination target with
          | error cause =>
              rw [located, held, found] at renamed
              cases renamed
          | ok place' =>
              rw [located, held, found] at renamed
              dsimp only [bind, Except.bind] at renamed
              split at renamed
              · cases renamed
              next free =>
                cases renamed
                exact ⟨place, content, place', rfl, stored_of_read located held,
                  locate_of_destination found, free, rfl⟩

/-- A file that is given the path of another name beside it is refused only if that is the path of a
directory. -/
theorem isDirectory_of_rename_eq_error {path sibling name other : String}
    {before place : List String} {content : C} {cause : FileFault}
    (ends : Path.EndsWithName path before name) (shared : Path.names sibling = before ++ [other])
    (located : tree.locate sibling = .ok place) (stored : tree.at? place = some (.file content))
    (refused : tree.rename sibling path = .error cause) : tree.isDirectory path = true := by
  obtain ⟨target, found⟩ := exists_destination ends shared located
  have same : tree.read sibling = .ok content := read_eq_ok located stored
  rw [rename, located, same, found] at refused
  dsimp only [bind, Except.bind] at refused
  split at refused
  next taken => rw [isDirectory, find_eq_ok (locate_of_destination found) taken]
  · cases refused

end ClassExpr.FileTree
