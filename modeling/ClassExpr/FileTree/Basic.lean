import ClassExpr.Error
import ClassExpr.FileTree.Path

set_option autoImplicit false

/-! A file system: a map from places to directories and files. A place is the list of names that
lead to it from the root, which is always a directory. Paths are followed name by name, from the
root or from the current directory. -/

namespace ClassExpr

inductive Stored (C : Type) where
  | directory
  | file (content : C)
deriving Repr, DecidableEq

structure FileTree (C : Type) where
  /-- Everything below the root. The first entry for a place counts. -/
  entries : List (List String × Stored C) := []
  /-- The place of the current directory. -/
  home : List String := []
deriving Repr, DecidableEq

namespace FileTree

variable {C D : Type}

def at? (tree : FileTree C) : List String → Option (Stored C)
  | [] => some .directory
  | place => tree.entries.lookup place

def erase (tree : FileTree C) (place : List String) : FileTree C :=
  { tree with entries := tree.entries.filter (fun (other, _) => other != place) }

def put (tree : FileTree C) (place : List String) (stored : Stored C) : FileTree C :=
  { tree with entries := (place, stored) :: (tree.erase place).entries }

def map (f : C → D) (tree : FileTree C) : FileTree D :=
  { home := tree.home
    entries := tree.entries.map (fun (place, stored) =>
      (place, match stored with
        | .directory => .directory
        | .file content => .file (f content))) }

theorem at?_put_self (tree : FileTree C) (place : List String) (stored : Stored C)
    (below : place ≠ []) : (tree.put place stored).at? place = some stored := by
  cases place with
  | nil => exact absurd rfl below
  | cons name place => simp [at?, put]

private theorem lookup_filter_ne {place other : List String} (ne : other ≠ place)
    (entries : List (List String × Stored C)) :
    (entries.filter (fun (found, _) => found != place)).lookup other = entries.lookup other := by
  induction entries with
  | nil => rfl
  | cons entry entries ih =>
      obtain ⟨found, stored⟩ := entry
      by_cases same : found = place
      · have differs : (other == found) = false := beq_false_of_ne (same ▸ ne)
        rw [List.filter_cons_of_neg (by simp [same]), List.lookup_cons, differs, ih]
      · simp [same, List.lookup_cons, ih]

theorem at?_erase_of_ne (tree : FileTree C) {place other : List String} (ne : other ≠ place) :
    (tree.erase place).at? other = tree.at? other := by
  cases other with
  | nil => rfl
  | cons name other => exact lookup_filter_ne ne tree.entries

theorem at?_put_of_ne (tree : FileTree C) (stored : Stored C) {place other : List String}
    (ne : other ≠ place) : (tree.put place stored).at? other = tree.at? other := by
  cases other with
  | nil => rfl
  | cons name other =>
      have differs : (name :: other == place) = false := by simpa using ne
      simpa [at?, put, erase, List.lookup_cons, differs] using lookup_filter_ne ne tree.entries

/-! ### Paths -/

/-- Follows names from a place. What a name is looked up in has to be a directory. What is above the
root is the root. -/
def follow (tree : FileTree C) (place : List String) : List String → Except FileFault (List String)
  | [] => .ok place
  | name :: rest =>
      match tree.at? place with
      | none => .error .notFound
      | some (.file _) => .error .notDirectory
      | some .directory =>
          if Path.isIdle name then tree.follow place rest
          else if name == ".." then tree.follow place.dropLast rest
          else tree.follow (place ++ [name]) rest

/-- Where the names of a path are followed from. In front of the first slash of a path from the root
there is an empty name. -/
def start (tree : FileTree C) : List String → List String
  | "" :: _ => []
  | _ => tree.home

/-- The place that a path leads to. An empty path leads nowhere. -/
def locate (tree : FileTree C) (path : String) : Except FileFault (List String) :=
  let names := Path.names path
  if names == [""] then .error .notFound else tree.follow (tree.start names) names

def find (tree : FileTree C) (path : String) : Except FileFault (Stored C) := do
  match tree.at? (← tree.locate path) with
  | some stored => .ok stored
  | none => .error .notFound

def isDirectory (tree : FileTree C) (path : String) : Bool :=
  match tree.find path with
  | .ok .directory => true
  | _ => false

def read (tree : FileTree C) (path : String) : Except FileFault C := do
  match ← tree.find path with
  | .directory => .error .isDirectory
  | .file content => .ok content

/-! ### Changes -/

def makeDirectory (tree : FileTree C) (path : String) : Except FileFault (FileTree C) := do
  let place ← tree.locate path
  match tree.at? place with
  | some _ => .error .alreadyExists
  | none => .ok (tree.put place .directory)

def write (tree : FileTree C) (path : String) (content : C) : Except FileFault (FileTree C) := do
  let place ← tree.locate path
  match tree.at? place with
  | some .directory => .error .isDirectory
  | _ => .ok (tree.put place (.file content))

def modify (tree : FileTree C) (path : String) (f : C → C) : Except FileFault (FileTree C) := do
  let place ← tree.locate path
  match tree.at? place with
  | none => .error .notFound
  | some .directory => .error .isDirectory
  | some (.file content) => .ok (tree.put place (.file (f content)))

/-- The place for a file of that path. The path must name it, and nothing may follow the name. -/
def destination (tree : FileTree C) (path : String) : Except FileFault (List String) :=
  let names := Path.names path
  match names.reverse.dropWhile (· == "") with
  | [] => .error (if names == [""] then .notFound else .busy)
  | name :: before => do
      let place ← tree.follow (tree.start names) (before.reverse ++ [""])
      if name == "." || name == ".." then .error .busy
      else if names.getLast? == some "" then .error .notDirectory
      else .ok (place ++ [name])

/-- Gives a file another path, and takes the place of a file that is there. -/
def rename (tree : FileTree C) (source target : String) : Except FileFault (FileTree C) := do
  let place ← tree.locate source
  let content ← tree.read source
  let place' ← tree.destination target
  match tree.at? place' with
  | some .directory => .error .isDirectory
  | _ => .ok ((tree.erase place).put place' (.file content))

/-! ### Listings -/

def children (tree : FileTree C) (place : List String) : List (String × Stored C) :=
  tree.entries.filterMap (fun (other, stored) =>
    match other.getLast? with
    | some name => if other.dropLast == place then some (name, stored) else none
    | none => none)

/-- Everything below a place, each by the names that lead to it from there, in the order of the
tree. -/
def descendants (tree : FileTree C) (place : List String) : List (List String × Stored C) :=
  tree.entries.filterMap (fun (other, stored) =>
    if place.isPrefixOf other && other != place then some (other.drop place.length, stored)
    else none)

/-- The tree with its entries in the order of their names, so that a directory is right before
what is in it. -/
def sorted (tree : FileTree C) : FileTree C :=
  { tree with entries := tree.entries.mergeSort (fun left right => !List.lex right.1 left.1) }

end FileTree

end ClassExpr
