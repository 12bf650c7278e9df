import ClassExpr.FileTree.Basic

set_option autoImplicit false

/-! Which files a check looks at: those that an input pattern finds and no exclude pattern
matches, that are no directories and not too large. A file that is found again is not listed
again. What a search finds are paths, in the place of which there may be failures; the first
failure is all that is told. -/

namespace ClassExpr.Check

def greatestSize : Nat := 10485760

abbrev Look := String → Except FileFault (Stored Nat)

def isDirectory (look : Look) (path : String) : Bool :=
  match look path with
  | .ok .directory => true
  | _ => false

def sizeOf (look : Look) (path : String) : Nat :=
  match look path with
  | .ok (.file size) => size
  | _ => 0

/-- The files that are listed so far, the last one first, and which ways they are reached. -/
structure Listing where
  files : List (String × Nat) := []
  seen : List (List String) := []
deriving Repr, DecidableEq

variable {E : Type} (look : Look) (excluded : String → Bool)

/-- Lists a path that was found with its size, unless it is passed over. Of all paths that lead the
same way the first one that is not passed over is listed. -/
def Listing.visit (listing : Listing) (path : String) : Listing :=
  if excluded path then listing
  else if isDirectory look path then listing
  else
    let size := sizeOf look path
    if greatestSize < size then listing
    else if listing.seen.contains (Path.key path) then listing
    else ⟨(path, size) :: listing.files, Path.key path :: listing.seen⟩

def Listing.visitAll (listing : Listing) (entries : List (Except E String)) : Except E Listing :=
  entries.foldlM (fun listing entry => return listing.visit look excluded (← entry)) listing

/-- The files to check with their sizes, in the order in which they are found. The exclude patterns
are read first, and then one input pattern after the other is searched for. -/
def collect (test? : String → Except E (String → Bool))
    (search : String → Except E (List (Except E String))) (patterns excludes : List String) :
    Except E (List (String × Nat)) := do
  let tests ← excludes.mapM test?
  let listing ← patterns.foldlM (fun listing pattern => do
    listing.visitAll look (fun path => tests.any (· path)) (← search pattern)) ({} : Listing)
  return listing.files.reverse

end ClassExpr.Check
