set_option autoImplicit false

/-! Paths as they are written: names with slashes between them. An empty name and the name of one
dot lead nowhere; the name of two dots leads up. -/

namespace ClassExpr.Path

def split : List Char → List (List Char)
  | [] => [[]]
  | c :: cs =>
      if c == '/' then [] :: split cs
      else
        match split cs with
        | [] => [[c]]
        | part :: parts => (c :: part) :: parts

def names (path : String) : List String :=
  (split path.toList).map String.ofList

def isIdle (name : String) : Bool :=
  name == "" || name == "."

/-- The names of a path from the last one that leads somewhere back to the first. -/
def backward (path : String) : List String :=
  (names path).reverse.dropWhile isIdle

def ofBackward (names : List String) : String :=
  "/".intercalate names.reverse

/-- What two ways to write one path have in common: names that lead nowhere count only in front. -/
def key (path : String) : List String :=
  let steps := (names path).filter (fun name => !isIdle name)
  match names path with
  | "" :: _ :: _ => "" :: steps
  | "." :: _ => "." :: steps
  | _ => steps

/-- The last name, unless the path ends by going up. -/
def fileName? (path : String) : Option String :=
  (backward path).head?.filter (· != "..")

/-- A name before and after its last dot. A dot in front is not counted. -/
def splitName (name : String) : String × Option String :=
  let reversed := name.toList.reverse
  let after := reversed.takeWhile (· != '.')
  match reversed.drop after.length with
  | '.' :: c :: before =>
      (String.ofList (c :: before).reverse, some (String.ofList after.reverse))
  | _ => (name, none)

def extension? (path : String) : Option String :=
  (fileName? path).bind (fun name => (splitName name).2)

def withExtension (path extension : String) : String :=
  match backward path with
  | [] | ".." :: _ => path
  | name :: before => ofBackward (((splitName name).1 ++ "." ++ extension) :: before)

def join (directory name : String) : String :=
  if directory.endsWith "/" then directory ++ name else directory ++ "/" ++ name

end ClassExpr.Path
