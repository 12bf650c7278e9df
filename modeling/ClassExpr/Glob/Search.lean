import ClassExpr.FileTree.Basic
import ClassExpr.Glob.Pattern

set_option autoImplicit false

/-! Search for the paths of a file tree that a pattern matches. A pattern is followed part by part,
from the root or from the current directory. A part that stands for one name is looked up; any other
is compared with the names in a directory, in their order. Names in the current directory stand
alone. -/

namespace ClassExpr.Glob

inductive Part where
  | name (text : String)
  | pattern (tokens : List Token)
  /-- The directories below, at any depth. -/
  | anyDepth
deriving Repr, DecidableEq

namespace Part

def spelled? (tokens : List Token) : Option String :=
  (tokens.mapM (fun | Token.char c => some c | _ => none)).map String.ofList

def ofTokens (tokens : List Token) : Part :=
  if tokens == [.anyDirectories] then .anyDepth
  else
    match spelled? tokens with
    | some text => .name text
    | none => .pattern tokens

end Part

def start (pattern : String) : String :=
  if pattern.startsWith "/" then "/" else "."

/-- The parts of a pattern. A slash in front or at the end begins no part. -/
def parts? (pattern : String) : Option (List Part) :=
  let names := Path.names pattern
  let names := if pattern.startsWith "/" then names.drop 1 else names
  let names := if 1 < names.length && names.getLast? == some "" then names.dropLast else names
  (names.mapM tokens?).map (·.map Part.ofTokens)

def isHere (path : String) : Bool :=
  Path.key path == ["."]

def enter (path name : String) : String :=
  if isHere path then name else Path.join path name

variable {C : Type}

def within (tree : FileTree C) (path : String) : List String :=
  match tree.locate path with
  | .ok place => (tree.children place).map (fun (name, _) => enter path name)
  | .error _ => []

def below (tree : FileTree C) (path : String) : List String :=
  match tree.locate path with
  | .ok place => (tree.descendants place).map (fun (names, _) => enter path ("/".intercalate names))
  | .error _ => []

/-- The directories that a pattern with a dot in front finds besides the names: upwards, and
here. -/
def dotted (tree : FileTree C) (tokens : List Token) (path : String) : List String :=
  if tokens.head? == some (.char '.') then
    (["..", "."].filter (fun name => isMatch tokens name.toList)).map (Path.join path)
      |>.filter tree.isDirectory
  else []

def namesMatch (tokens : List Token) (path : String) : Bool :=
  (Path.fileName? path).any (fun name => isMatch tokens name.toList)

mutual

def fill (tree : FileTree C) : List Part → String → List String
  | [], path => [path]
  | .name text :: rest, path =>
      let next := enter path text
      if (tree.find next).toBool then fill tree rest next else []
  | .pattern tokens :: rest, path =>
      (dotted tree tokens path ++ (within tree path).filter (namesMatch tokens)).flatMap
        (fun next => fill tree rest next)
  | .anyDepth :: rest, path => (below tree path).flatMap (fun next => meet tree rest next)

/-- The paths that the parts lead to if the first of them has to match the path's last name. Without
parts, the path has to be a directory. -/
def meet (tree : FileTree C) : List Part → String → List String
  | [], path => if tree.isDirectory path then [path] else []
  | .name text :: rest, path => if Path.fileName? path == some text then fill tree rest path else []
  | .pattern tokens :: rest, path => if namesMatch tokens path then fill tree rest path else []
  | .anyDepth :: rest, path => meet tree rest path

end

/-- The paths that a pattern matches, in the order of their names. A slash at the end asks for
directories. -/
def search (tree : FileTree C) (pattern : String) : Except Error (List String) :=
  match tokens? pattern, parts? pattern with
  | some _, some parts =>
      let found := fill tree.sorted parts (start pattern)
      .ok (if pattern.endsWith "/" then found.filter tree.isDirectory else found)
  | _, _ => .error (.pattern pattern)

def test? (pattern : String) : Except Error (String → Bool) :=
  match tokens? pattern with
  | some tokens => .ok (fun path => isMatch tokens path.toList)
  | none => .error (.pattern pattern)

end ClassExpr.Glob
