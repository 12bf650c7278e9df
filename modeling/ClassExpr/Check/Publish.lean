import ClassExpr.Host

set_option autoImplicit false

/-! Putting a report where it is wanted: the directories on the way are made, the text goes to a
file beside, and once it is stored that file takes the place of the report. -/

namespace ClassExpr.Check

variable {m : Type → Type} [Monad m]

def orPresent (host : Host m) (path : String) (cause : FileFault) : ExceptT FileFault m Unit := do
  if ← host.isDirectory path then pure () else throw cause

/-- Makes a directory, and first the one that it is in if that is missing. The names of the path are
given from the last one back; those that lead nowhere are passed over at its end. -/
def makeDirectories (host : Host m) : List String → ExceptT FileFault m Unit
  | [] => pure ()
  | name :: before =>
      if Path.isIdle name then makeDirectories host before
      else
        let path := Path.ofBackward (name :: before)
        tryCatch (host.makeDirectory path) fun
          | .notFound => do
              makeDirectories host before
              tryCatch (host.makeDirectory path) (orPresent host path)
          | cause => orPresent host path cause

/-- Replaces the file of a path by way of another one. -/
def replaceFile (host : Host m) (path text : String) : ExceptT FileFault m Unit := do
  let aside := Path.withExtension path "tmp"
  host.create aside
  host.append aside text
  host.sync aside
  host.rename aside path

def publish (host : Host m) (path text : String) : ExceptT Error m Unit := do
  let parent := (Path.backward path).drop 1
  (makeDirectories host parent).adapt Error.file
  (replaceFile host path text).adapt (Error.output path)

end ClassExpr.Check
