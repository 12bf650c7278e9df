import ClassExpr.Check.Collect
import ClassExpr.Check.Publish
import ClassExpr.Glob.Search
import ClassExpr.Report.Check
import ClassExpr.Settings.Source

set_option autoImplicit false

/-! A check of files: every file is one expression. What was asked for is judged first, then the
settings, the exclude patterns and the input patterns. Files that are no text are passed over. -/

namespace ClassExpr.Check

structure Options where
  input : List String
  exclude : List String := []
  /-- The path of a file for the report. -/
  output : Option String := none
  /-- How many files may be read at a time. -/
  jobs : Option Nat := none
  source : Settings.Source := {}
deriving Repr, DecidableEq

def Options.fault? (options : Options) : Option ArgumentFault :=
  if options.input.isEmpty then some .noInput
  else if options.jobs == some 0 then some .noJobs
  else none

variable {m : Type → Type} [Monad m]

def readAll (host : Host m) (settings : Settings) : List String → m (List (String × FileReport))
  | [] => pure []
  | path :: paths => do
      let content ← (host.read path).run
      let rest ← readAll host settings paths
      match content with
      | .ok text => return (path, FileReport.ofText settings text) :: rest
      | .error _ => return rest

def searchTree (tree : FileTree Nat) (pattern : String) :
    Except Error (List (Except Error String)) :=
  return (← Glob.search tree pattern).map .ok

def select (options : Options) (tree : FileTree Nat) : Except Error (List (String × Nat)) := do
  let files ← collect tree.find Glob.test? (searchTree tree) options.input options.exclude
  if files.isEmpty then .error .noFiles else .ok files

/-- Checks the files, and puts the report into a file if that is asked for. The date is that of the
report. -/
def run (host : Host m) (options : Options) : ExceptT Error m (CheckReport × String) := do
  if let some cause := options.fault? then throw (.arguments cause)
  let settings ← options.source.load host
  let tree ← host.survey
  let files ← ExceptT.mk (pure (select options tree))
  let checked ← (readAll host settings (files.map (·.1)) : m (List (String × FileReport)))
  let start ← host.clock
  let date ← host.now
  let stop ← host.clock
  let report := CheckReport.build settings.separator checked (some (stop - start))
  if let some path := options.output then publish host path (report.text date)
  return (report, date)

end ClassExpr.Check
