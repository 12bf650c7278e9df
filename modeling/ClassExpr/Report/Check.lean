import ClassExpr.Json.Printer
import ClassExpr.Report.Finding

set_option autoImplicit false

/-! The report of a check over files. Files keep the place of their first addition and the report
of their last one. An addition brings the totals of the report up to date; statistics are taken when
they are asked for and stay as they were then. -/

namespace ClassExpr

structure Statistics where
  filesWithFindings : Nat
  items : Nat
  /-- One count for each kind of finding, in the order of the kinds. -/
  counts : List (FindingKind × Nat)
  /-- How long the check took, in milliseconds. -/
  elapsed : Option Nat
deriving Repr, DecidableEq

structure CheckReport where
  separator : String
  files : List (String × FileReport) := []
  filesChecked : Nat := 0
  /-- The number of findings in all files. -/
  findingCount : Nat := 0
  statistics : Option Statistics := none
deriving Repr, DecidableEq

namespace CheckReport

/-- Replaces the report of a path in its place, or puts it at the end. -/
def put (path : String) (file : FileReport) :
    List (String × FileReport) → List (String × FileReport)
  | [] => [(path, file)]
  | (other, found) :: rest =>
      if other == path then (path, file) :: rest else (other, found) :: put path file rest

def total (number : FileReport → Nat) (files : List (String × FileReport)) : Nat :=
  files.foldl (fun sum (_, file) => sum + number file) 0

def add (report : CheckReport) (path : String) (file : FileReport) : CheckReport :=
  let files := put path file report.files
  { report with
    files
    filesChecked := files.length
    findingCount := total (·.findings.length) files }

def hasFindings (report : CheckReport) : Bool :=
  0 < report.findingCount

def findings (report : CheckReport) : List Finding :=
  report.files.flatMap (·.2.findings)

def tally (kind : FindingKind) : List (FindingKind × Nat) → List (FindingKind × Nat)
  | [] => [(kind, 1)]
  | (other, count) :: rest =>
      if other == kind then (other, count + 1) :: rest else (other, count) :: tally kind rest

/-- Takes the statistics of the files as they are. The items are added up in a machine word, which a
report that was read back may overflow. -/
def measure (report : CheckReport) (elapsed : Option Nat) : CheckReport :=
  let unseen := FindingKind.all.map (fun kind => (kind, 0))
  let statistics : Statistics :=
    { filesWithFindings := report.files.countP (fun (_, file) => !file.findings.isEmpty)
      items := total (·.items) report.files % UInt64.size
      counts := report.findings.foldl (fun counts finding => tally finding.kind counts) unseen
      elapsed }
  { report with statistics := some statistics }

def build (separator : String) (files : List (String × FileReport)) (elapsed : Option Nat) :
    CheckReport :=
  let empty : CheckReport := { separator }
  (files.foldl (fun report (path, file) => report.add path file) empty).measure elapsed

/-! ### JSON -/

def formatVersion : String := "1.0.0"

def checkerVersion : String := "0.2.0"

def statisticsJson (statistics : Statistics) : Json :=
  .object (
    [("files_with_findings", .natural statistics.filesWithFindings),
      ("items", .natural statistics.items),
      ("by_kind",
        .object (statistics.counts.map (fun (kind, count) => (kind.name, .natural count))))] ++
    Json.member? "processing_time_ms" (statistics.elapsed.map .natural))

def toJson (report : CheckReport) (generatedAt : Option String) : Json :=
  .object (
    [("metadata", .object (
        [("version", .string formatVersion)] ++
        Json.member? "generated_at" (generatedAt.map .string) ++
        [("files_checked", .natural report.filesChecked),
          ("findings", .natural report.findingCount),
          ("separator", .string report.separator),
          ("checker_version", .string checkerVersion)])),
      ("files", .object (report.files.map (fun (path, file) => (path, file.toJson))))] ++
    Json.member? "statistics" (report.statistics.map statisticsJson))

def text (report : CheckReport) (generatedAt : String) : String :=
  (report.toJson (some generatedAt)).pretty

end CheckReport

end ClassExpr
