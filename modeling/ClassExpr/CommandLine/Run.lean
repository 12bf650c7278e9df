import ClassExpr.CommandLine.Help
import ClassExpr.Query

set_option autoImplicit false

/-! What a run of the program does: its output, its notes and its exit code. Queries that fail
exit with 1, and so does a check that finds something; a check that fails, or a command line that
asks for no command, exits with 2. -/

namespace ClassExpr.CommandLine

structure Outcome where
  code : Nat
  output : String := ""
  notes : List String := []
deriving Repr, DecidableEq

def Outcome.ofRefusal (refusal : Refusal) : Outcome :=
  match refusal with
  | .help _ | .version => { code := 0, output := refusal.message ++ "\n" }
  | _ => { code := 2, notes := [refusal.message] }

def errorNote (error : Error) : String :=
  "Error: " ++ error.message

def checkNote (report : CheckReport) : String :=
  "Checked " ++ toString report.filesChecked ++ " files: " ++
    toString report.findingCount ++ " findings"

def dropLineBreak (text : String) : String :=
  match text.toList.reverse with
  | '\n' :: '\r' :: rest => String.ofList rest.reverse
  | '\n' :: rest => String.ofList rest.reverse
  | _ => text

variable {m : Type → Type} [Monad m]

def QueryArguments.load (host : Host m) (arguments : QueryArguments) : ExceptT Error m String :=
  match arguments.text with
  | some text => pure text
  | none => do return dropLineBreak (← host.input.adapt Error.input)

def answer (host : Host m) (query : Query) (arguments : QueryArguments) :
    ExceptT Error m String := do
  let settings ← arguments.source.load host
  let text ← arguments.load host
  return query.render settings text arguments.pretty

def runQuery (host : Host m) (query : Query) (arguments : QueryArguments) : m Outcome := do
  match ← (answer host query arguments).run with
  | .ok rendered => return { code := 0, output := rendered ++ "\n" }
  | .error error => return { code := 1, notes := [errorNote error] }

def runCheck (host : Host m) (options : Check.Options) : m Outcome := do
  match ← (Check.run host options).run with
  | .ok (report, date) =>
      return {
        code := if report.hasFindings then 1 else 0
        output := if options.output.isSome then "" else report.text date ++ "\n"
        notes := [checkNote report] }
  | .error error => return { code := 2, notes := [errorNote error] }

def Command.run (host : Host m) : Command → m Outcome
  | .spread query => runQuery host .spread query
  | .hover position query => runQuery host (.hover position) query
  | .suggest position query => runQuery host (.suggest position) query
  | .check options _ => runCheck host options

def run (host : Host m) (arguments : List String) : m Outcome :=
  match Command.ofArguments arguments with
  | .ok command => command.run host
  | .error refusal => pure (.ofRefusal refusal)

end ClassExpr.CommandLine
