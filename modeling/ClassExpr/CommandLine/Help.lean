import ClassExpr.CommandLine.Arguments

set_option autoImplicit false

/-! What the program says about its commands, and about arguments that ask for none. -/

namespace ClassExpr.CommandLine

def programName : String := "twin-parser"

def programVersion : String := "0.2.0"

def padded (width : Nat) (text : String) : String :=
  text ++ String.ofList (List.replicate (width - text.length) ' ')

def Flag.line (flag : Flag) : String :=
  let short := match flag.short? with
    | some c => String.ofList ['-', c] ++ ", "
    | none => "    "
  "  " ++ padded 32 (short ++ "--" ++ flag.long ++ flag.valueName) ++ flag.purpose

def Verb.line (verb : Verb) : String :=
  "  " ++ padded 10 verb.name ++ verb.purpose

def usageLine (verb : Option Verb) : String :=
  match verb with
  | none => "Usage: " ++ programName ++ " <COMMAND>"
  | some verb =>
      "Usage: " ++ programName ++ " " ++ verb.name ++ " [OPTIONS]" ++
        (if verb.takesText then " [TEXT]" else "")

def helpText (verb : Option Verb) : String :=
  "\n".intercalate (match verb with
    | none => [usageLine none, "", "Commands:"] ++ Verb.all.map Verb.line
    | some verb =>
        [verb.purpose, "", usageLine (some verb), "", "Options:"] ++ verb.flags.map Flag.line)

def versionText : String :=
  programName ++ " " ++ programVersion

def Refusal.message : Refusal → String
  | .noArguments => helpText none
  | .unknownCommand argument => "error: unrecognized command: " ++ argument
  | .unknownArgument argument => "error: unexpected argument: " ++ argument
  | .missingValue flag => "error: a value is required for --" ++ flag.long
  | .malformedValue flag value => "error: invalid value for --" ++ flag.long ++ ": " ++ value
  | .needlessValue argument value => "error: unexpected value for " ++ argument ++ ": " ++ value
  | .repeated flag => "error: --" ++ flag.long ++ " cannot be given more than once"
  | .missing flag => "error: --" ++ flag.long ++ " is required"
  | .help verb => helpText verb
  | .version => versionText

end ClassExpr.CommandLine
