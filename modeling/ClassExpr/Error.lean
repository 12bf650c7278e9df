import ClassExpr.Text.Quoted

set_option autoImplicit false

/-! What can go wrong outside of reading an expression, which never fails: settings, files,
patterns and arguments. An error keeps its cause; the wording is in `Error.message` and in the
messages of the causes. -/

namespace ClassExpr

inductive FileFault where
  | notFound
  | alreadyExists
  | notDirectory
  | isDirectory
  | busy
  | notUtf8
  /-- Any other refusal, in the words of the one who refuses. -/
  | refused (words : String)
deriving Repr, DecidableEq

def FileFault.message : FileFault → String
  | .notFound => "No such file or directory (os error 2)"
  | .alreadyExists => "File exists (os error 17)"
  | .notDirectory => "Not a directory (os error 20)"
  | .isDirectory => "Is a directory (os error 21)"
  | .busy => "Device or resource busy (os error 16)"
  | .notUtf8 => "stream did not contain valid UTF-8"
  | .refused words => words

inductive SeparatorFault where
  | empty
  | tooLong
  | blank
  | reserved
deriving Repr, DecidableEq

def SeparatorFault.message : SeparatorFault → String
  | .empty => "separator must not be empty"
  | .tooLong => "separator must be at most 8 characters"
  | .blank => "separator must not contain whitespace"
  | .reserved => "separator must not contain any of ( ) [ ] !"

inductive SettingsFault where
  | depthTooSmall
  | depthTooGreat
  | unsupportedFormat (path : String)
  | unreadable (path : String) (cause : FileFault)
  | malformedJson
deriving Repr, DecidableEq

def greatestDepth : Nat := 256

def SettingsFault.message : SettingsFault → String
  | .depthTooSmall => "max_depth must be at least 1"
  | .depthTooGreat => "max_depth must be at most " ++ toString greatestDepth
  | .unsupportedFormat path =>
      "Unsupported config file format: " ++ path ++ ". Use .yaml, .yml, or .json"
  | .unreadable path cause => "Failed to read config file " ++ path ++ ": " ++ cause.message
  | .malformedJson => "Failed to parse JSON config: not an object of settings"

inductive ArgumentFault where
  | noInput
  | noJobs
deriving Repr, DecidableEq

def ArgumentFault.message : ArgumentFault → String
  | .noInput => "At least one input pattern must be provided"
  | .noJobs => "Number of jobs must be at least 1"

inductive Error where
  | file (cause : FileFault)
  | pattern (text : String)
  | malformedReport
  | malformedYaml
  | noFiles
  | separator (text : String) (cause : SeparatorFault)
  | settings (cause : SettingsFault)
  | output (path : String) (cause : FileFault)
  | arguments (cause : ArgumentFault)
  | input (cause : FileFault)
deriving Repr, DecidableEq

def Error.message : Error → String
  | .file cause => "IO error: " ++ cause.message
  | .pattern text => "Pattern error: invalid pattern " ++ Text.quoted text
  | .malformedReport => "JSON serialization error: not a file report"
  | .malformedYaml => "YAML parsing error: not a mapping of settings"
  | .noFiles => "No files found matching the provided patterns"
  | .separator text cause => "Invalid separator " ++ Text.quoted text ++ ": " ++ cause.message
  | .settings cause => "Configuration error: " ++ cause.message
  | .output path cause => "Failed to write output to " ++ path ++ ": " ++ cause.message
  | .arguments cause => "Invalid input: " ++ cause.message
  | .input cause => "Input error: Failed to read from stdin: " ++ cause.message

end ClassExpr
