set_option autoImplicit false

/-! The commands of the command line, the flags that each of them takes, and what flags look
like. -/

namespace ClassExpr.CommandLine

inductive Verb where
  | spread
  | hover
  | suggest
  | check
deriving Repr, DecidableEq

inductive Arity where
  | nothing
  | oneValue
  | someValues
  | anyValues
deriving Repr, DecidableEq

inductive Flag where
  | input
  | exclude
  | output
  | jobs
  | separator
  | config
  | position
  | pretty
  | verbose
  | help
deriving Repr, DecidableEq

namespace Flag

def short? : Flag → Option Char
  | .input => some 'i'
  | .exclude => some 'e'
  | .output => some 'o'
  | .jobs => some 'j'
  | .separator => some 's'
  | .config => some 'c'
  | .position => some 'p'
  | .pretty => none
  | .verbose => some 'v'
  | .help => some 'h'

def long : Flag → String
  | .input => "input"
  | .exclude => "exclude"
  | .output => "output"
  | .jobs => "jobs"
  | .separator => "separator"
  | .config => "config"
  | .position => "position"
  | .pretty => "pretty"
  | .verbose => "verbose"
  | .help => "help"

def arity : Flag → Arity
  | .input => .someValues
  | .exclude => .anyValues
  | .output | .jobs | .separator | .config | .position => .oneValue
  | .pretty | .verbose | .help => .nothing

/-- Whether the flag may be given again; then its values add up. -/
def isRepeatable (flag : Flag) : Bool :=
  flag.arity == .someValues || flag.arity == .anyValues

def isNumber : Flag → Bool
  | .jobs | .position => true
  | _ => false

def isPath : Flag → Bool
  | .output | .config => true
  | _ => false

def valueName : Flag → String
  | .input | .exclude => " <PATTERN>..."
  | .output | .config => " <PATH>"
  | .jobs => " <NUM>"
  | .separator => " <SEP>"
  | .position => " <OFFSET>"
  | .pretty | .verbose | .help => ""

def purpose : Flag → String
  | .input => "Patterns of the files to check"
  | .exclude => "Patterns of files to pass over"
  | .output => "Where to put the report instead of printing it"
  | .jobs => "How many files to read at a time"
  | .separator => "What stands between a variant and its body"
  | .config => "A file of settings (.yaml, .yml or .json)"
  | .position => "A byte offset into the expression"
  | .pretty => "Lay out the answer"
  | .verbose => "Say more about what is done"
  | .help => "Print help"

end Flag

namespace Verb

def all : List Verb :=
  [.spread, .hover, .suggest, .check]

def name : Verb → String
  | .spread => "spread"
  | .hover => "hover"
  | .suggest => "suggest"
  | .check => "check"

def ofName? (name : String) : Option Verb :=
  all.find? (fun verb => verb.name == name)

def purpose : Verb → String
  | .spread => "Flatten an expression into items and structural faults"
  | .hover => "Say what is strictly under an offset"
  | .suggest => "Say what can be completed at an offset"
  | .check => "Check files for what is broken, empty or not recognised"

def flags : Verb → List Flag
  | .spread => [.separator, .config, .pretty, .verbose, .help]
  | .hover | .suggest => [.position, .separator, .config, .pretty, .verbose, .help]
  | .check => [.input, .exclude, .output, .jobs, .separator, .config, .verbose, .help]

def required : Verb → List Flag
  | .spread => []
  | .hover | .suggest => [.position]
  | .check => [.input]

def takesText : Verb → Bool
  | .check => false
  | _ => true

def ofShort? (verb : Verb) (c : Char) : Option Flag :=
  verb.flags.find? (fun flag => flag.short? == some c)

def ofLong? (verb : Verb) (name : String) : Option Flag :=
  verb.flags.find? (fun flag => flag.long == name)

end Verb

inductive Look where
  /-- Two dashes, after which no argument is a flag. -/
  | escape
  | long (name : String) (value : Option String)
  /-- One dash and at least one more character. -/
  | short (letters : List Char)
  | word
deriving Repr, DecidableEq

def splitValue (cs : List Char) : String × Option String :=
  let name := cs.takeWhile (· != '=')
  match cs.drop name.length with
  | [] => (String.ofList name, none)
  | _ :: value => (String.ofList name, some (String.ofList value))

def Look.ofArgument (argument : String) : Look :=
  match argument.toList with
  | ['-', '-'] => .escape
  | '-' :: '-' :: cs => let (name, value) := splitValue cs; .long name value
  | '-' :: c :: cs => .short (c :: cs)
  | _ => .word

end ClassExpr.CommandLine
