import ClassExpr.Check.Run
import ClassExpr.CommandLine.Flag
import ClassExpr.Text.Numeral

set_option autoImplicit false

/-! Arguments and the commands they ask for. A flag waits for its values, and is judged when
something else begins: whether it has values, whether it was given before, and whether the values
are what they should be. An argument that is not known is refused before the flag that waits is
judged. -/

namespace ClassExpr.CommandLine

inductive Refusal where
  | noArguments
  | unknownCommand (argument : String)
  | unknownArgument (argument : String)
  | missingValue (flag : Flag)
  | malformedValue (flag : Flag) (value : String)
  | needlessValue (argument value : String)
  | repeated (flag : Flag)
  | missing (flag : Flag)
  /-- Help is asked for, on one command or on all. -/
  | help (verb : Option Verb)
  | version
deriving Repr, DecidableEq

structure QueryArguments where
  /-- The expression, unless it is to be read. -/
  text : Option String
  source : Settings.Source
  pretty : Bool
  verbose : Bool
deriving Repr, DecidableEq

inductive Command where
  | spread (query : QueryArguments)
  | hover (position : Nat) (query : QueryArguments)
  | suggest (position : Nat) (query : QueryArguments)
  | check (options : Check.Options) (verbose : Bool)
deriving Repr, DecidableEq

def Command.verbose : Command → Bool
  | .spread query => query.verbose
  | .hover _ query => query.verbose
  | .suggest _ query => query.verbose
  | .check _ verbose => verbose

/-! ### Reading arguments -/

/-- The flags that are complete with their values, and the one that still waits for some. -/
structure State where
  given : List (Flag × List String) := []
  /-- The flag that was begun last, and its values, last one first. -/
  waiting : Option (Flag × List String) := none
  /-- Whether the flag that waits takes the next argument for a value. -/
  isOpen : Bool := false
  /-- Whether the rest are no flags. -/
  escaped : Bool := false
  text : Option String := none
deriving Repr, DecidableEq

namespace State

def fault? (flag : Flag) (value : String) : Option Refusal :=
  if flag.isNumber && (Text.decimal? value).isNone then some (.malformedValue flag value)
  else if flag.isPath && value.isEmpty then some (.missingValue flag)
  else none

def give (state : State) (flag : Flag) (values : List String) : Except Refusal State :=
  if values.isEmpty && (flag.arity == .oneValue || flag.arity == .someValues) then
    .error (.missingValue flag)
  else if state.given.any (·.1 == flag) && !flag.isRepeatable then .error (.repeated flag)
  else
    match values.findSome? (fault? flag) with
    | some refusal => .error refusal
    | none => .ok { state with given := state.given ++ [(flag, values)] }

def settle (state : State) : Except Refusal State :=
  match state.waiting with
  | none => .ok state
  | some (flag, values) =>
      { state with waiting := none, isOpen := false }.give flag values.reverse

def begin (state : State) (verb : Verb) (flag : Flag) (value : Option String) :
    Except Refusal State := do
  let state ← state.settle
  match flag, flag.arity, value with
  | .help, _, _ => .error (.help (some verb))
  | _, .nothing, _ => state.give flag []
  | _, _, some value => state.give flag [value]
  | _, _, none => .ok { state with waiting := some (flag, []), isOpen := true }

/-- Takes flags that are written with one letter each. What follows a flag that takes a value is the
value; an equals sign before it does not count. -/
def letters (state : State) (verb : Verb) : List Char → Except Refusal State
  | [] => .ok state
  | c :: cs =>
      match verb.ofShort? c with
      | none => .error (.unknownArgument (String.ofList ['-', c]))
      | some flag =>
          if flag.arity == .nothing then do
            let state ← state.begin verb flag none
            letters state verb cs
          else
            match cs with
            | [] => state.begin verb flag none
            | '=' :: value => state.begin verb flag (some (String.ofList value))
            | value => state.begin verb flag (some (String.ofList value))

def long (state : State) (verb : Verb) (name : String) (value : Option String) :
    Except Refusal State :=
  match verb.ofLong? name, value with
  | none, _ => .error (.unknownArgument ("--" ++ name))
  | some flag, some value =>
      if flag.arity == .nothing then .error (.needlessValue ("--" ++ name) value)
      else state.begin verb flag (some value)
  | some flag, none => state.begin verb flag none

def word (state : State) (verb : Verb) (argument : String) : Except Refusal State :=
  match state.waiting, state.isOpen && !state.escaped with
  | some (flag, values), true =>
      .ok { state with waiting := some (flag, argument :: values), isOpen := flag.isRepeatable }
  | _, _ =>
      if !verb.takesText || state.text.isSome then .error (.unknownArgument argument)
      else do
        let state ← state.settle
        return { state with text := some argument }

def step (state : State) (verb : Verb) (argument : String) : Except Refusal State :=
  if state.escaped then state.word verb argument
  else
    match Look.ofArgument argument with
    | .escape => .ok { state with escaped := true }
    | .long name value => state.long verb name value
    | .short cs => state.letters verb cs
    | .word => state.word verb argument

/-! ### What was given -/

def values (state : State) (flag : Flag) : List String :=
  (state.given.filter (·.1 == flag)).flatMap (·.2)

def isGiven (state : State) (flag : Flag) : Bool :=
  state.given.any (·.1 == flag)

def value? (state : State) (flag : Flag) : Option String :=
  (state.values flag).head?

def number? (state : State) (flag : Flag) : Option Nat :=
  (state.value? flag).bind Text.decimal?

def source (state : State) : Settings.Source :=
  { separator := state.value? .separator, config := state.value? .config }

def query (state : State) : QueryArguments :=
  { text := state.text
    source := state.source
    pretty := state.isGiven .pretty
    verbose := state.isGiven .verbose }

def options (state : State) : Check.Options :=
  { input := state.values .input
    exclude := state.values .exclude
    output := state.value? .output
    jobs := state.number? .jobs
    source := state.source }

def command (state : State) (verb : Verb) : Except Refusal Command :=
  match verb.required.find? (fun flag => !state.isGiven flag) with
  | some flag => .error (.missing flag)
  | none =>
      let position := (state.number? .position).getD 0
      .ok (match verb with
        | .spread => .spread state.query
        | .hover => .hover position state.query
        | .suggest => .suggest position state.query
        | .check => .check state.options (state.isGiven .verbose))

end State

/-! ### Commands -/

namespace Command

def ofVerb (verb : Verb) (arguments : List String) : Except Refusal Command := do
  let start : State := {}
  let state ← arguments.foldlM (fun state argument => state.step verb argument) start
  (← state.settle).command verb

def helpName : String := "help"

def help : List String → Refusal
  | [] => .help none
  | [name] =>
      if name == helpName then .help none
      else
        match Verb.ofName? name with
        | some verb => .help (some verb)
        | none => .unknownCommand name
  | name :: next :: _ =>
      if name == helpName || (Verb.ofName? name).isSome then .unknownCommand next
      else .unknownCommand name

def refusal : List String → Refusal
  | [] => .noArguments
  | argument :: rest =>
      match Look.ofArgument argument with
      | .escape =>
          match rest with
          | [] => .noArguments
          | name :: _ =>
              if name == helpName || (Verb.ofName? name).isSome then .unknownArgument name
              else .unknownCommand name
      | .long name value =>
          if name != "help" && name != "version" then .unknownArgument argument
          else
            match value with
            | some value => .needlessValue ("--" ++ name) value
            | none => if name == "help" then .help none else .version
      | .short letters =>
          match letters.head? with
          | some 'h' => .help none
          | some 'V' => .version
          | _ => .unknownArgument argument
      | .word => if argument == helpName then help rest else .unknownCommand argument

def ofArguments (arguments : List String) : Except Refusal Command :=
  match arguments with
  | [] => .error .noArguments
  | name :: rest =>
      match Verb.ofName? name with
      | some verb => ofVerb verb rest
      | none => .error (refusal (name :: rest))

end Command

end ClassExpr.CommandLine
