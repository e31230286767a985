/-!
# Arguments and options

A command is called with a list of arguments. Some of them are options: `--name` and `-n` are
followed by a value if the option takes one, which may also be attached, as in `--name=value`,
`-n=value` and `-nvalue`; flags of one letter may be joined, as in `-abc`. After `--` there are no
options any more. What is no option is the operand of the command, of which there is at most one.

* An option is given at most once, unless it is meant to be repeated.
* The value of an option must not look like an option, unless it is attached.
* Arguments are read from left to right, and the first one that does not fit is the fault. A request
  for help ends the reading where it stands.
-/

namespace JitBroker.CommandLine

/-- A form that values have. -/
structure ValueForm where
  /-- How the value is called in a summary. -/
  name : String
  /-- Whether a text is such a value. -/
  accepts : String → Bool
  /-- The value that counts if the option is not given, as it is shown. -/
  default : Option String := none

/-- An option. -/
structure OptionSpec where
  /-- The long name. -/
  name : String
  /-- The letter. -/
  letter : Option Char := none
  /-- The value it takes, unless it is a flag. -/
  value : Option ValueForm := none
  /-- Whether it may be given again. -/
  repeatable : Bool := false
  /-- What it does. -/
  help : String

/-- The operand of a command. -/
structure OperandSpec where
  /-- How it is called in a summary. -/
  name : String
  /-- Whether it must be given. -/
  required : Bool
  /-- Whether there may be several. -/
  several : Bool := false
  /-- What it is. -/
  help : String

/-- Why arguments are refused. -/
inductive ArgumentFault where
  /-- There is no such option or operand. -/
  | unexpected (argument : String)
  /-- The option takes no value. -/
  | unwantedValue (option value : String)
  /-- The option lacks its value. -/
  | missingValue (option : String)
  /-- The value does not fit. -/
  | invalidValue (name value : String)
  /-- The option was given before. -/
  | repeated (option : String)
  /-- The operand is missing. -/
  | missingOperand (name : String)
  /-- There is no such command. -/
  | unknownCommand (name : String)
  /-- No command is given. -/
  | missingCommand
  deriving Repr, DecidableEq

/-- The text of a fault. -/
def ArgumentFault.message : ArgumentFault → String
  | .unexpected argument => "unexpected argument '" ++ argument ++ "' found"
  | .unwantedValue option value =>
    "unexpected value '" ++ value ++ "' for '" ++ option ++ "' found; no more were expected"
  | .missingValue option => "a value is required for '" ++ option ++ "' but none was supplied"
  | .invalidValue name value => "invalid value '" ++ value ++ "' for '" ++ name ++ "'"
  | .repeated option => "the argument '" ++ option ++ "' cannot be used multiple times"
  | .missingOperand name => "the following required arguments were not provided: <" ++ name ++ ">"
  | .unknownCommand name => "unrecognized subcommand '" ++ name ++ "'"
  | .missingCommand => "'cbroker' requires a subcommand but one was not provided"

/-- Why the reading of arguments ended early. -/
inductive ReadingEnd where
  /-- The arguments do not fit. -/
  | fault (f : ArgumentFault)
  /-- Help was asked for. -/
  | help
  /-- The version was asked for. -/
  | version
  deriving Repr, DecidableEq

namespace OptionSpec

/-- The option as it is written in full. -/
def shown (o : OptionSpec) : String :=
  "--" ++ o.name ++ match o.value with
    | some form => " <" ++ form.name ++ ">"
    | none => ""

end OptionSpec

/-- The option that asks for help. -/
def helpOption : OptionSpec := { name := "help", letter := some 'h', help := "Print help" }

/-- The option that asks for the version. -/
def versionOption : OptionSpec := { name := "version", letter := some 'V', help := "Print version" }

/-- What has been read of the arguments. -/
structure Reading where
  /-- The options given, with their values; a flag has an empty one. -/
  given : List (String × String) := []
  /-- The operand. -/
  operand : Option String := none
  /-- The option that waits for its value. -/
  pending : Option OptionSpec := none
  deriving Inhabited

namespace Reading

/-- The value that an option was given. -/
def value? (r : Reading) (name : String) : Option String := r.given.lookup name

/-- Whether an option was given. -/
def has (r : Reading) (name : String) : Bool := (r.value? name).isSome

/-- Refuses to go on while an option waits for its value. -/
def settled (r : Reading) : Except ReadingEnd Reading :=
  match r.pending with
  | some o => .error (.fault (.missingValue o.shown))
  | none => .ok r

/-- Gives an option its value. -/
def give (r : Reading) (o : OptionSpec) (value : String) : Except ReadingEnd Reading :=
  if r.has o.name && !o.repeatable then .error (.fault (.repeated o.shown))
  else
    match o.value with
    | some form =>
      if form.accepts value then
        .ok { r with given := r.given ++ [(o.name, value)], pending := none }
      else .error (.fault (.invalidValue o.shown value))
    | none => .ok { r with given := r.given ++ [(o.name, value)] }

/-- Takes an option that has no value, or whose value is still to come. -/
def takeBare (r : Reading) (o : OptionSpec) : Except ReadingEnd Reading := do
  let r ← r.settled
  match o.value with
  | some _ => return { r with pending := some o }
  | none =>
    if o.name = helpOption.name then throw .help
    else if o.name = versionOption.name then throw .version
    else r.give o ""

/-- Takes an option with a value attached. -/
def takeAttached (r : Reading) (o : OptionSpec) (value : String) : Except ReadingEnd Reading := do
  match o.value with
  | some _ => (← r.settled).give o value
  | none => throw (.fault (.unwantedValue o.shown value))

/-- Takes an argument that begins with two dashes, which are left out. -/
def takeLong (options : List OptionSpec) (r : Reading) (text : List Char) :
    Except ReadingEnd Reading :=
  let name := String.ofList (text.takeWhile (· != '='))
  match options.find? (·.name == name), text.dropWhile (· != '=') with
  | none, _ => .error (.fault (.unexpected ("--" ++ name)))
  | some o, _ :: value => r.takeAttached o (String.ofList value)
  | some o, [] => r.takeBare o

/-- Takes letters that follow a dash. -/
def takeLetters (options : List OptionSpec) (r : Reading) : List Char → Except ReadingEnd Reading
  | [] => .ok r
  | c :: rest =>
    match options.find? (·.letter == some c) with
    | none => .error (.fault (.unexpected ("-" ++ String.singleton c)))
    | some o =>
      match o.value, rest with
      | some _, '=' :: value => r.takeAttached o (String.ofList value)
      | some _, value :: more => r.takeAttached o (String.ofList (value :: more))
      | _, _ => do takeLetters options (← r.takeBare o) rest

/-- Takes an argument that is no option: the value of an option that waits for one, or else the
operand. After `--` it cannot be a value any more. -/
def takeWord (operand : Option OperandSpec) (closed : Bool) (r : Reading) (text : String) :
    Except ReadingEnd Reading := do
  match r.pending, closed with
  | some o, false => r.give o text
  | _, _ =>
    let r ← r.settled
    match operand, r.operand with
    | some spec, none =>
      if text.isEmpty then throw (.fault (.invalidValue spec.name text))
      else return { r with operand := some text }
    | _, _ => throw (.fault (.unexpected text))

/-- Takes the arguments that follow; `closed` says whether `--` has been read. -/
def takeAll (options : List OptionSpec) (operand : Option OperandSpec) (closed : Bool)
    (r : Reading) : List String → Except ReadingEnd Reading
  | [] => r.settled
  | text :: rest => do
    if closed then takeAll options operand true (← r.takeWord operand true text) rest
    else
      match text.toList with
      | ['-', '-'] => takeAll options operand true r rest
      | '-' :: '-' :: name => takeAll options operand false (← r.takeLong options name) rest
      | '-' :: c :: more =>
        takeAll options operand false (← r.takeLetters options (c :: more)) rest
      | _ => takeAll options operand false (← r.takeWord operand false text) rest

/-- Reads the arguments of a command. -/
def ofArguments (options : List OptionSpec) (operand : Option OperandSpec)
    (arguments : List String) : Except ReadingEnd Reading := do
  let r ← takeAll options operand false {} arguments
  match operand, r.operand with
  | some spec, none =>
    if spec.required then throw (.fault (.missingOperand spec.name)) else return r
  | _, _ => return r

end Reading

end JitBroker.CommandLine
