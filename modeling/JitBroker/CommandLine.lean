import JitBroker.CommandLine.Grammar
import JitBroker.CommandLine.Number
import JitBroker.Simulation.Workload
import JitBroker.Text.Fixed

/-!
# The command line

The program `cbroker` tries a broker out. It has three commands:

* `simulate` runs a made-up workload against stub back-ends and prints statistics;
* `config` prints or checks a configuration;
* `directives` lists a file of directives, and shows what applies to a method.

Every command has the option `--verbose`, which may be repeated and changes nothing about what is
printed, and `--help`.
-/

namespace JitBroker

namespace CommandLine

/-- What is to be done. -/
inductive Command where
  /-- Print a text. -/
  | showText (text : String)
  /-- Run a workload with a configuration and directives out of files. -/
  | simulate (config directives : Option String) (workload : Workload) (asJson : Bool)
  /-- Print or check a configuration. -/
  | config (path : Option String) (check : Bool)
  /-- List directives, and show the one for a method and the compilers of a name. -/
  | directives (file : String) (method : Option String) (compiler : String)
  deriving Inhabited

/-! ### Options -/

/-- The name of a file. -/
def fileForm (name : String) : ValueForm := { name := name, accepts := fun s => !s.isEmpty }

/-- A count. -/
def countForm (name : String) (default : Option String := none) : ValueForm :=
  { name := name, accepts := fun s => (count? s).isSome, default := default }

/-- A real number. -/
def realForm (name : String) (default : Option String := none) : ValueForm :=
  { name := name, accepts := fun s => (real? s).isSome, default := default }

/-- Any text. -/
def textForm (name : String) (default : Option String := none) : ValueForm :=
  { name := name, accepts := fun _ => true, default := default }

/-- The option that raises the level of the log. -/
def verboseOption : OptionSpec where
  name := "verbose"
  letter := some 'v'
  repeatable := true
  help := "Raise log verbosity (-v info, -vv debug, -vvv trace)"

/-- What is known of a command. -/
structure CommandSpec where
  /-- Its name. -/
  name : String
  /-- What it does. -/
  about : String
  /-- Its options, in the order in which a summary shows them. -/
  options : List OptionSpec
  /-- Its operand. -/
  operand : Option OperandSpec := none

/-- The command that runs a workload. -/
def simulateSpec : CommandSpec where
  name := "simulate"
  about := "Run a synthetic multi-threaded compile workload and print statistics"
  options := [
    { name := "config", letter := some 'c', value := some (fileForm "CONFIG")
      help := "Broker configuration (TOML); built-in defaults when omitted" },
    verboseOption,
    { name := "directives", letter := some 'd', value := some (fileForm "DIRECTIVES")
      help := "Directive file (JSON) pushed before the run" },
    { name := "methods", letter := some 'm', value := some (countForm "METHODS" (some "200"))
      help := "Distinct methods in the workload" },
    { name := "threads", letter := some 't', value := some (countForm "THREADS" (some "4"))
      help := "Application threads issuing requests" },
    { name := "requests", letter := some 'r', value := some (countForm "REQUESTS" (some "500"))
      help := "Requests per application thread" },
    { name := "blocking-ratio", value := some (realForm "BLOCKING_RATIO" (some "0.05"))
      help := "Share of requests that block, 0.0 to 1.0" },
    { name := "compile-us", value := some (countForm "COMPILE_US" (some "200"))
      help := "Simulated compile time of the cheapest tier, in microseconds" },
    { name := "restore-cycle"
      help := "Decompile part of the code inside a record window and replay it" },
    { name := "seed", value := some (countForm "SEED"), help := "Random seed" },
    { name := "json", help := "Print statistics as JSON" },
    helpOption]

/-- The command that prints or checks a configuration. -/
def configSpec : CommandSpec where
  name := "config"
  about := "Print the effective configuration, or validate a file"
  options := [{ name := "check", help := "Only validate" }, verboseOption, helpOption]
  operand := some { name := "PATH", required := false, help := "Configuration file (TOML)" }

/-- The command that lists directives. -/
def directivesSpec : CommandSpec where
  name := "directives"
  about := "Parse a directive file and show what applies to a method"
  options := [
    { name := "method", letter := some 'm', value := some (textForm "METHOD")
      help := "Method to look up, as `Class::method`" },
    verboseOption,
    { name := "compiler", value := some (textForm "COMPILER" (some "c2"))
      help := "Compiler whose directive is shown (c1, c2, external)" },
    helpOption]
  operand := some { name := "FILE", required := true, help := "Directive file (JSON)" }

/-- The command that shows help. -/
def helpSpec : CommandSpec where
  name := "help"
  about := "Print this message or the help of the given subcommand(s)"
  options := []
  operand := some {
    name := "COMMAND", required := false, several := true
    help := "Print help for the subcommand(s)" }

/-- The commands that do something. -/
def commands : List CommandSpec := [simulateSpec, configSpec, directivesSpec]

/-- The options that stand before a command. -/
def generalOptions : List OptionSpec := [verboseOption, helpOption, versionOption]

/-! ### Help -/

/-- An option as a summary shows it. -/
def OptionSpec.summary (o : OptionSpec) : String :=
  (match o.letter with
    | some c => "-" ++ String.singleton c ++ ", "
    | none => "    ")
  ++ o.shown ++ if o.repeatable then "..." else ""

/-- What a summary says of an option. -/
def OptionSpec.explanation (o : OptionSpec) : String :=
  o.help ++ match o.value.bind (·.default) with
    | some value => " [default: " ++ value ++ "]"
    | none => ""

/-- Lines of two columns. If the first column takes much of the room and some explanation does not
fit beside it, every explanation stands on a line of its own. -/
def columns (rows : List (String × String)) : String :=
  let width := rows.foldl (fun w row => max w row.1.length) 0
  let taken := width + 8
  let crowded := decide (40 < taken) && rows.any fun row => decide (100 < taken + row.2.length)
  String.join (rows.map fun row =>
    if crowded then "  " ++ row.1 ++ "\n          " ++ row.2 ++ "\n"
    else "  " ++ Text.toLeft width row.1 ++ "  " ++ row.2 ++ "\n")

/-- The options of a summary. -/
def optionLines (options : List OptionSpec) : String :=
  columns (options.map fun o => (OptionSpec.summary o, OptionSpec.explanation o))

/-- The operand in a line of usage. -/
def OperandSpec.shown (o : OperandSpec) : String :=
  (if o.required then "<" ++ o.name ++ ">" else "[" ++ o.name ++ "]")
    ++ if o.several then "..." else ""

/-- The sections of a summary: the operand and the options, as far as there are any. -/
def CommandSpec.sections (c : CommandSpec) : List String :=
  (c.operand.toList.map fun o => "Arguments:\n" ++ columns [(OperandSpec.shown o, o.help)])
    ++ if c.options.isEmpty then [] else ["Options:\n" ++ optionLines c.options]

/-- The summary of a command. -/
def CommandSpec.summary (c : CommandSpec) : String :=
  c.about ++ "\n\nUsage: cbroker " ++ c.name ++ (if c.options.isEmpty then "" else " [OPTIONS]")
    ++ String.join (c.operand.toList.map fun o => " " ++ OperandSpec.shown o) ++ "\n\n"
    ++ "\n".intercalate (CommandSpec.sections c)

/-- The summary of the program. -/
def summary : String :=
  "JIT compilation broker driver\n\nUsage: cbroker [OPTIONS] <COMMAND>\n\nCommands:\n"
    ++ columns ((commands ++ [helpSpec]).map fun c => (c.name, c.about))
    ++ "\nOptions:\n" ++ optionLines generalOptions

/-- The name and the version of the program. -/
def versionText : String := "cbroker 0.1.0\n"

/-! ### Reading -/

/-- The count that an option was given, or a default. -/
def countOf (r : Reading) (name : String) (default : UInt64) : UInt64 :=
  ((r.value? name).bind count?).getD default

/-- The workload that options describe; without a seed among them the given one counts. -/
def workloadOf (seed : UInt64) (r : Reading) : Workload where
  methods := (countOf r "methods" 200).toNat
  threads := (countOf r "threads" 4).toNat
  requests := (countOf r "requests" 500).toNat
  blockingRatio := ((r.value? "blocking-ratio").bind real?).getD 0.05
  compileTime := countOf r "compile-us" 200
  restores := r.has "restore-cycle"
  seed := countOf r "seed" seed

/-- The command that its name and what was read for it stand for. -/
def commandOf (seed : UInt64) (name : String) (r : Reading) : Command :=
  match name with
  | "simulate" =>
    .simulate (r.value? "config") (r.value? "directives") (workloadOf seed r) (r.has "json")
  | "config" => .config r.operand (r.has "check")
  | _ =>
    .directives (r.operand.getD "") (r.value? "method") ((r.value? "compiler").getD "c2")

/-- Ends the reading of arguments with a command, a text that was asked for, or a fault. -/
def ended (help : String) : Except ReadingEnd Command → Except ArgumentFault Command
  | .ok c => .ok c
  | .error (.fault f) => .error f
  | .error .help => .ok (.showText help)
  | .error .version => .ok (.showText versionText)

/-- Reads what follows the name of a command. -/
def commandWith (seed : UInt64) (c : CommandSpec) (arguments : List String) :
    Except ArgumentFault Command :=
  ended (CommandSpec.summary c)
    ((Reading.ofArguments c.options c.operand arguments).map (commandOf seed c.name))

/-- Reads what follows the request for help. -/
def helpFor : List String → Except ArgumentFault Command
  | [] => .ok (.showText summary)
  | [name] =>
    match (commands ++ [helpSpec]).find? (·.name == name) with
    | some c => .ok (.showText (CommandSpec.summary c))
    | none => .error (.unknownCommand name)
  | _ :: name :: _ => .error (.unknownCommand name)

/-- How an argument that stands before a command ends the reading, if it does: it must be a general
option. -/
def generalEnd? (text : String) : Option ReadingEnd :=
  let reading := match text.toList with
    | '-' :: '-' :: name => Reading.takeLong generalOptions {} name
    | '-' :: c :: more => Reading.takeLetters generalOptions {} (c :: more)
    | _ => .error (.fault (.unknownCommand text))
  match reading with
  | .ok _ => none
  | .error e => some e

/-- Reads the arguments of the program. -/
def commandOfArguments (seed : UInt64) : List String → Except ArgumentFault Command
  | [] => .error .missingCommand
  | text :: rest =>
    match commands.find? (·.name == text) with
    | some c => commandWith seed c rest
    | none =>
      if text = helpSpec.name then helpFor rest
      else if text = "--" then .error ((rest.head?.map .unexpected).getD .missingCommand)
      else
        match generalEnd? text with
        | some e => ended summary (.error e)
        | none => commandOfArguments seed rest

end CommandLine

end JitBroker
