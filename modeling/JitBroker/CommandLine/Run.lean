import JitBroker.CommandLine
import JitBroker.Config.Document
import JitBroker.Directive.File
import JitBroker.Directive.Stack
import JitBroker.Simulation.Report

/-!
# Running commands

A command reads files, prints, and may fail after it has printed something. Nothing else is known
of the machine but the number of its processors.
-/

namespace JitBroker.CommandLine

/-- What a command can see. -/
structure Surroundings where
  /-- The text of a file, if it can be read. -/
  file? : String → Option String
  /-- The number of processors. -/
  processors : Nat
  /-- Where random numbers begin if the command does not say. -/
  seed : UInt64

/-- Why a command fails. -/
inductive Failure where
  /-- A configuration could not be read, or has a fault. -/
  | loading (path : String)
  /-- A file could not be read. -/
  | reading (path : String)
  /-- A file of directives has a fault. -/
  | parsing (path : String)
  /-- The configuration has a fault. -/
  | config (fault : ConfigFault)
  /-- A number is too great for the document that is printed. -/
  | unwritable
  /-- The share of requests that wait is no share. -/
  | ratio (x : Float)
  /-- There are no methods or no threads. -/
  | emptyWorkload
  /-- There are no compilers of the name. -/
  | unknownCompiler (name : String)
  /-- The name of a method has no class. -/
  | noClass (name : String)
  /-- The simulation failed. -/
  | simulation (fault : SimulationFault)

/-- The text of a failure. -/
def Failure.message : Failure → String
  | .loading path => "loading " ++ path
  | .reading path => "reading " ++ path
  | .parsing path => "parsing " ++ path
  | .config fault => fault.message
  | .unwritable => "number out of range"
  | .ratio x => "--blocking-ratio must be between 0 and 1, got " ++ realText x
  | .emptyWorkload => "--methods and --threads must be non-zero"
  | .unknownCompiler name => "unknown compiler '" ++ name ++ "', expected c1, c2 or external"
  | .noClass name => "expected Class::method, got '" ++ name ++ "'"
  | .simulation fault => fault.message

/-- What a command has printed, and how it ended. -/
structure Printout where
  /-- What it has printed. -/
  output : String
  /-- Why it failed, if it did. -/
  failure : Option Failure := none

namespace Printout

/-- The printout of a command that may have failed before it printed anything. -/
def ofExcept : Except Failure String → Printout
  | .ok output => { output := output }
  | .error f => { output := "", failure := some f }

/-- The printout with a text before it. -/
def after (first : String) (p : Printout) : Printout := { p with output := first ++ p.output }

end Printout

/-- The configuration in a file, or the standard one. -/
def configFor (s : Surroundings) : Option String → Except Failure Config
  | none => .ok (.standard s.processors)
  | some path =>
    match s.file? path with
    | none => .error (.loading path)
    | some text => (Config.ofText s.processors text).mapError fun _ => .loading path

/-- A new stack with the directives in a file, and how many sets there are in it. -/
def directivesIn (s : Surroundings) (path : String) : Except Failure (Nat × DirectiveStack) :=
  match s.file? path with
  | none => .error (.reading path)
  | some text => (DirectiveStack.new.pushText Json.ofText? text).mapError fun _ => .parsing path

/-! ### Commands -/

/-- The files that a command reads. -/
def Command.files : Command → List String
  | .showText _ => []
  | .simulate c d _ _ => c.toList ++ d.toList
  | .config path _ => path.toList
  | .directives file _ _ => [file]

/-- Prints or checks a configuration. -/
def runConfig (s : Surroundings) (path : Option String) (check : Bool) : Except Failure String := do
  let c ← configFor s path
  c.validate.mapError .config
  if check then
    return path.getD "defaults"
      ++ s!": ok ({c.tiers.length} tiers, {c.enabledTiers.length} enabled)\n"
  else
    let (cheap, expensive) := defaultWorkerCounts s.processors
    match c.toText? with
    | some text =>
      return s!"# {s.processors} CPUs: default worker counts c1={cheap} c2={expensive}\n" ++ text
    | none => throw .unwritable

/-- Shows the directive for a method and the compilers of a name. -/
def showDirective (stack : DirectiveStack) (name compiler : String) : Except Failure String := do
  match CompilerKind.ofName? compiler.toLower, splitAtColons name.toList with
  | none, _ => throw (.unknownCompiler compiler)
  | some _, none => throw (.noClass name)
  | some kind, some (className, method) =>
    let directive := stack.lookup (String.ofList className) (String.ofList method) kind
    return "\n" ++ name ++ " (" ++ kind.name ++ "):\n" ++ directive.toJson.pretty ++ "\n"

/-- Lists directives, and shows the one for a method. -/
def runDirectives (s : Surroundings) (file : String) (method : Option String) (compiler : String) :
    Printout :=
  match directivesIn s file with
  | .error f => .ofExcept (.error f)
  | .ok (count, stack) =>
    let listing := s!"{count} directive set(s) in {file}\n" ++ stack.listing
    match method with
    | some name => Printout.after listing (.ofExcept (showDirective stack name compiler))
    | none => { output := listing }

/-- Runs a workload. -/
def runSimulation (s : Surroundings) (config directives : Option String) (w : Workload)
    (asJson : Bool) : Except Failure String := do
  unless 0.0 ≤ w.blockingRatio ∧ w.blockingRatio ≤ 1.0 do throw (.ratio w.blockingRatio)
  if w.methods = 0 ∨ w.threads = 0 then throw .emptyWorkload
  let c ← configFor s config
  let stack ← match directives with
    | some path => (directivesIn s path).map (·.2)
    | none => pure .new
  let simulation ← (w.run c stack).mapError .simulation
  return if asJson then simulation.toJson.normalize.pretty ++ "\n" else simulation.text

/-- Runs a command. -/
def run (s : Surroundings) : Command → Printout
  | .showText text => { output := text }
  | .config path check => .ofExcept (runConfig s path check)
  | .directives file method compiler => runDirectives s file method compiler
  | .simulate config directives w asJson => .ofExcept (runSimulation s config directives w asJson)

/-- How the program ends. -/
inductive Ending where
  /-- A command was run. -/
  | done (p : Printout)
  /-- The arguments were refused. -/
  | refused (f : ArgumentFault)

/-- The exit status: zero after success, one after a failure, two if the arguments are refused. -/
def Ending.status : Ending → UInt8
  | .done p => if p.failure.isSome then 1 else 0
  | .refused _ => 2

/-- Runs the program with its arguments. -/
def start (s : Surroundings) (arguments : List String) : Ending :=
  match commandOfArguments s.seed arguments with
  | .ok command => .done (run s command)
  | .error fault => .refused fault

end JitBroker.CommandLine
