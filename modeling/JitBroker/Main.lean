import JitBroker.CommandLine.Run

/-!
# The program

Runs the command line with the files and the processors of the machine it runs on.
-/

namespace JitBroker.Main

/-- The text of a file, if it can be read. -/
def readFile? (path : String) : IO (Option String) := do
  try
    return some (← IO.FS.readFile path)
  catch _ => return none

/-- The number of processors. -/
def processorCount : IO Nat := do
  match ← readFile? "/proc/cpuinfo" with
  | some text => return max 1 ((text.splitOn "\n").filter (·.startsWith "processor")).length
  | none => return 1

/-- The files that can be read, with their texts. -/
def readFiles (paths : List String) : IO (List (String × String)) := do
  let texts ← paths.mapM fun path => do return (← readFile? path).map fun text => (path, text)
  return texts.filterMap id

/-- Prints what a command has printed, and why it failed. -/
def display (p : JitBroker.CommandLine.Printout) : IO Unit := do
  IO.print p.output
  match p.failure with
  | some f => IO.eprintln ("Error: " ++ f.message)
  | none => return

end JitBroker.Main

open JitBroker.Main JitBroker.CommandLine in
/-- Runs the program. -/
def main (arguments : List String) : IO UInt32 := do
  let seed := UInt64.ofNat (← IO.rand 0 0x7FFFFFFFFFFFFFFF)
  match commandOfArguments seed arguments with
  | .error f =>
    IO.eprintln ("error: " ++ f.message)
    return 2
  | .ok command =>
    let files ← readFiles command.files
    let p := run {
      file? := fun path => files.lookup path
      processors := ← processorCount
      seed := seed } command
    display p
    return if p.failure.isSome then 1 else 0
