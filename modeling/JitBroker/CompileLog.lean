import JitBroker.Task

/-!
# Compile logs

Each worker keeps a log of the compiles it began and finished. A log has a capacity; the oldest
entry makes room for a new one, and a log without capacity stays empty.
-/

namespace JitBroker

/-- What a log entry tells. -/
inductive LogEvent where
  /-- A compile has begun. -/
  | begin
  /-- A compile has produced code. -/
  | done
  /-- A compile has failed. -/
  | failure
  deriving Repr, DecidableEq, Inhabited

/-- The name used in reports. -/
def LogEvent.name : LogEvent → String
  | .begin => "begin"
  | .done => "done"
  | .failure => "failure"

/-- An entry of a log. -/
structure LogEntry where
  /-- The compile number. -/
  compileId : UInt32
  /-- The tier. -/
  tier : Tier
  /-- The method, with the entry if it is no standard one. -/
  method : String
  /-- What happened. -/
  event : LogEvent
  /-- The time the compile took, if it has finished. -/
  elapsed : Option Nat := none
  /-- The size of the code or the reason of the failure, if the compile has finished. -/
  detail : Option String := none
  deriving Repr, DecidableEq, Inhabited

/-- A log. -/
structure CompileLog where
  /-- The most entries it keeps. -/
  capacity : Nat
  /-- The entries, oldest first. -/
  entries : List LogEntry := []
  deriving Repr, DecidableEq, Inhabited

namespace CompileLog

/-- The log with one more entry. -/
def push (l : CompileLog) (e : LogEntry) : CompileLog :=
  { l with entries := (l.entries ++ [e]).drop (l.entries.length + 1 - l.capacity) }

/-- The log after a compile has begun. -/
def begin (l : CompileLog) (t : Task) (m : Method) : CompileLog :=
  l.push ⟨t.compileId, t.tier, t.label m, .begin, none, none⟩

/-- What the last entry of a compile tells of its result. -/
def detail (r : TaskResult) : String :=
  match r.failure with
  | some reason => reason.text
  | none => s!"{r.totalSize} bytes"

/-- The log after a compile has finished. -/
def finish (l : CompileLog) (t : Task) (m : Method) (r : TaskResult) (elapsed : Nat) :
    CompileLog :=
  l.push ⟨t.compileId, t.tier, t.label m, if r.success then .done else .failure, some elapsed,
    some (detail r)⟩

end CompileLog

end JitBroker
