import JitBroker.Request
import JitBroker.Text.Quoted

/-!
# Compile tasks

A task is one request in flight. It is published to the queue of its tier, completed once, by a
worker or as stale, and freed once by whoever owns it then. Its result is written before it is
completed.

The handshake with a waiting requester consists of three fields, which are read and written
together: whether the task is complete, whether the requester still waits for the result, and a
bell. A requester that goes to sleep remembers the bell, and wakes when it has rung since.
-/

namespace JitBroker

/-- Numbers of tasks. -/
abbrev TaskId := Nat

/-- What a compile produced. -/
structure TaskResult where
  /-- Whether code was installed. -/
  success : Bool := false
  /-- Why the compile failed. -/
  failure : Option FailureReason := none
  /-- What the back-end says about trying again. -/
  retryMessage : Option String := none
  /-- The size of the code. -/
  totalSize : UInt64 := 0
  /-- The size of its instructions. -/
  instructionsSize : UInt64 := 0
  /-- The bytecodes that were inlined. -/
  inlinedBytecodes : UInt64 := 0
  /-- The scratch memory in use at the end. -/
  arenaBytes : UInt64 := 0
  deriving Repr, DecidableEq, Inhabited

/-- A compile task. -/
structure Task where
  /-- The compile number. -/
  compileId : UInt32
  /-- The method. -/
  method : MethodId
  /-- The bytecode index of the entry. -/
  entryBci : Int
  /-- The tier. -/
  tier : Tier
  /-- The count that set off the request. -/
  hot : UInt32
  /-- Why the code is wanted. -/
  reason : CompileReason
  /-- When the request was made. -/
  requestedAt : Nat
  /-- Whether the requester waits. -/
  blocking : Bool
  /-- The length of the queue when the task joined it, if that is recorded. -/
  queueDepth : Option Nat := none
  /-- Whether the class was found unloaded while the task was queued. -/
  unloaded : Bool := false
  /-- Whether the task was taken off its queue without being compiled. -/
  stale : Bool := false
  /-- Whether the result is published. -/
  complete : Bool := false
  /-- Whether the task was given back. -/
  freed : Bool := false
  /-- The result. -/
  result : TaskResult := {}
  /-- How many requesters wait. -/
  waiters : Nat := 0
  /-- Whether a requester will take the result. -/
  awaited : Bool
  /-- How often sleeping requesters were woken. -/
  bell : Nat := 0
  /-- The place in the list of the queue. -/
  slot : Option Nat := none
  deriving Repr, DecidableEq, Inhabited

namespace Task

/-- The task of a request, with the number drawn for it. -/
def ofRequest (r : Request) (id : UInt32) (blocking : Bool) (now : Nat) : Task where
  compileId := id
  method := r.method
  entryBci := r.bci
  tier := r.tier
  hot := r.hot
  reason := r.reason
  requestedAt := now
  blocking := blocking
  awaited := blocking

/-- Whether the compile is for an OSR entry. -/
def isOsr (t : Task) : Bool := t.entryBci != invocationEntry

/-- The task with sleeping requesters woken. -/
def ring (t : Task) : Task := { t with bell := t.bell + 1 }

/-- The task with a reason for its failure written. -/
def fail (t : Task) (reason : FailureReason) : Task :=
  { t with result := { t.result with success := false, failure := some reason } }

/-- A number in a field of the given width. -/
def padded (width : Nat) (text : String) : String :=
  String.ofList (List.replicate (width - text.length) ' ') ++ text

/-- The method, with the entry if it is no standard one. -/
def label (t : Task) (m : Method) : String :=
  if t.isOsr then m.fullName ++ s!" @ {t.entryBci}" else m.fullName

/-- The task as a line of a listing. -/
def line (t : Task) (m : Method) : String :=
  padded 7 (toString t.compileId) ++ " "
    ++ (if t.isOsr then "%" else " ") ++ (if t.blocking then "b" else " ")
    ++ (if m.isNative then "n" else " ") ++ " " ++ padded 2 (toString t.tier) ++ "  "
    ++ t.label m ++ s!" ({m.bytecodeSize} bytes)"

/-- The task in a word. -/
def summary (t : Task) (m : Method) : String :=
  s!"CompileTask \x7b compile_id: {t.compileId}, method: " ++ Text.quoted m.fullName
    ++ s!", entry_bci: {t.entryBci}, tier: {t.tier}, complete: {t.complete} \x7d"

end Task

end JitBroker
