import JitBroker.Queue.Selector
import JitBroker.Queue.TaskList
import JitBroker.Text.Quoted

/-!
# Compile queues

A queue holds the tasks of one tier in the order of their arrival. Its counters say how many tasks
ever came and went, and how many it held at most. Workers sleep on it until its bell has rung.

Whoever changes or looks at a queue holds its lock. A requester keeps the lock over several steps,
from its last look at the method to the arrival of the task.
-/

namespace JitBroker

/-- Numbers of threads. -/
abbrev ThreadId := Nat

/-- The queue of a tier. -/
structure CompileQueue where
  /-- The name. -/
  name : String
  /-- The tier. -/
  tier : Tier
  /-- The policy. -/
  selector : Selector
  /-- The tasks. -/
  list : TaskList := .empty
  /-- The most tasks it ever held. -/
  peak : Nat := 0
  /-- The tasks that ever came. -/
  added : Nat := 0
  /-- The tasks that went. -/
  removed : Nat := 0
  /-- How often sleeping workers were woken. -/
  bell : Nat := 0
  /-- The thread that holds the lock. -/
  lock : Option ThreadId := none
  deriving Repr, DecidableEq, Inhabited

namespace CompileQueue

/-- An empty queue. -/
def new (name : String) (tier : Tier) (selector : Selector) : CompileQueue where
  name := name
  tier := tier
  selector := selector

/-- The queue of a configured tier. -/
def forTier (t : TierConfig) (selector : Selector) : CompileQueue :=
  new (t.compiler.title ++ " compile queue") t.level selector

/-- How many tasks are queued. -/
def size (q : CompileQueue) : Nat := q.list.size

/-- The queue in a word. -/
def summary (q : CompileQueue) : String :=
  "CompileQueue \x7b name: " ++ Text.quoted q.name ++ s!", tier: {q.tier}, size: {q.size} \x7d"

/-- The queue with the sleeping workers woken. -/
def ring (q : CompileQueue) : CompileQueue := { q with bell := q.bell + 1 }

/-- Whether a thread may take the lock. -/
def isFree (q : CompileQueue) : Bool := q.lock.isNone

/-- The queue with the lock taken. -/
def take (q : CompileQueue) (me : ThreadId) : CompileQueue := { q with lock := some me }

/-- The queue with the lock given back. -/
def giveBack (q : CompileQueue) : CompileQueue := { q with lock := none }

/-- Adds a task, wakes the workers, and tells the slot of the task. -/
def push (q : CompileQueue) (t : TaskId) : Nat × CompileQueue :=
  let (slot, list) := q.list.push t
  (slot, { q with
    list := list
    added := q.added + 1
    peak := max q.peak list.size
    bell := q.bell + 1 })

/-- Takes the task out of a slot. -/
def unlink? (q : CompileQueue) (slot : Nat) : Option (TaskId × CompileQueue) :=
  (q.list.unlink? slot).map fun (t, list) => (t, { q with list := list, removed := q.removed + 1 })

/-- Takes the tasks out of several slots. -/
def unlinkAll? (q : CompileQueue) : List Nat → Option (List TaskId × CompileQueue)
  | [] => some ([], q)
  | slot :: rest => do
    let (t, q) ← q.unlink? slot
    let (ts, q) ← q.unlinkAll? rest
    return (t :: ts, q)

end CompileQueue

end JitBroker
