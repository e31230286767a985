import JitBroker.Broker.Action

/-!
# Completing tasks

A task is completed by the worker that compiled it, or as stale by whoever took it off its queue.
To complete it is one section: the task becomes complete, and if a requester still waits for the
result, the requester is woken and will free the task. If none does, the one who completed the task
frees it.
-/

namespace JitBroker.TaskStep

/-- Runs a step that ends a task. -/
def run (b : Broker) : TaskStep → Option Turn
  | .unmark t =>
    match b.tasks[t]? with
    | none => Turn.fault b
    | some task => Turn.go (b.modifyMethod task.method fun m => { m with queued := false }) []
  | .spoil t => Turn.go (b.modifyTask t (·.fail .stale)) []
  | .count => Turn.go { b with stats := { b.stats with stale := b.stats.stale + 1 } } []
  | .complete t who =>
    match b.tasks[t]? with
    | none => Turn.fault b
    | some task =>
      if task.complete then Turn.fault b
      -- Whoever is last to look at the task frees it.
      else if task.blocking && task.awaited then
        Turn.go (b.modifyTask t fun x => { x with complete := true }.ring) []
      else Turn.go (b.modifyTask t fun x => { x with complete := true }) [.task (.free t who)]
  | .free t who =>
    match b.tasks[t]? with
    | none => Turn.fault b
    | some task =>
      if !task.complete || task.freed then Turn.fault b
      else
        Turn.go
          { b.modifyTask t fun x => { x with freed := true } with pool := b.pool.free who } []
  | .wake t => Turn.go (b.modifyTask t Task.ring) []

end JitBroker.TaskStep
