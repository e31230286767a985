import JitBroker.Broker.Action

/-!
# Stopping, restarting and shutting down

* A full segment stops a running broker, or disables it if code is never evicted. A request or a
  decompilation at a tier whose segment has room lets a broker that was stopped in this way go on.
* Disabling is done by the first who asks for it. It takes every task off every queue and completes
  it as stale, wakes the workers, which then leave, and wakes the requesters of the tasks that are
  being compiled. Those requesters do not wait for the compile to end.
* Shutting down disables, and waits until every worker has left, unless a worker itself does it.

Decompiling detaches the code for an entry and a tier, gives back its space and records the event.
A replay closes the window of the recorder and requests what was recorded, one after the other.
-/

namespace JitBroker

namespace Broker

/-- Takes every task off a queue, as stale. -/
def drain? (b : Broker) (u : UnitId) (queue : CompileQueue) : Option (List TaskId × Broker) := do
  let (ts, queue) ← queue.unlinkAll? (queue.list.entries.map (·.1))
  let b := b.modifyQueue u fun _ => queue.ring
  let leave (b : Broker) (t : TaskId) :=
    b.modifyTask t fun x => { x with stale := true, slot := none }
  return (ts, ts.foldl leave b)

/-- The code that a decompilation would detach, and the broker without it. -/
def detach (b : Broker) (d : Decompilation) : Option InstalledCode × Broker :=
  match b.methods[d.method]? with
  | some m =>
    ((m.detach d.bci d.tier).1, b.modifyMethod d.method fun m => (m.detach d.bci d.tier).2)
  | none => (none, b)

end Broker

namespace ControlStep

/-- Goes on with other steps. -/
def next (b : Broker) (steps : List ControlStep) : Option Turn := Turn.go b (steps.map .control)

/-- Runs a step of control. -/
def run (me : Caller) (b : Broker) : ControlStep → Option Turn
  | .restart u => if b.jobs = .stoppedForCache then next b [.room u] else Turn.go b []
  | .room u =>
    match b.units[u]? with
    | none => Turn.fault b
    | some unit =>
      if b.cache.unallocated unit.config.blobKind < b.config.restartHeadroom then Turn.go b []
      else next b [.resume]
  | .resume =>
    if b.jobs = .stoppedForCache then next { b with jobs := .run } [.countRestart] else Turn.go b []
  | .countRestart =>
    Turn.go { b with stats := { b.stats with restarted := b.stats.restarted + 1 } } []
  | .full _ => next { b with stats := { b.stats with full := b.stats.full + 1 } } [.react]
  | .react =>
    if b.config.eviction then
      if b.jobs = .run then next { b with jobs := .stoppedForCache } [.countStop] else Turn.go b []
    else next b [.disable]
  | .countStop => Turn.go { b with stats := { b.stats with stopped := b.stats.stopped + 1 } } []
  | .disable =>
    if b.disabled then Turn.go b []
    else
      next { b with disabled := true }
        (b.unitIds.flatMap (fun u => [.drain u, .ring u]) ++ [.rouse])
  | .drain u =>
    match b.units[u]? with
    | none => Turn.fault b
    | some unit =>
      if unit.queue.isFree then
        match b.drain? u unit.queue with
        | some (ts, b) => Turn.go b (ts.flatMap Action.stale)
        | none => Turn.fault b
      else none
  | .ring u =>
    match b.units[u]? with
    | none => Turn.fault b
    | some unit =>
      if unit.queue.isFree then Turn.go (b.modifyQueue u CompileQueue.ring) [] else none
  | .rouse => if b.crewLock.isSome then none else next b (b.liveWorkers.map .nudge)
  | .nudge w =>
    match b.workers[w]? with
    | none => Turn.fault b
    | some worker => Turn.go b (worker.current.toList.map fun t => .task (.wake t))
  | .shutdown =>
    if b.jobs = .shutDown then Turn.go b []
    else
      -- A worker cannot wait for itself.
      next { b with jobs := .shutDown }
        (.disable :: b.unitIds.map .ring ++ if me.onCompiler then [] else [.joinAll])
  | .joinAll =>
    if b.crewLock.isSome then none
    else next { b with retired := [] } ((b.retired ++ b.liveWorkers).map .join)
  | .join w =>
    match b.workers[w]? with
    | none => Turn.fault b
    | some worker => if worker.state = .shutdown then Turn.go b [] else none
  | .accept on => Turn.go (b.accept on) []
  | .detach d =>
    match b.detach d with
    | (some code, b) =>
      Turn.go b
        ([.control (.release d code.region.id), .control (.record d)]
          ++ (b.unitOf? d.tier).toList.map (fun u => .control (.restart u))
          ++ [.answer (.flag true)])
    | (none, b) => Turn.answer b (.flag false)
  | .release _ region => Turn.go { b with cache := (b.cache.release region).2 } []
  | .record d => Turn.go { b with recorder := b.recorder.map fun r => (r.record d).2 } []
  | .replay =>
    match b.recorder with
    | none => Turn.answer b .done
    | some r =>
      match r.finish with
      | .error e => Turn.answer b (.misused e)
      | .ok (ds, r) => next { b with recorder := some r } [.again ds {}]
  | .again [] summary => Turn.answer b (.replayed summary)
  | .again (d :: rest) summary =>
    match b.methods[d.method]? with
    | none => Turn.fault b
    | some m =>
      if b.isUnloaded m then next b [.again rest { summary with skipped := summary.skipped + 1 }]
      else
        Turn.go b
          [.request (.enter
              { method := d.method, bci := d.bci, tier := d.tier, reason := .checkpointRestore }),
            .control (.tally rest { summary with submitted := summary.submitted + 1 })]
  | .tally rest summary =>
    match me.reply with
    | some (.outcome (.queued _)) =>
      next b [.again rest { summary with queued := summary.queued + 1 }]
    | _ => next b [.again rest summary]

end ControlStep

/-- Runs a step at the pause gate. -/
def GateStep.run (b : Broker) : GateStep → Option Turn
  | .poll => Turn.go b (if b.gate.requested then [.gate .park] else [])
  | .park =>
    if b.gate.guards = 0 then Turn.go b []
    else Turn.go { b with gate := b.gate.park } [.gate (.parked b.gate.bell)]
  | .parked bell =>
    if b.gate.bell = bell then none
    else if b.gate.guards = 0 then Turn.go { b with gate := b.gate.leave } []
    else Turn.go b [.gate (.parked b.gate.bell)]

end JitBroker
