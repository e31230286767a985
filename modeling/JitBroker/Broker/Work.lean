import JitBroker.Broker.Action

/-!
# The work of a worker

A worker starts the back-end of its unit, or waits until another worker has. Then it goes round:
it passes the pause gate, fetches a task, and works on it. It leaves when the broker is disabled or
shut down, or when it retires.

Fetching is done under the lock of the queue, which the worker leaves to say that it is idle, to
finish tasks that it found obsolete, and to ask whether it may retire. After each of these it looks
again. It only goes to sleep with the lock held, on a queue that it has just seen empty, so that no
task can arrive unnoticed.

Working on a task is a line of small steps. The claim on the method is given back as the last thing
but one, just before the task is completed; only a worker that finds that jobs are no longer taken
gives it back early. The back-end runs once for each repetition that the directive asks for, and
then once more to install code.
-/

namespace JitBroker

namespace Broker

/-- The task in a slot as a selector sees it. -/
def candidate? (b : Broker) (entry : Nat × TaskId) : Option Candidate := do
  let task ← b.tasks[entry.2]?
  let m ← b.methods[task.method]?
  return {
    slot := entry.1
    rank := ⟨task.blocking, task.isOsr, task.hot.toNat, (b.clock - task.requestedAt) / 1000⟩
    obsolete := b.isUnloaded m || m.isOld }

/-- The tasks of a queue as its selector sees them, oldest first. -/
def candidates (b : Broker) (queue : CompileQueue) : List Candidate :=
  queue.list.entries.filterMap b.candidate?

/-- The broker with a task marked as obsolete. -/
def setStale (b : Broker) (t : TaskId) : Broker :=
  match b.tasks[t]? with
  | some task =>
    let gone := match b.methods[task.method]? with
      | some m => b.isUnloaded m
      | none => false
    b.modifyTask t fun x => { x with stale := true, unloaded := x.unloaded || gone, slot := none }
  | none => b

/-- Lets the selector of a unit choose: the task to run, the obsolete ones, and the broker with all
of them taken off the queue. -/
def select? (b : Broker) (u : UnitId) (queue : CompileQueue) :
    Option (Option TaskId × List TaskId × Broker) := do
  let s := queue.selector.select (b.candidates queue)
  let (stale, queue) ← queue.unlinkAll? s.stale
  let (chosen, queue) ← queue.unlinkAll? s.chosen.toList
  let b := b.modifyQueue u fun _ => queue
  let b := stale.foldl setStale b
  let b := chosen.foldl (fun b t => b.modifyTask t fun x => { x with slot := none }) b
  return (chosen.head?, stale, b)

/-- Whether the worker may retire now: crews may shrink, it has been idle for long enough, it is
the latest of its crew, and the crew is larger than it has to stay. -/
def mayRetire (b : Broker) (w : WorkerId) (worker : Worker) (unit : TierUnit) : Bool :=
  decide (max unit.config.minWorkers.toNat 1 < unit.crew.live.length)
    && unit.crew.live.getLast? == some w
    && decide (unit.config.retireIdleMs.toNat ≤ worker.idleTime b.clock / 1000)

/-- Whether the worker has been idle for long enough to ask whether it may retire. -/
def asksToRetire (b : Broker) (worker : Worker) (unit : TierUnit) : Bool :=
  b.config.dynamicPool && b.config.reduceWorkersOnIdle
    && decide (unit.config.retireIdleMs.toNat ≤ worker.idleTime b.clock / 1000)

/-- The broker after the latest worker of a unit has retired. -/
def retireLast (b : Broker) (u : UnitId) (w : WorkerId) : Broker :=
  { b.modifyCrew u fun c => c.publish c.live.dropLast with retired := b.retired ++ [w] }

/-- The compile of a task. -/
def startRun (b : Broker) (u : UnitId) (t : TaskId) (d : Directive) : CompileRun where
  unit := u
  task := t
  directive := d
  logged := b.config.logCompilation || d.log
  startedAt := b.clock
  repeats := d.repeatCompilation.toNat

/-- When a worker that goes to sleep is to look again, at the soonest after a millisecond. -/
def sleepDue (b : Broker) : Nat := b.clock + max b.config.queueWaitMs.toNat 1 * 1000

/-- The broker with an operation done. -/
def operate (b : Broker) : Operation → Broker
  | .addClass c => { b with classes := b.classes.add c }
  | .addMethod m => { b with methods := b.methods.add m.fresh }
  | .initializeClass c => b.modifyClass c fun x => { x with initialized := true }
  | .unloadClass c => b.modifyClass c fun x => { x with unloaded := true }
  | .redefine m => b.modifyMethod m fun x => { x with isOld := true }
  | .breakpoints m present => b.modifyMethod m fun x => { x with hasBreakpoints := present }
  | .link m => b.modifyMethod m fun x => x.linkNative.2
  | .prohibit m osr tier => b.modifyMethod m fun x => x.prohibit osr tier
  | .prohibitAll m => b.modifyMethod m Method.prohibitAll
  | .close m region => b.modifyMethod m fun x => x.closeCode region
  | .pushDirectives sets =>
    match b.directives.pushAll sets with
    | .ok directives => { b with directives := directives }
    | .error _ => b
  | .popDirectives count => { b with directives := (b.directives.pop count).2 }
  | .pause => { b with gate := b.gate.pause }
  | .unpause => if b.gate.guards = 0 then b else { b with gate := b.gate.release }
  | .startRecording =>
    { b with recorder := b.recorder.map fun r =>
        match r.start with
        | .ok r => r
        | .error _ => r }
  | .record d => { b with recorder := b.recorder.map fun r => (r.record d).2 }
  | .drawId kind => (b.drawId kind).2
  | .setMemory bytes => { b with freeMemory := bytes }
  | .pass time => { b with clock := b.clock + time }

end Broker

namespace WorkerStep

/-- Goes on with another step. -/
def next (b : Broker) (w : WorkerId) (s : WorkerStep) : Option Turn := Turn.go b [.worker w s]

/-- Runs a move of the back-end in a compile. -/
def obey (b : Broker) (w : WorkerId) (c : CompileRun) (task : Task) (unit : TierUnit) :
    BackendMove → Option Turn
  | .install total instructions =>
    match b.cache.allocate unit.config.blobKind total with
    | (.ok region, cache) =>
      next { b with cache := cache } w (.attach c (task.code region instructions))
    | (.error full, cache) =>
      some {
        broker := { b with cache := cache }
        next := [.worker w (.compile { c with report := c.report.full full.kind })]
        reply := some (.refused (.codeCacheExhausted full.kind)) }
  | .recordSize total instructions =>
    next b w (.compile { c with report := c.report.recordSize total instructions })
  | .fail reason scope => next b w (.compile { c with report := c.report.fail reason scope })
  | .invalidate => next b w (.compile { c with report := c.report.invalidate })
  | .retryMessage text =>
    next b w (.compile { c with report := { c.report with retryMessage := some text } })
  | .inline n => next b w (.compile { c with report := c.report.inline n })
  | .arena bytes => next b w (.compile { c with arena := bytes })
  | .checkpoint => Turn.go b [.gate .poll, .worker w (.compile c)]
  | .call call => Turn.go b (call.agenda ++ [.worker w (.compile c)])
  | .operate o => next (b.operate o) w (.compile c)
  | .finish =>
    if c.installs then Turn.go b [.gate .poll, .worker w (.judge c)]
    else next b w (.compile { c with repeats := c.repeats - 1, report := {}, arena := 0 })

/-- Runs a step of a worker. -/
def run (me : Caller) (ch : Choices) (b : Broker) (w : WorkerId) (worker : Worker)
    (unit : TierUnit) : WorkerStep → Option Turn
  | .start =>
    match unit.init with
    | .pending => next (b.modifyUnit worker.unit fun x => { x with init := .running }) w .starting
    | .running => none
    | .ready => next b w .round
    | .failed _ => Turn.go b [.control .disable, .worker w .quit]
  | .starting =>
    match ch.started with
    | none => none
    | some (.ok ()) => next (b.modifyUnit worker.unit fun x => { x with init := .ready }) w .round
    | some (.error message) =>
      Turn.go (b.modifyUnit worker.unit fun x => { x with init := .failed message })
        [.control .disable, .worker w .quit]
  | .round => Turn.go b [.gate .poll, .worker w .fetch]
  | .fetch =>
    if unit.queue.isFree then next (b.modifyQueue worker.unit (·.take me.thread)) w .staying
    else none
  | .staying =>
    if b.exiting then next (b.modifyQueue worker.unit CompileQueue.giveBack) w .quit
    else next b w .choose
  | .choose =>
    if unit.queue.list.isEmpty then
      next (b.modifyQueue worker.unit CompileQueue.giveBack) w .rest
    else
      match b.select? worker.unit unit.queue with
      | none => Turn.fault b
      | some (chosen, stale, b) =>
        if stale.isEmpty then
          match chosen with
          | some t => next (b.modifyQueue worker.unit CompileQueue.giveBack) w (.adopt t)
          | none => next b w .staying
        else
          -- The obsolete tasks are finished without the lock, before the chosen one is taken up.
          Turn.go (b.modifyQueue worker.unit CompileQueue.giveBack)
            (stale.flatMap Action.stale
              ++ [.worker w (match chosen with | some t => .leave t | none => .fetch)])
  | .leave t => if unit.queue.isFree then next b w (.adopt t) else none
  | .rest => next (b.modifyWorker w fun x => { x with state := .idle }) w .look
  | .look =>
    if unit.queue.isFree then next (b.modifyQueue worker.unit (·.take me.thread)) w .lookStaying
    else none
  | .lookStaying =>
    if b.exiting then next (b.modifyQueue worker.unit CompileQueue.giveBack) w .quit
    else next b w .lookEmpty
  | .lookEmpty =>
    if unit.queue.list.isEmpty then
      next (b.modifyQueue worker.unit CompileQueue.giveBack) w
        (.asleep unit.queue.bell b.sleepDue)
    else next b w .staying
  | .asleep bell _ =>
    if !unit.queue.isFree then none
    else if unit.queue.bell ≠ bell then
      next (b.modifyQueue worker.unit (·.take me.thread)) w .staying
    else if ch.timeout then next (b.modifyQueue worker.unit (·.take me.thread)) w .overdue
    else none
  | .overdue =>
    if unit.queue.list.isEmpty && !b.exiting then
      next (b.modifyQueue worker.unit CompileQueue.giveBack) w .retire
    else next b w .staying
  | .retire =>
    if b.asksToRetire worker unit then
      if b.crewLock.isSome then none
      else if b.mayRetire w worker unit then next (b.retireLast worker.unit w) w .retired
      else next b w .fetch
    else next b w .fetch
  | .retired => if unit.queue.isFree then next b w .quit else none
  | .quit => Turn.go (b.modifyWorker w fun x => { x with state := .shutdown }) []
  | .adopt t =>
    next (b.modifyWorker w fun x => { x with state := .running, idleSince := none }) w (.take t)
  | .take t => next (b.modifyWorker w fun x => { x with current := some t }) w (.consult t)
  | .consult t =>
    match b.tasks[t]? with
    | none => Turn.fault b
    | some task =>
      match b.methods[task.method]? with
      | none => Turn.fault b
      | some m => next b w (.begin (b.startRun worker.unit t (b.directiveFor m unit.kind)))
  | .begin c =>
    match b.tasks[c.task]? with
    | none => Turn.fault b
    | some task =>
      match b.methods[task.method]? with
      | none => Turn.fault b
      | some m =>
        next
          (if c.logged then b.modifyWorker w fun x => { x with log := x.log.begin task m } else b)
          w (.examine c)
  | .examine c =>
    match b.tasks[c.task]? with
    | none => Turn.fault b
    | some task =>
      match b.methods[task.method]? with
      | none => Turn.fault b
      | some m =>
        if m.hasBreakpoints then next b w (.rule (c.refuse .breakpoints)) else next b w (.clear c)
  -- Jobs may have been stopped since the task was fetched.
  | .clear c => if b.accepting then next b w (.compile c) else next b w (.giveUp c)
  | .giveUp c =>
    match b.tasks[c.task]? with
    | none => Turn.fault b
    | some task =>
      next (b.modifyMethod task.method fun m => { m with queued := false }) w
        (.rule (c.refuse .notAccepting))
  | .compile c =>
    match b.tasks[c.task]?, ch.move with
    | none, _ => Turn.fault b
    | some _, none => none
    | some task, some move => obey b w c task unit move
  | .attach c code =>
    match b.tasks[c.task]? with
    | none => Turn.fault b
    | some task =>
      some {
        broker := b.modifyMethod task.method (·.install code)
        next := [.worker w (.compile { c with report := c.report.install code })]
        reply := some (.code code) }
  | .judge c =>
    Turn.go b (c.report.cacheFull.toList.map (fun kind => .control (.full kind))
      ++ [.worker w (.rule c.finished)])
  | .rule f =>
    match b.tasks[f.task]? with
    | none => Turn.fault b
    | some task =>
      match b.methods[task.method]? with
      | none => Turn.fault b
      | some m =>
        let f := { f with elapsed := b.clock - f.startedAt }
        if f.result.failure.isSome then
          next (b.modifyMethod task.method fun m => m.afterFailure task.isOsr task.tier f.scope) w
            (.count f)
        else
          next
            (b.modifyUnit worker.unit fun x =>
              { x with stats := x.stats.record task.isOsr m.bytecodeSize f.result f.elapsed })
            w (.count f)
  | .count f =>
    match b.tasks[f.task]? with
    | none => Turn.fault b
    | some task =>
      match b.methods[task.method]? with
      | none => Turn.fault b
      | some m =>
        next { b with stats := b.stats.record task m f.result f.invalidated f.elapsed } w
          (.announce f)
  | .announce f =>
    match b.tasks[f.task]? with
    | none => Turn.fault b
    | some task => next { b with stats := b.stats.post (.of task f.result) } w (.close f)
  | .close f =>
    match b.tasks[f.task]? with
    | none => Turn.fault b
    | some task =>
      match b.methods[task.method]? with
      | none => Turn.fault b
      | some m =>
        next
          (if f.logged then
            b.modifyWorker w fun x => { x with log := x.log.finish task m f.result f.elapsed }
          else b)
          w (.drop f)
  | .drop f => next (b.modifyWorker w fun x => { x with current := none }) w (.unmark f)
  | .unmark f =>
    match b.tasks[f.task]? with
    | none => Turn.fault b
    | some task =>
      next (b.modifyMethod task.method fun m => { m with queued := false }) w (.publish f)
  | .publish f =>
    Turn.go (b.modifyTask f.task fun x => { x with result := f.result })
      [.task (.complete f.task .worker), .worker w .settle]
  | .settle =>
    Turn.go (b.modifyWorker w fun x => { x with idleSince := some b.clock })
      ((if b.config.dynamicPool then [.crew (.grow worker.unit)] else []) ++ [.worker w .round])

end WorkerStep

end JitBroker
