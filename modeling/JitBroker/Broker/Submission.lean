import JitBroker.Broker.Action

/-!
# Making requests

A request first looks whether it is needed and allowed at all, without any lock. Then it takes the
lock of its queue, looks again, claims the method and adds a task. The claim is one mark for a
method over all queues, so at most one request at a time gets through to a queue for it.

A request that waits does so under the rules of the handshake in `Task`: it goes to sleep only if
the task is neither complete nor lost to a broker that is disabled, and whoever changes that rings
the bell. On an external back-end it also reads the progress from time to time, and gives up after
a number of readings in a row that were all the same. A requester that leaves without a result says
so in the task, which is then freed by whoever completes it.
-/

namespace JitBroker

/-- What the directive and the marks of a method hold against a request. -/
def Method.objection? (m : Method) (r : Request) (d : Directive) : Option Prohibition :=
  if d.exclude then some .excluded
  else if !d.enable then some .switchedOff
  else if m.isProhibited r.isOsr r.tier then some (.marked r.isOsr r.tier)
  else none

/-- Whether a request waits for its task. It never does on a compiler thread, inside a class
initializer or for an external back-end that is not ready. -/
def Broker.waits (b : Broker) (me : Caller) (unit : TierUnit) (d : Directive) (r : Request) :
    Bool :=
  (r.blocking || !d.backgroundCompilation.getD b.config.backgroundDefault)
    && !me.onCompiler && me.initializers == 0
    && !(unit.kind == .external && unit.init != .ready)

/-- Whether a number may compile. -/
def Config.allowsId (c : Config) (id : UInt32) : Bool :=
  match c.idRange with
  | some range => range.contains id
  | none => true

namespace RequestStep

/-- Refuses the request. -/
def reject (b : Broker) (e : BrokerError) : Option Turn :=
  Turn.answer b (.outcome (.rejected e))

/-- Goes on with another step. -/
def next (b : Broker) (s : RequestStep) : Option Turn := Turn.go b [.request s]

/-- Leaves the lock of the queue. -/
def unlock (b : Broker) (q : Inquiry) : Broker := b.modifyQueue q.unit CompileQueue.giveBack

/-- Stops waiting, with the lock of the task held. -/
def leave (b : Broker) (q : Inquiry) (t : TaskId) (task : Task) (gaveUp : Bool) : Option Turn :=
  if task.complete then
    next (b.modifyTask t fun x => { x with waiters := x.waiters - 1 }) (.collect q t)
  else
    Turn.answer
      (b.modifyTask t fun x => { x with waiters := x.waiters - 1, awaited := false })
      (.outcome (if gaveUp then .abandoned task.compileId
        else .rejected (.unavailable .disabledWhileWaiting)))

/-- When the next reading of the progress is due, at the soonest after a millisecond. -/
def readingDue (b : Broker) : Nat := b.clock + max b.config.sliceMs.toNat 1 * 1000

/-- Looks at the task after waking up. -/
def wakeUp (b : Broker) (ch : Choices) (q : Inquiry) (t : TaskId) (task : Task)
    (watch : Option Watch) : Option Turn :=
  if task.complete || b.disabled then leave b q t task false
  else
    match watch with
    | none => next b (.asleep q t task.bell none)
    | some w =>
      -- Any change counts as progress, also one to a smaller reading.
      if ch.progress ≠ w.last then
        next b (.asleep q t task.bell (some ⟨ch.progress, 0, readingDue b⟩))
      else if b.config.slicesMax.toNat ≤ w.idle + 1 then leave b q t task true
      else next b (.asleep q t task.bell (some ⟨w.last, w.idle + 1, readingDue b⟩))

/-- The answer to a request whose task is complete. -/
def answer (m : Method) (r : Request) (id : UInt32) (result : TaskResult) : Outcome :=
  if result.success then
    match m.compiledCode? r.bci r.tier with
    | some code => .installed code
    | none => .failed id .codeGone
  else
    match result.failure with
    | some reason => .failed id (.compile reason)
    | none => .failed id .unexplained

/-- Runs a step of a request. -/
def run (me : Caller) (ch : Choices) (b : Broker) : RequestStep → Option Turn
  | .enter r =>
    if !b.initialized then reject b (.unavailable .notInitialized)
    else
      match b.unitOf? r.tier with
      | none => reject b (.unavailable (.tierNotEnabled r.tier))
      | some u => next b (.backend { request := r, unit := u })
  | .backend q =>
    match b.units[q.unit]? with
    | none => Turn.fault b
    | some unit =>
      match unit.init with
      | .failed message => reject b (.backendInitFailure (.failed message))
      | _ => next b (.enabled q)
  | .enabled q =>
    if b.disabled then reject b (.unavailable .disabled)
    else Turn.go b [.control (.restart q.unit), .request (.accepted q)]
  | .accepted q =>
    if b.accepting then next b (.eligible q) else reject b (.unavailable .stopped)
  | .eligible q =>
    match b.methods[q.request.method]? with
    | none => Turn.fault b
    | some m =>
      if m.isAbstract then reject b (.prohibited .abstractMethod)
      else if m.isIntrinsic then reject b (.prohibited .intrinsic)
      else if !b.isInitialized m then reject b (.unavailable (.classNotInitialized m.className))
      else next b (.existing q)
  | .existing q =>
    match b.methods[q.request.method]? with
    | none => Turn.fault b
    | some m =>
      match m.compiledCode? q.request.bci q.request.tier with
      | some code => Turn.answer b (.outcome (.installed code))
      | none => next b (.policy q)
  | .policy q =>
    match b.methods[q.request.method]?, b.units[q.unit]? with
    | some m, some unit => next b (.allowed { q with directive := b.directiveFor m unit.kind })
    | _, _ => Turn.fault b
  | .allowed q =>
    match b.methods[q.request.method]? with
    | none => Turn.fault b
    | some m =>
      match m.objection? q.request q.directive with
      | some .excluded =>
        reject (b.modifyMethod q.request.method (·.prohibit q.request.isOsr q.request.tier))
          (.prohibited .excluded)
      | some cause => reject b (.prohibited cause)
      | none => next b (.native q)
  | .native q =>
    match b.methods[q.request.method]? with
    | none => Turn.fault b
    | some m =>
      if m.isNative && !m.linked then
        if me.onCompiler then reject b (.unavailable .nativeLookupOnCompiler)
        else next b (.link q)
      else next b (.mode q)
  | .link q =>
    match b.methods[q.request.method]? with
    | none => Turn.fault b
    | some m =>
      if m.linkNative.1 then
        next (b.modifyMethod q.request.method fun m => m.linkNative.2) (.mode q)
      else
        reject (b.modifyMethod q.request.method (·.prohibit false q.request.tier))
          (.prohibited .nativeLookup)
  | .mode q =>
    match b.units[q.unit]? with
    | none => Turn.fault b
    | some unit => next b (.lock { q with blocking := b.waits me unit q.directive q.request })
  | .lock q =>
    match b.units[q.unit]? with
    | none => Turn.fault b
    | some unit =>
      if unit.queue.isFree then
        next (b.modifyQueue q.unit (·.take me.thread)) (.stillEnabled q)
      else none
  | .stillEnabled q =>
    if b.disabled then reject (unlock b q) (.unavailable .disabled) else next b (.stillMissing q)
  | .stillMissing q =>
    match b.methods[q.request.method]? with
    | none => Turn.fault b
    | some m =>
      match m.compiledCode? q.request.bci q.request.tier with
      | some code => Turn.answer (unlock b q) (.outcome (.installed code))
      | none => next b (.stillAllowed q)
  | .stillAllowed q =>
    match b.methods[q.request.method]? with
    | none => Turn.fault b
    | some m =>
      match m.objection? q.request q.directive with
      | some .excluded =>
        reject
          ((unlock b q).modifyMethod q.request.method
            (·.prohibit q.request.isOsr q.request.tier))
          (.prohibited .excluded)
      | some cause => reject (unlock b q) (.prohibited cause)
      | none => next b (.claim q)
  | .claim q =>
    match b.methods[q.request.method]? with
    | none => Turn.fault b
    | some m =>
      -- The mark belongs to the method, not to the queue: it also keeps out the other tiers.
      if m.queued then reject (unlock b q) (.alreadyInProgress m.fullName)
      else
        next (b.modifyMethod q.request.method fun m => { m with queued := true }) (.number q)
  | .number q =>
    match b.methods[q.request.method]? with
    | none => Turn.fault b
    | some m =>
      let (id, b) := b.drawId (m.idKind q.request.bci)
      if b.config.allowsId id then next b (.allocate q id) else next b (.exclude q id)
  | .exclude q id =>
    next (b.modifyMethod q.request.method (·.prohibit q.request.isOsr q.request.tier))
      (.unclaim q (.prohibited (.outsideRange id)))
  | .unclaim q e =>
    reject ((unlock b q).modifyMethod q.request.method fun m => { m with queued := false }) e
  | .allocate q id =>
    match b.pool.allocate? with
    -- The number drawn is lost.
    | none => next b (.unclaim q (.outOfResources (.taskLimit b.pool.capacity)))
    | some pool =>
      let t := b.tasks.size
      let task := Task.ofRequest q.request id q.blocking b.clock
      next { b with pool := pool, tasks := b.tasks.add task } (.stamp q t)
  | .stamp q t =>
    match b.units[q.unit]? with
    | none => Turn.fault b
    | some unit =>
      let depth := if b.config.recordTraining then some unit.queue.size else none
      next
        ((b.modifyTask t fun x => { x with queueDepth := depth }).modifyMethod q.request.method
          fun m => { m with queued := true })
        (.append q t)
  | .append q t =>
    match b.units[q.unit]?, b.tasks[t]? with
    | some unit, some task =>
      if task.slot.isSome then Turn.fault b
      else
        let (slot, queue) := unit.queue.push t
        let b := (b.modifyQueue q.unit fun _ => queue.giveBack).modifyTask t fun x =>
          { x with slot := some slot }
        if task.blocking then next b (.attend q t)
        else Turn.answer b (.outcome (.queued task.compileId))
    | _, _ => Turn.fault b
  | .attend q t =>
    match b.units[q.unit]?, b.tasks[t]? with
    | some unit, some task =>
      let b := b.modifyTask t fun x => { x with waiters := x.waiters + 1 }
      if task.complete || b.disabled then leave b q t task false
      else
        let watch := if unit.kind = .external then some ⟨ch.progress, 0, readingDue b⟩ else none
        next b (.asleep q t task.bell watch)
    | _, _ => Turn.fault b
  | .asleep q t bell watch =>
    match b.tasks[t]? with
    | none => Turn.fault b
    | some task =>
      if task.bell ≠ bell || (watch.isSome && ch.timeout) then wakeUp b ch q t task watch
      else none
  | .collect q t =>
    match b.tasks[t]? with
    | none => Turn.fault b
    | some task =>
      Turn.go b [.task (.free t .requester), .request (.conclude q task.compileId task.result)]
  | .conclude q id result =>
    match b.methods[q.request.method]? with
    | none => Turn.fault b
    | some m => Turn.answer b (.outcome (answer m q.request id result))

end RequestStep

end JitBroker
