import JitBroker.Bench

/-!
# Letting threads run

The bench moves one thread at a time. A thread in a compile works off the chores of its job, of
which some are moves of the back-end; any other thread makes a step, and the bench supplies what
the broker does not determine. A thread that cannot go on says so, and another one is tried:
those of the application first, then the workers, who take turns of a few steps each.

The bench is quiet when no thread can go on. Time passes only if somebody takes time to compile, if
a requester watches an external back-end and will give up before long, or if a step asks for it;
then every sleeper whose time is over wakes up.
-/

namespace JitBroker.Bench

/-! ### Jobs -/

/-- The record of a compile that begins. -/
def newRecord (b : Bench) (c : CompileRun) (t : Task) (m : Method) : CompileRecord where
  tier := t.tier
  kind := m.idKind t.entryBci
  id := t.compileId
  fields :=
    [("m", .str (b.labelOf t.method)), ("bci", .int t.entryBci), ("hot", .count t.hot.toNat),
      ("reason", .str t.reason.key), ("blocking", .bool t.blocking), ("install", .bool c.installs),
      ("depth", .ofOption .count t.queueDepth), ("log", .bool c.directive.log),
      ("flags", .arr [.bool t.unloaded, .bool t.stale, .bool t.complete,
        .bool (t.complete && t.result.success), .bool t.freed, .bool t.isOsr]),
      ("tiers", .arr [.count t.tier.toNat, .count t.tier.toNat]), ("same_id", .bool true),
      ("text", .str (t.line m)), ("debug", .str (t.summary m)),
      ("options", .obj c.directive.options)]

/-- The bench with a job for a compile that begins. -/
def beginJob (b : Bench) (i : ThreadId) (c : CompileRun) : Option Bench := do
  let t ← b.broker.tasks[c.task]?
  let m ← b.broker.methods[t.method]?
  return { b with
    records := b.records.add (b.newRecord c t m)
    jobs := b.jobs ++
      [{ thread := i, record := b.records.size, chores := [.hold, .pick, .close] }] }

/-- The chores of a compile of the stub. -/
def stubChores (delay : Nat) : List Chore :=
  let half := delay / 2
  let naps (time : Nat) : List Chore := if delay = 0 then [] else [.nap time]
  [.stub, .stubGate] ++ naps half ++ [.tick, .move .checkpoint, .scratch] ++ naps (delay - half)
    ++ [.tick, .stubEnd]

/-- What a thread was left with, as the result of an action. -/
def noteOf (n : Note) (reply : Option Reply) : Json :=
  match n, reply with
  | .nothing, _ => .null
  | .reply, some (.outcome o) => o.toJson
  | .reply, some (.flag x) => .bool x
  | .reply, some (.code c) => c.toJson
  | .reply, some (.refused e) => e.toJson
  | _, _ => .null

/-- What comes of an action of a script: the bench after it, the results that are known at once,
and the chores it leaves. -/
def startAction (b : Bench) (c : CompileRun) (delay : Nat) :
    ScriptAction → Bench × List Json × List Chore
  | .stub => (b, [], stubChores delay ++ [.note .nothing])
  | .install total instructions => (b, [], [.move (.install total instructions), .note .reply])
  | .recordSize total instructions => (b, [.null], [.move (.recordSize total instructions)])
  | .fail reason scope => (b, [.null], [.move (.fail (.other reason) scope)])
  | .invalidate => (b, [.null], [.move .invalidate])
  | .retry message => (b, [.null], [.move (.retryMessage message)])
  | .inline n => (b, [.null], [.move (.inline n)])
  | .arena bytes => (b, [.word c.arena], [.move (.arena bytes)])
  | .failing => (b, [.bool c.report.isFailing], [])
  | .checkpoint => (b, [], [.move .checkpoint, .note .nothing])
  | .request r =>
    let (m, b) := b.intern r.label
    (b, [], [.move (.call (.request (r.request m))), .note .reply])
  | .decompile d =>
    let (m, b) := b.intern d.label
    (b, [], [.move (.call (.decompile ⟨m, d.bci, d.tier⟩)), .note .reply])
  | .disable => (b, [], [.move (.call .disable), .note .nothing])
  | .cacheFull kind => (b, [], [.move (.call (.cacheFull kind)), .note .nothing])
  | .method label s =>
    let (v, b) := b.stepOnLabel label s
    (b, [v], [])
  | .nothing => (b, [.null], [])

/-- Makes a step of a thread with what the bench supplies. -/
def stepWith (b : Bench) (i : ThreadId) (ch : Choices) : Option Bench :=
  (b.system.step i ch).map fun s => { b with system := s }

/-- Whether a compile may pass the gate of the bench. -/
def passes (b : Bench) (j : Job) : Bool := b.gateOpen || j.released

/-- Works off the first chore of a job. -/
def chore (b : Bench) (i : ThreadId) (j : Job) (r : Rig) (c : CompileRun) (t : Task) (m : Method)
    (reply : Option Reply) : List Chore → Option Bench
  | [] => (b.stepWith i { move := some .finish }).map fun b =>
      { b with jobs := b.jobs.filter (·.thread != i) }
  | .hold :: rest => if b.passes j then some (b.setChores i rest) else none
  | .pick :: rest =>
    match b.takeScript? r.tier with
    | none => some (b.setChores i (stubChores r.spec.delay ++ rest))
    | some (script, b) => some (b.setChores i (script.map .act ++ rest))
  | .act a :: rest =>
    let (b, results, chores) := b.startAction c r.spec.delay a
    some ((results.foldl (fun b v => b.addAct j.record v) b).setChores i (chores ++ rest))
  | .move m :: rest => (b.stepWith i { move := some m }).map fun b => b.setChores i rest
  | .note n :: rest => some ((b.addAct j.record (noteOf n reply)).setChores i rest)
  | .stub :: rest =>
    some ((b.modifyRig r.tier fun r => { r with compiles := (c.installs, t.entryBci) :: r.compiles
      }).setChores i rest)
  | .stubGate :: rest => if r.stubOpen then some (b.setChores i rest) else none
  | .nap time :: rest => some (b.setChores i (.napping (b.broker.clock + time) :: rest))
  | .napping due :: rest => if due ≤ b.broker.clock then some (b.setChores i rest) else none
  | .tick :: rest => some ((b.modifyRig r.tier Rig.tick).setChores i rest)
  | .scratch :: rest => some (b.setChores i (.move (.arena (StubBehavior.scratch m)) :: rest))
  | .stubEnd :: rest => some (b.setChores i ((r.behavior.moves m c.installs).map .move ++ rest))
  | .close :: rest =>
    some ({ b with
      records := b.records.modify j.record fun x => { x with failing := some c.report.isFailing }
      }.setChores i rest)

/-! ### Threads -/

/-- Makes a step of a thread that asks an external back-end for its progress. -/
def stepAsking (b : Bench) (i : ThreadId) (u : UnitId) (ch : Choices) : Option Bench := do
  let unit ← b.broker.units[u]?
  let r ← b.rig? unit.config.level
  let (progress, r) := r.poll
  let b ← b.stepWith i { ch with progress := progress }
  return b.modifyRig r.tier fun _ => r

/-- Makes a step of a thread. -/
def stepThread (b : Bench) (i : ThreadId) : Option Bench := do
  let t ← b.system.threads[i]?
  match t.agenda with
  | [] => none
  | .worker _ (.compile c) :: _ =>
    match b.job? i with
    | none => b.beginJob i c
    | some j => do
      let task ← b.broker.tasks[c.task]?
      let m ← b.broker.methods[task.method]?
      let unit ← b.broker.units[c.unit]?
      let r ← b.rig? unit.config.level
      b.chore i j r c task m t.reply j.chores
  | .worker w .start :: _ => do
    let worker ← b.broker.workers[w]?
    let unit ← b.broker.units[worker.unit]?
    let after ← b.stepWith i {}
    if unit.init = .pending then
      return after.modifyRig unit.config.level fun r => { r with inits := r.inits + 1 }
    else return after
  | .worker w .starting :: _ => do
    let worker ← b.broker.workers[w]?
    let unit ← b.broker.units[worker.unit]?
    let r ← b.rig? unit.config.level
    if r.initOpen then
      b.stepWith i {
        started := some (match r.spec.initError with
          | some message => .error message
          | none => .ok ()) }
    else none
  | .worker _ (.asleep _ due) :: _ => b.stepWith i { timeout := decide (due ≤ b.broker.clock) }
  | .request (.attend q _) :: _ => do
    let unit ← b.broker.units[q.unit]?
    if unit.kind = .external then b.stepAsking i q.unit {} else b.stepWith i {}
  | .request (.asleep q task _ (some watch)) :: _ => do
    let x ← b.broker.tasks[task]?
    let ch : Choices := { timeout := decide (watch.due ≤ b.broker.clock) }
    if x.complete || b.broker.disabled then b.stepWith i ch else b.stepAsking i q.unit ch
  | _ => b.stepWith i {}

/-- Lets a thread run until it cannot go on; the count bounds its steps. -/
def runThread (i : ThreadId) : Nat → Bench → Bench
  | 0, b => b
  | n + 1, b =>
    match b.stepThread i with
    | some b => runThread i n b
    | none => b

/-- Whether a thread has something left to do. A thread that has nothing left to do is never given
anything again. -/
def isBusy (b : Bench) (i : ThreadId) : Bool :=
  match b.system.threads[i]? with
  | some t => !t.agenda.isEmpty
  | none => false

/-- Whether a thread is that of a worker. -/
def isWorker (b : Bench) (i : ThreadId) : Bool :=
  match b.system.threads[i]? with
  | some t => t.worker.isSome
  | none => false

/-- The bench after a look at its threads. -/
def look (b : Bench) : Bench :=
  let size := b.system.threads.size
  let active := (b.active ++ List.range' b.seen (size - b.seen)).filter b.isBusy
  { b with active := active, seen := size }

/-- The threads that have something left to do, those of the application first. -/
def busyThreads (b : Bench) : List ThreadId :=
  let busy := b.look.active
  busy.filter (!b.isWorker ·) ++ busy.filter b.isWorker

/-- The bench after the first of these threads that can go on has made a step. -/
def stepFirst (b : Bench) : List ThreadId → Option (ThreadId × Bench)
  | [] => none
  | i :: rest =>
    match b.stepThread i with
    | some b => some (i, b)
    | none => stepFirst b rest

/-- Bounds the work between two looks at the clock. -/
def stepLimit : Nat := 1000000

/-- How many steps a worker makes at the most before another one has its turn. -/
def slice : Nat := 32

/-- The bench with the turn of a thread after that of all others. -/
def yieldTurn (b : Bench) (i : ThreadId) : Bench :=
  { b with active := b.active.filter (· != i) ++ [i] }

/-- Lets threads run until none can go on; the count bounds how often the thread changes. A thread
of the application runs until it has to wait, workers take turns. -/
def runAll : Nat → Bench → Bench
  | 0, b => b
  | n + 1, b =>
    let b := b.look
    match b.stepFirst b.busyThreads with
    | some (i, b) =>
      if b.isWorker i then runAll n ((runThread i slice b).yieldTurn i)
      else runAll n (runThread i stepLimit b)
    | none => b

/-! ### Time -/

/-- When a thread wakes up by itself, and whether the bench waits for that. -/
def alarm? (b : Bench) (i : ThreadId) : Option (Nat × Bool) := do
  let t ← b.system.threads[i]?
  match t.agenda with
  | .worker _ (.asleep _ due) :: _ => some (due, false)
  | .request (.asleep _ _ _ (some watch)) :: _ =>
    let whole := b.broker.config.sliceMs.toNat * b.broker.config.slicesMax.toNat
    some (watch.due, decide (whole < 5000))
  | .worker _ (.compile _) :: _ => do
    let j ← b.job? i
    match j.chores with
    | .napping due :: _ => some (due, true)
    | _ => none
  | _ => none

/-- Every time at which a thread wakes up by itself, and whether the bench waits for it. -/
def alarms (b : Bench) : List (Nat × Bool) := b.busyThreads.filterMap b.alarm?

/-- The bench with all tasks as if they were requested just now. -/
def rejuvenate (b : Bench) : Bench :=
  let tasks := b.broker.tasks.records.map fun t => { t with requestedAt := b.broker.clock }
  { b with system := { b.system with broker := { b.broker with tasks := ⟨tasks⟩ } } }

/-- The bench at a later time. -/
def passTo (b : Bench) (time : Nat) : Bench :=
  let b := b.operate (.pass (time - b.broker.clock))
  if b.ageless then b.rejuvenate else b

/-- The earliest time in a list. -/
def earliest : List Nat → Option Nat
  | [] => none
  | t :: rest =>
    match earliest rest with
    | some u => some (min t u)
    | none => some t

/-- Lets threads run until the bench is quiet; the count bounds how often time passes. -/
def settleFor : Nat → Bench → Bench
  | 0, b => b
  | n + 1, b =>
    let b := runAll stepLimit b
    let alarms := b.alarms
    if alarms.any (·.2) then
      match earliest (alarms.map (·.1)) with
      | some time => settleFor n (b.passTo time)
      | none => b
    else b

/-- Lets threads run until the bench is quiet. -/
def settle (b : Bench) : Bench := settleFor stepLimit b

/-- Lets time pass until a moment, or until a condition holds; the count bounds how often a sleeper
wakes up. -/
def passUntil (stop : Bench → Bool) (time : Nat) : Nat → Bench → Bench
  | 0, b => b
  | n + 1, b =>
    if stop b || time ≤ b.broker.clock then b
    else
      let next := match earliest ((b.alarms.map (·.1)).filter (b.broker.clock < ·)) with
        | some t => min t time
        | none => time
      passUntil stop time n (b.passTo next).settle

/-- Lets milliseconds pass, or fewer if a condition holds before. -/
def waitFor (b : Bench) (stop : Bench → Bool) (ms : Nat) : Bench :=
  passUntil stop (b.broker.clock + ms * 1000) stepLimit b

end JitBroker.Bench
