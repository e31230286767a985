import JitBroker.CompileLog
import JitBroker.Config
import JitBroker.Directive.Stack
import JitBroker.Gate
import JitBroker.Queue
import JitBroker.Recorder
import JitBroker.Statistics
import JitBroker.TaskPool

/-!
# The state of a broker

A broker has a unit for each enabled tier: a queue, a back-end and a crew of workers. Beside the
units it keeps the classes and methods it has heard of, every task and worker there ever was, the
account of live tasks, the code cache, the directives, the statistics, the pause gate, a recorder
and the numbers drawn so far.

Two things say whether it takes work. The state of its jobs goes back and forth between running and
stopped; being disabled is for good:

* stopping by hand and going on by hand undo each other;
* a full segment stops a running broker (or disables it, if the configuration says so), and a
  request or a decompilation that finds room again lets it go on;
* shutting down and disabling are never undone.

Everything here is a value; the steps in which threads change it are in the modules below this one.
-/

namespace JitBroker

/-- Numbers of units. -/
abbrev UnitId := Nat

/-- Numbers of workers. -/
abbrev WorkerId := Nat

/-! ### Workers -/

/-- What a worker is doing. -/
inductive WorkerState where
  /-- It is starting. -/
  | init
  /-- It has a task. -/
  | running
  /-- It waits for work. -/
  | idle
  /-- It has left. -/
  | shutdown
  deriving Repr, DecidableEq, Inhabited

/-- The name used in reports. -/
def WorkerState.name : WorkerState → String
  | .init => "Init"
  | .running => "Running"
  | .idle => "Idle"
  | .shutdown => "Shutdown"

/-- A worker. -/
structure Worker where
  /-- Its unit. -/
  unit : UnitId
  /-- Its tier. -/
  tier : Tier
  /-- Its position in the crew. -/
  index : Nat
  /-- The name of its thread. -/
  name : String
  /-- What it is doing. -/
  state : WorkerState := .init
  /-- When it finished its last task, unless it has one now. -/
  idleSince : Option Nat
  /-- The task it works on. -/
  current : Option TaskId := none
  /-- Its log. -/
  log : CompileLog
  deriving Repr, DecidableEq, Inhabited

/-- How long a worker has been idle. -/
def Worker.idleTime (w : Worker) (now : Nat) : Nat :=
  match w.idleSince with
  | some since => now - since
  | none => 0

/-- The crew of a unit. -/
structure Crew where
  /-- The workers, in the order in which they came. -/
  live : List WorkerId := []
  /-- The number of workers that is read without the lock. -/
  count : Nat := 0
  /-- The most workers there ever were. -/
  peak : Nat := 0
  deriving Repr, DecidableEq, Inhabited

/-- The crew with other workers, their number published. -/
def Crew.publish (c : Crew) (live : List WorkerId) : Crew where
  live := live
  count := live.length
  peak := max c.peak live.length

/-! ### Units -/

/-- How far the back-end of a unit has come. -/
inductive InitState where
  /-- No worker has started it. -/
  | pending
  /-- A worker is starting it. -/
  | running
  /-- It is ready. -/
  | ready
  /-- It failed to start. -/
  | failed (message : String)
  deriving Repr, DecidableEq, Inhabited

/-- What the broker keeps for an enabled tier. -/
structure TierUnit where
  /-- The configuration of the tier. -/
  config : TierConfig
  /-- The family of the back-end. -/
  kind : CompilerKind
  /-- The queue. -/
  queue : CompileQueue
  /-- How far the back-end has come. -/
  init : InitState := .pending
  /-- The statistics of the back-end. -/
  stats : BackendStatistics := {}
  /-- The crew. -/
  crew : Crew := {}
  deriving Repr, DecidableEq, Inhabited

/-- The number of workers that a unit should have: one for so many queued tasks, as far as memory,
code space and the bound allow. -/
def TierUnit.desiredWorkers (u : TierUnit) (queued freeMemory freeCode : UInt64) : UInt64 :=
  min (min (min u.config.maxWorkers (queued / u.config.tasksPerThread))
    (freeMemory / u.config.memoryBudget)) (freeCode / u.config.codeBudget)

/-! ### The broker -/

/-- Whether jobs are taken. -/
inductive JobState where
  /-- They are. -/
  | run
  /-- They were stopped by hand. -/
  | stopped
  /-- They were stopped because a segment was full. -/
  | stoppedForCache
  /-- The broker was shut down. -/
  | shutDown
  deriving Repr, DecidableEq, Inhabited

/-- The last numbers drawn from the sequences. -/
structure IdCounters where
  /-- For standard compiles. -/
  standard : UInt32 := 0
  /-- For OSR entries. -/
  osr : UInt32 := 0
  /-- For native wrappers. -/
  native : UInt32 := 0
  deriving Repr, DecidableEq, Inhabited

namespace IdCounters

/-- The last number drawn from a sequence. -/
def last (c : IdCounters) : IdKind → UInt32
  | .standard => c.standard
  | .osr => c.osr
  | .native => c.native

/-- Draws the next number of a sequence. -/
def draw (c : IdCounters) : IdKind → UInt32 × IdCounters
  | .standard => (c.standard + 1, { c with standard := c.standard + 1 })
  | .osr => (c.osr + 1, { c with osr := c.osr + 1 })
  | .native => (c.native + 1, { c with native := c.native + 1 })

end IdCounters

/-- A broker. -/
structure Broker where
  /-- The configuration. -/
  config : Config
  /-- The units, in ascending order of their tiers. -/
  units : Table TierUnit
  /-- The classes. -/
  classes : Table ClassInfo := .empty
  /-- The methods. -/
  methods : Table Method := .empty
  /-- Every task there ever was. -/
  tasks : Table Task := .empty
  /-- Every worker there ever was. -/
  workers : Table Worker := .empty
  /-- The account of tasks. -/
  pool : TaskPool
  /-- The code cache. -/
  cache : CodeCache
  /-- The directives. -/
  directives : DirectiveStack
  /-- The statistics. -/
  stats : Statistics := {}
  /-- The pause gate. -/
  gate : PauseGate := {}
  /-- The recorder, if there is one. -/
  recorder : Option Recorder := none
  /-- The numbers drawn. -/
  ids : IdCounters := {}
  /-- Whether the broker was started. -/
  initialized : Bool := false
  /-- Whether compilation is disabled for good. -/
  disabled : Bool := false
  /-- Whether jobs are taken. -/
  jobs : JobState
  /-- The workers that have left their crews and were not waited for. -/
  retired : List WorkerId := []
  /-- The thread that holds the lock of the crews. -/
  crewLock : Option ThreadId := none
  /-- The bytes of memory that are free. -/
  freeMemory : UInt64
  /-- The time, in microseconds. -/
  clock : Nat := 0
  deriving Inhabited

namespace Broker

/-! ### Access -/

/-- The broker with one unit changed. -/
def modifyUnit (b : Broker) (u : UnitId) (f : TierUnit → TierUnit) : Broker :=
  { b with units := b.units.modify u f }

/-- The broker with the queue of one unit changed. -/
def modifyQueue (b : Broker) (u : UnitId) (f : CompileQueue → CompileQueue) : Broker :=
  b.modifyUnit u fun x => { x with queue := f x.queue }

/-- The broker with the crew of one unit changed. -/
def modifyCrew (b : Broker) (u : UnitId) (f : Crew → Crew) : Broker :=
  b.modifyUnit u fun x => { x with crew := f x.crew }

/-- The broker with one class changed. -/
def modifyClass (b : Broker) (c : ClassId) (f : ClassInfo → ClassInfo) : Broker :=
  { b with classes := b.classes.modify c f }

/-- The broker with one method changed. -/
def modifyMethod (b : Broker) (m : MethodId) (f : Method → Method) : Broker :=
  { b with methods := b.methods.modify m f }

/-- The broker with one task changed. -/
def modifyTask (b : Broker) (t : TaskId) (f : Task → Task) : Broker :=
  { b with tasks := b.tasks.modify t f }

/-- The broker with one worker changed. -/
def modifyWorker (b : Broker) (w : WorkerId) (f : Worker → Worker) : Broker :=
  { b with workers := b.workers.modify w f }

/-- The units with their numbers. -/
def unitIds (b : Broker) : List UnitId := List.range b.units.size

/-- The number of the unit that serves a tier. -/
def unitOf? (b : Broker) (tier : Tier) : Option UnitId :=
  b.units.toList.findIdx? (·.config.level == tier)

/-- The unit that serves a tier. -/
def unitAt? (b : Broker) (tier : Tier) : Option TierUnit :=
  b.units.toList.find? (·.config.level == tier)

/-- The enabled tiers. -/
def tiers (b : Broker) : List Tier := b.units.toList.map (·.config.level)

/-- Every worker that has not left its crew. -/
def liveWorkers (b : Broker) : List WorkerId := b.units.toList.flatMap (·.crew.live)

/-- Whether the class of a method is unloaded. -/
def isUnloaded (b : Broker) (m : Method) : Bool :=
  match b.classes[m.holder]? with
  | some c => c.unloaded
  | none => false

/-- Whether the initializer of the class of a method has run. -/
def isInitialized (b : Broker) (m : Method) : Bool :=
  match b.classes[m.holder]? with
  | some c => c.initialized
  | none => false

/-! ### The state of the whole -/

/-- Whether new jobs are taken. The two parts are read one after the other without a lock; as being
disabled is for good, the answer is the one of a single moment between the two. -/
def accepting (b : Broker) : Bool := b.jobs == .run && !b.disabled

/-- Whether workers are to leave. Neither part is ever undone, so again one moment answers. -/
def exiting (b : Broker) : Bool := b.disabled || b.jobs == .shutDown

/-- The broker with the jobs moved from one state to another, if they are in the first. -/
def moveJobs (b : Broker) (old new : JobState) : Broker :=
  if b.jobs = old then { b with jobs := new } else b

/-- Stops or takes up jobs by hand. -/
def accept (b : Broker) (on : Bool) : Broker :=
  if on then b.moveJobs .stopped .run else b.moveJobs .run .stopped

/-- Draws a compile number. -/
def drawId (b : Broker) (kind : IdKind) : UInt32 × Broker :=
  ((b.ids.draw kind).1, { b with ids := (b.ids.draw kind).2 })

/-- The directive for a method and a family of compilers. -/
def directiveFor (b : Broker) (m : Method) (kind : CompilerKind) : Directive :=
  b.directives.lookup m.className m.name kind

/-! ### Building a broker -/

/-- What a broker is built from, beside its configuration. -/
structure Parts where
  /-- The families of the registered back-ends, by tier. -/
  backends : List (Tier × CompilerKind)
  /-- The policy of every queue. -/
  selector : Selector := .hottest
  /-- The code cache. -/
  cache : CodeCache := .standard
  /-- The directives. -/
  directives : DirectiveStack := .new
  /-- The recorder, if there is one. -/
  recorder : Option Recorder := none
  /-- The bytes of memory that are free. -/
  freeMemory : UInt64

/-- Inserts a unit in ascending order of tiers. -/
def insertUnit (x : TierUnit) : List TierUnit → List TierUnit
  | [] => [x]
  | y :: rest =>
    if x.config.level < y.config.level then x :: y :: rest else y :: insertUnit x rest

/-- The unit of a configured tier. -/
def makeUnit (parts : Parts) (t : TierConfig) : Except BrokerError TierUnit :=
  match parts.backends.lookup t.level with
  | some kind => .ok { config := t, kind := kind, queue := .forTier t parts.selector }
  | none => .error (.backendInitFailure (.noCompiler t.level))

/-- The broker for a configuration, before its workers have started. -/
def assemble (config : Config) (parts : Parts) : Except BrokerError Broker := do
  match config.validate with
  | .error fault => throw (.unavailable (.invalidConfig fault))
  | .ok () =>
    let units ← config.enabledTiers.mapM (makeUnit parts)
    return {
      config := config
      units := ⟨(units.foldl (fun sorted x => insertUnit x sorted) []).toArray⟩
      pool := { capacity := config.maxLiveTasks }
      cache := parts.cache
      directives := parts.directives
      recorder := parts.recorder
      jobs := if config.acceptDefault then .run else .stopped
      freeMemory := parts.freeMemory }

/-- How many workers a unit starts with. -/
def initialWorkers (b : Broker) (u : TierUnit) : Nat :=
  if b.config.dynamicPool then 1 else u.config.maxWorkers.toNat

/-! ### Listings -/

/-- A task as a line of a listing. -/
def taskLine (b : Broker) (t : TaskId) : String :=
  match b.tasks[t]? with
  | some task =>
    match b.methods[task.method]? with
    | some m => task.line m
    | none => ""
  | none => ""

/-- The listing of a queue. -/
def queueListing (b : Broker) (q : CompileQueue) : String :=
  q.name ++ s!" ({q.size} tasks, selector {q.selector.name}):\n"
    ++ if q.list.isEmpty then "  Empty\n"
      else String.join (q.list.toList.map fun t => b.taskLine t ++ "\n")

/-- The listing of every queue. -/
def queueListings (b : Broker) : String :=
  String.join (b.units.toList.map fun u => b.queueListing u.queue)

/-- The lines of the tasks that workers are at work on. -/
def currentLines (b : Broker) : List String :=
  b.liveWorkers.filterMap fun w => do
    let worker ← b.workers[w]?
    let t ← worker.current
    return "  " ++ worker.name ++ ": " ++ b.taskLine t

/-- The broker in a word. -/
def summary (b : Broker) : String :=
  "CompileBroker \x7b tiers: [" ++ ", ".intercalate (b.tiers.map toString) ++ "], disabled: "
    ++ toString b.disabled ++ " \x7d"

end Broker

end JitBroker
