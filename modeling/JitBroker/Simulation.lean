import JitBroker.Bench.Running
import JitBroker.Random
import JitBroker.Simulation.Workload

/-!
# Simulations

A simulation lets threads of an application request the compilation of methods. Each thread draws
its requests at random: methods with low numbers more often than others, the lowest tier until a
method has code of it and then the highest, one request in ten for an OSR entry, and a given share
of them blocking. The compilers are stubs, which take the longer the more they are said to optimize.

The threads make their requests in rounds: in each round every thread makes one, and if somebody
waits, time passes until nobody does. In the end the queues run empty. If code is to be restored,
the code of every fourth method is then decompiled while it is recorded, and requested again.
-/

namespace JitBroker

/-- How many requests had which outcome. -/
structure Tally where
  /-- There was code, or there is now. -/
  installed : Nat := 0
  /-- The task was queued. -/
  queued : Nat := 0
  /-- The compile failed. -/
  failed : Nat := 0
  /-- The requester gave up. -/
  abandoned : Nat := 0
  /-- The request was refused. -/
  rejected : Nat := 0
  deriving Repr, DecidableEq, Inhabited

namespace Tally

/-- The tally with one more outcome. -/
def count (t : Tally) : Outcome → Tally
  | .installed _ => { t with installed := t.installed + 1 }
  | .queued _ => { t with queued := t.queued + 1 }
  | .failed _ _ => { t with failed := t.failed + 1 }
  | .abandoned _ => { t with abandoned := t.abandoned + 1 }
  | .rejected _ => { t with rejected := t.rejected + 1 }

/-- How many requests are counted. -/
def total (t : Tally) : Nat := t.installed + t.queued + t.failed + t.abandoned + t.rejected

end Tally

/-- What came of a simulation. -/
structure Simulation where
  /-- The broker in the end. -/
  broker : Broker
  /-- The outcomes. -/
  tally : Tally
  /-- What became of the code that was restored, if it was. -/
  replay : Option ReplaySummary
  /-- Where the random numbers began. -/
  seed : UInt64
  deriving Inhabited

/-- Why there is no simulation. -/
inductive SimulationFault where
  /-- The broker could not be built. -/
  | broker (e : BrokerError)
  /-- No tier is enabled. -/
  | noTiers
  /-- So many tasks were left in the queues. -/
  | notDrained (queued : Nat)
  deriving Repr, DecidableEq

/-- The text of a fault. -/
def SimulationFault.message : SimulationFault → String
  | .broker e => e.message
  | .noTiers => "no tiers configured"
  | .notDrained queued => s!"compile queues did not drain: {queued} tasks queued"

namespace Workload

/-- How much longer a compiler of a family takes. -/
def costFactor : CompilerKind → UInt64
  | .c1 => 1
  | .c2 => 5
  | .external => 10

/-- The most classes that the methods are spread over. -/
def classLimit : Nat := 16

/-- A method of the workload. -/
def method (w : Workload) (i : Nat) : Bench.MethodSpec where
  label := s!"app/Class{i % min classLimit w.methods}::method{i}"
  className := none
  name := none
  size := UInt64.ofNat (16 + i * 37 % 900)
  native := none
  isAbstract := false
  isIntrinsic := false

/-- The stub of a tier. -/
def stub (w : Workload) (t : TierConfig) : Bench.Rig :=
  .ofSpec t {
    name := t.compiler.name ++ " stub"
    delay := (w.compileTime * costFactor t.compiler).toNat }

/-- A bench with a broker, stubs and the methods. -/
def start (w : Workload) (config : Config) (directives : DirectiveStack) :
    Except BrokerError Bench := do
  let stubs := config.enabledTiers.map w.stub
  let broker ← Broker.assemble config {
    backends := stubs.map fun r => (r.tier, r.kind)
    directives := directives
    recorder := some {}
    freeMemory := 0x10000000000 }
  let b : Bench := { system := .launch broker, rigs := stubs }
  return (((List.range w.methods).map w.method).foldl Bench.addMethod b).settle

/-! ### Requests -/

/-- Draws a request. -/
def nextRequest (w : Workload) (b : Broker) (low high : Tier) (r : RandomWords) :
    Request × RandomWords :=
  let (x, r) := r.fraction
  let m := (x * x * Float.ofNat w.methods).toUInt64.toNat % w.methods
  let tier := match (b.methods[m]?).bind (·.code) with
    | some code => if code.tier = low then high else low
    | none => low
  let (hot, r) := r.between 1 10000
  let (blocking, r) := r.chance w.blockingRatio
  let (osr, r) := r.chance (1.0 / 10.0)
  let (bci, r) := if osr then r.between 1 64 else (0, r)
  ({ method := m
     bci := if osr then bci else invocationEntry
     tier := tier
     hot := UInt32.ofNat hot
     reason := if osr then .backedgeCount else .tiered
     blocking := blocking }, r)

/-- Begins a request of each thread, and tells the numbers of the calls. -/
def beginRound (w : Workload) (low high : Tier) :
    List RandomWords → Bench → List ThreadId × List RandomWords × Bench
  | [], b => ([], [], b)
  | r :: rest, b =>
    let (request, r) := w.nextRequest b.broker low high r
    let call := b.system.threads.size
    let b := { b with system := b.system.call (.request request) 0 }
    let (calls, rs, b) := beginRound w low high rest b
    (call :: calls, r :: rs, b)

/-- The outcome that a call has left. -/
def outcome? (b : Bench) (call : ThreadId) : Option Outcome :=
  match b.system.threads[call]? with
  | some t =>
    match t.agenda, t.reply with
    | [], some (.outcome o) => some o
    | _, _ => none
  | none => none

/-- Lets the calls of a round run, and time pass if somebody waits. A round takes a microsecond. -/
def runRound (calls : List ThreadId) (b : Bench) : Bench :=
  let b := Bench.runAll Bench.stepLimit b
  let b := if calls.all fun c => (outcome? b c).isSome then b else b.settle
  b.passTo (b.broker.clock + 1)

/-- Makes so many rounds. -/
def rounds (w : Workload) (low high : Tier) :
    Nat → List RandomWords → Tally → Bench → Tally × Bench
  | 0, _, tally, b => (tally, b)
  | n + 1, rs, tally, b =>
    let (calls, rs, b) := w.beginRound low high rs b
    let b := runRound calls b
    rounds w low high n rs ((calls.filterMap (outcome? b)).foldl Tally.count tally) b

/-! ### The end -/

/-- Lets the queues run empty. -/
def drain (b : Bench) : Except SimulationFault Bench :=
  let b := b.settle
  let queued := b.broker.units.toList.foldl (fun n u => n + u.queue.size) 0
  if queued = 0 ∧ b.broker.pool.live = 0 then .ok b else .error (.notDrained queued)

/-- Makes a call and waits until the bench is quiet. -/
def callAndSettle (b : Bench) (c : Call) : Bench := ({ b with system := b.system.call c 0 }).settle

/-- Decompiles the standard code of a method. -/
def discard (b : Bench) (m : MethodId) : Bench :=
  match (b.broker.methods[m]?).bind (·.code) with
  | some code => callAndSettle b (.decompile ⟨m, invocationEntry, code.tier⟩)
  | none => b

/-- Decompiles the code of every fourth method, and requests it again. -/
def restore (w : Workload) (b : Bench) : ReplaySummary × Bench :=
  let b := b.operate .startRecording
  let chosen := (List.range w.methods).filter (· % 4 = 0)
  let b := chosen.foldl discard b
  let call := b.system.threads.size
  let b := callAndSettle b .replay
  match (b.system.threads[call]?).bind (·.reply) with
  | some (.replayed s) => (s, b)
  | _ => ({}, b)

/-- Runs the workload. -/
def run (w : Workload) (config : Config) (directives : DirectiveStack) :
    Except SimulationFault Simulation := do
  let b ← (w.start config directives).mapError .broker
  match b.broker.tiers with
  | [] => throw .noTiers
  | low :: rest =>
    let streams := (List.range w.threads).map fun i => RandomWords.ofSeed (w.seed + UInt64.ofNat i)
    let (tally, b) := w.rounds low (rest.getLastD low) w.requests streams {} b
    let b ← drain b
    let (replay, b) ← if w.restores then do
        let (summary, b) := w.restore b
        let b ← drain b
        pure (some summary, b)
      else pure (none, b)
    return { broker := b.broker, tally := tally, replay := replay, seed := w.seed }

end Workload

end JitBroker
