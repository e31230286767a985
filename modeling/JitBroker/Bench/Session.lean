import JitBroker.Bench.Running

/-!
# Sessions

A session sets up a bench and makes its steps one after the other, each followed by a wait until
the bench is quiet, and reports what each step showed. Requests, replays and shutting down are
calls of threads of their own; one that cannot return yet is reported as pending, and its result
with the step after which it had returned. Every other call returns at once.
-/

namespace JitBroker.Bench

/-! ### Directives -/

/-- The sets that a step pushes. -/
def DirectiveStep.pushed : DirectiveStep → Except DirectiveError (List DirectiveSet)
  | .pushText text => DirectiveSet.ofText Json.ofText? text
  | .push s => do
    let patterns ← s.patterns.mapM MethodPattern.read
    return [if s.isDefault then .default else .uniform patterns s.directive]
  | _ => .ok []

/-- The answer of a push. -/
def pushAnswer (stack : DirectiveStack) (s : DirectiveStep) (ok : Nat → Json) : Json :=
  match s.pushed with
  | .error e => e.toJson
  | .ok sets =>
    match stack.pushAll sets with
    | .error e => e.toJson
    | .ok _ => ok sets.length

/-- The answer of a step on directives. -/
def DirectiveStep.answer (stack : DirectiveStack) (s : DirectiveStep) : Json :=
  match s with
  | .pushText _ => pushAnswer stack s .count
  | .push _ => pushAnswer stack s fun _ => .null
  | .pop count => .count (stack.pop count).1
  | .clear => .null
  | .lookup className method kind => (stack.lookup className method kind).toJson
  | .list => .str stack.listing

/-- What a step does to the directives. -/
def DirectiveStep.operations (stack : DirectiveStack) (s : DirectiveStep) : List Operation :=
  match s with
  | .pushText _ | .push _ =>
    match s.pushed with
    | .ok sets => [.pushDirectives sets]
    | .error _ => []
  | .pop count => [.popDirectives count]
  | .clear => [.popDirectives stack.depth]
  | .lookup _ _ _ | .list => []

/-! ### Calls -/

/-- What a thread was left with when it had nothing left to do. -/
def returned? (b : Bench) (p : Pending) : Option Json :=
  match b.system.threads[p.thread]? with
  | none => none
  | some t =>
    if t.agenda.isEmpty then
      match t.reply with
      | some (.outcome o) =>
        some (if p.plain then .ofOption InstalledCode.toJson o.code? else o.toJson)
      | some (.replayed s) => some s.toJson
      | some (.misused e) => some e.toJson
      | some (.flag x) => some (.bool x)
      | _ => some (.str "down")
    else none

/-- Gives a call to a new thread. -/
def begin (b : Bench) (step : Nat) (call : Call) (initializers : Nat) (plain : Bool) :
    Pending × Bench :=
  (⟨b.system.threads.size, step, plain⟩, { b with system := b.system.call call initializers })

/-- The result of a call on a quiet bench, or a note that it is pending. -/
def result (b : Bench) (p : Pending) : Json × Bench :=
  match b.returned? p with
  | some v => (v, b)
  | none => (.str "pending", { b with pending := b.pending ++ [p] })

/-- Makes a call and waits until the bench is quiet. -/
def callAndSettle (b : Bench) (step : Nat) (call : Call) (initializers : Nat) (plain : Bool) :
    Json × Bench :=
  let (p, b) := b.begin step call initializers plain
  b.settle.result p

/-- Makes a request. -/
def request (b : Bench) (step : Nat) (r : RequestSpec) : Json × Bench :=
  let (m, b) := b.intern r.label
  b.callAndSettle step (.request (r.request m)) r.initializers r.plain

/-- Makes a request for a label with each of so many numbers. -/
def requestMany (step : Nat) (r : RequestSpec) (i : Nat) : Nat → Bench → List Json × Bench
  | 0, b => ([], b)
  | n + 1, b =>
    let (v, b) := b.request step { r with label := r.label ++ toString i }
    let (vs, b) := requestMany step r (i + 1) n b
    (v :: vs, b)

/-- Begins several requests at once. -/
def beginAll (step : Nat) : List RequestSpec → Bench → List Pending × Bench
  | [], b => ([], b)
  | r :: rest, b =>
    let (m, b) := b.intern r.label
    let (p, b) := b.begin step (.request (r.request m)) r.initializers r.plain
    let (ps, b) := beginAll step rest b
    (p :: ps, b)

/-- The results of several calls. -/
def results : List Pending → Bench → List Json × Bench
  | [], b => ([], b)
  | p :: rest, b =>
    let (v, b) := b.result p
    let (vs, b) := results rest b
    (v :: vs, b)

/-- Inserts a text in ascending order. -/
def insertText (s : String) : List String → List String
  | [] => [s]
  | t :: rest => if s < t then s :: t :: rest else t :: insertText s rest

/-- The texts in ascending order. -/
def sortTexts (texts : List String) : List String := texts.foldr insertText []

/-! ### Held compiles -/

/-- The place of a kind of number among held compiles. -/
def kindOrder : IdKind → Nat
  | .standard => 0
  | .osr => 1
  | .native => 2

/-- Whether a held compile comes before another one. -/
def holdsBefore (a b : CompileRecord) : Bool :=
  if a.tier ≠ b.tier then decide (a.tier < b.tier)
  else if kindOrder a.kind ≠ kindOrder b.kind then decide (kindOrder a.kind < kindOrder b.kind)
  else decide (a.id < b.id)

/-- Inserts a held compile in its place. -/
def insertHeld (x : ThreadId × CompileRecord) :
    List (ThreadId × CompileRecord) → List (ThreadId × CompileRecord)
  | [] => [x]
  | y :: rest => if holdsBefore x.2 y.2 then x :: y :: rest else y :: insertHeld x rest

/-- The compiles that wait at the gate of the bench, in order. -/
def held (b : Bench) : List (ThreadId × CompileRecord) :=
  let waiting := b.jobs.filterMap fun j =>
    match j.chores with
    | .hold :: _ => if b.passes j then none else b.records[j.record]?.map fun r => (j.thread, r)
    | _ => none
  waiting.foldr insertHeld []

/-- Lets the first held compile, of a tier if one is given, go on. -/
def release (b : Bench) (tier : Option Tier) : Option (String × Bench) :=
  match b.held.find? fun (_, r) => tier.all (r.tier == ·) with
  | some (i, r) => some (r.key, (b.modifyJob i fun j => { j with released := true }).settle)
  | none => none

/-- Lets held compiles go on until there is none; the count bounds how many. -/
def releaseAll : Nat → Bench → List String × Bench
  | 0, b => ([], b)
  | n + 1, b =>
    match b.release none with
    | some (key, b) =>
      let (keys, b) := releaseAll n b
      (key :: keys, b)
    | none => ([], b)

/-! ### What is shown -/

/-- The live workers of a tier. -/
def crew (b : Bench) (tier : Tier) : List Worker :=
  match b.broker.unitAt? tier with
  | some unit => unit.crew.live.filterMap fun w => b.broker.workers[w]?
  | none => []

/-- The size of a crew and the greatest it ever had. -/
def crewSize (b : Bench) (tier : Tier) : Nat × Nat :=
  match b.broker.unitAt? tier with
  | some unit => (unit.crew.count, unit.crew.peak)
  | none => (0, 0)

/-- The workers that have left their crews. -/
def retired (b : Bench) : List Worker :=
  let live := b.broker.liveWorkers
  ((List.range b.broker.workers.size).filter (!live.contains ·)).filterMap fun w =>
    b.broker.workers[w]?

/-- The back-end of a tier. -/
def backendToJson (b : Bench) (tier : Tier) : Json :=
  match b.broker.unitAt? tier, b.rig? tier with
  | some unit, some r =>
    .obj [("standard", unit.stats.standard.toJson), ("osr", unit.stats.osr.toJson),
      ("size", .word unit.stats.codeSize), ("code", .word unit.stats.instructionsSize),
      ("name", .str r.spec.name), ("kind", .str r.kind.name), ("init_count", .count r.inits),
      ("stub_compiles", .count r.compiles.length),
      ("stub_installs", .arr (r.compiles.reverse.map fun c => .bool c.1)),
      ("stub_bcis", .arr (r.compiles.reverse.map fun c => .int c.2)),
      ("stub_ticks", .ofOption .word r.ticks), ("polls", .count r.polls)]
  | _, _ => .null

/-- The labels of the queued methods. -/
def queuedLabels (b : Bench) : List String :=
  b.broker.units.toList.flatMap fun unit =>
    unit.queue.list.toList.filterMap fun t => (b.broker.tasks[t]?).map fun x => b.labelOf x.method

/-- The labels of the recorded methods whose classes are not unloaded. -/
def recordedLabels (b : Bench) (r : Recorder) : List String :=
  r.records.filterMap fun d => do
    let m ← b.broker.methods[d.method]?
    if b.broker.isUnloaded m then none else some (b.labelOf d.method)

/-- The events from a position on. -/
def eventsFrom (b : Bench) (position : Nat) : Json :=
  .arr ((b.broker.stats.eventsFrom position).map fun e => e.toJson (b.labelOf e.method))

/-- The state of the broker. -/
def stateToJson (b : Bench) : Json :=
  .obj [("disabled", .bool b.broker.disabled), ("accepting", .bool b.broker.accepting),
    ("initialized", .bool b.broker.initialized),
    ("tiers", .arr (b.broker.tiers.map fun t => .count t.toNat))]

/-- Whether a class initializer is active before, between and after so many of them are entered
and left again. -/
def activity (depth : Nat) : List Bool :=
  false :: List.replicate depth true ++ (List.range depth).reverse.map fun left => decide (0 < left)

/-! ### Steps -/

/-- Makes a step, and tells what it shows. -/
def run (b : Bench) (index : Nat) : Step → Json × Bench
  | .request r => b.request index r
  | .requestMany r count =>
    let (vs, b) := requestMany index r 0 count b
    (.arr vs, b)
  | .contend rs =>
    let (ps, b) := beginAll index rs b
    let (vs, b) := results ps b.settle
    (.arr ((sortTexts (vs.map fun v => v.normalize.text)).map .str), b)
  | .method label s => b.stepOnLabel label s
  | .hold => (.null, { b with gateOpen := false })
  | .release tier =>
    match b.release tier with
    | some (key, b) => (.str key, b)
    | none => (.null, b)
  | .openGate =>
    let (keys, b) := releaseAll stepLimit b
    (.arr (keys.map .str), { b with gateOpen := true })
  | .openInit tier =>
    match b.rig? tier with
    | some r =>
      if r.spec.initGated then (.bool true, b.modifyRig tier fun r => { r with initOpen := true })
      else (.null, b)
    | none => (.null, b)
  | .openStub tier =>
    match b.rig? tier with
    | some r =>
      if r.spec.stubGated then (.bool true, b.modifyRig tier fun r => { r with stubOpen := true })
      else (.null, b)
    | none => (.null, b)
  | .pause => (.count b.guards.length, { b.operate .pause with guards := b.guards ++ [true] })
  | .resume guard =>
    if b.guards[guard]? = some true then
      (.bool true, { b.operate .unpause with guards := b.guards.set guard false })
    else (.bool false, b)
  | .gate => (.arr [.bool b.broker.gate.requested, .count b.broker.gate.parked], b)
  | .waitParked count ms =>
    let enough (b : Bench) := decide (count ≤ b.broker.gate.parked)
    let b := b.waitFor enough ms
    (.bool (enough b), b)
  | .behave tier s => (.null, b.modifyRig tier fun r => { r with behavior := s })
  | .script tier actions =>
    let b := b.addScript tier actions
    (.count (b.scriptCount tier), b)
  | .decompile d =>
    let (m, b) := b.intern d.label
    b.callAndSettle index (.decompile ⟨m, d.bci, d.tier⟩) 0 false
  | .disable => (.null, (b.callAndSettle index .disable 0 false).2)
  | .shutdown => b.callAndSettle index .shutdown 0 false
  | .cacheFull kind => (.null, (b.callAndSettle index (.cacheFull kind) 0 false).2)
  | .accept on => (.null, (b.callAndSettle index (.accept on) 0 false).2)
  | .state => (b.stateToJson, b)
  | .stats => (b.broker.stats.toJson, b)
  | .queueStats tier =>
    (.ofOption (fun unit => unit.queue.countersToJson) (b.broker.unitAt? tier), b)
  | .pool => (b.broker.pool.toJson, b)
  | .backend tier => (b.backendToJson tier, b)
  | .workers tier => (.arr ((b.crew tier).map Worker.toJson), b)
  | .workerCount tier => (.arr [.count (b.crewSize tier).1, .count (b.crewSize tier).2], b)
  | .waitWorkers tier count =>
    let b := b.waitFor (fun b => decide ((b.crewSize tier).1 ≤ count)) 3000
    (.arr [.count (b.crewSize tier).1, .count (b.crewSize tier).2], b)
  | .retired => (.arr ((sortTexts (b.retired.map (·.name))).map .str), b)
  | .log tier i =>
    (.ofOption (fun w => .arr (w.log.entries.map LogEntry.toJson))
      ((b.crew tier).find? (·.index == i)), b)
  | .list =>
    (.obj [("queues", .str b.broker.queueListings),
      ("current", .arr ((sortTexts b.broker.currentLines).map .str))], b)
  | .visit => (.arr (b.queuedLabels.map .str), b)
  | .cache =>
    (.obj [("free", b.broker.cache.freeToJson), ("used", .word b.broker.cache.totalUsed),
      ("regions", .count b.broker.cache.regionCount), ("full", .count b.broker.cache.fullCount)], b)
  | .drawId kind => (.count (b.broker.drawId kind).1.toNat, b.operate (.drawId kind))
  | .compiles =>
    (.arr ((b.records.toList.drop b.shown).map CompileRecord.toJson),
      { b with shown := b.records.size })
  | .startRecording =>
    match b.broker.recorder with
    | none => (.null, b)
    | some r =>
      match r.start with
      | .ok _ => (.null, b.operate .startRecording)
      | .error e => (e.toJson, b)
  | .record d =>
    let (m, b) := b.intern d.label
    match b.broker.recorder with
    | none => (.null, b)
    | some r => (.bool r.isRecording, b.operate (.record ⟨m, d.bci, d.tier⟩))
  | .recorder =>
    (.ofOption (fun r => .obj [("recording", .bool r.isRecording),
      ("count", .count r.records.length),
      ("visit", .arr ((b.recordedLabels r).map .str))]) b.broker.recorder, b)
  | .replay =>
    match b.broker.recorder with
    | none => (.null, b)
    | some _ => b.callAndSettle index .replay 0 false
  | .directive s =>
    (s.answer b.broker.directives, (s.operations b.broker.directives).foldl operate b)
  | .subscribe =>
    (.count b.subscriptions.length,
      { b with subscriptions := b.subscriptions ++ [some b.broker.stats.events.size] })
  | .drain subscription =>
    match b.subscriptions[subscription]? with
    | some (some position) =>
      (b.eventsFrom position, { b with
        subscriptions := b.subscriptions.set subscription (some b.broker.stats.events.size) })
    | _ => (.null, b)
  | .unsubscribe subscription =>
    match b.subscriptions[subscription]? with
    | some state =>
      (.bool state.isSome, { b with subscriptions := b.subscriptions.set subscription none })
    | none => (.null, b)
  | .initializers depth => (.arr ((activity depth).map .bool), b)
  | .sleep ms => (.null, b.waitFor (fun _ => false) ms)
  | .nothing => (.null, b)

/-- The calls that have returned, and those that have not. -/
def resolve (b : Bench) : List Json × List Pending :=
  (b.pending.filterMap fun p =>
      (b.returned? p).map fun v => .obj [("step", .count p.step), ("r", v)],
    b.pending.filter fun p => (b.returned? p).isNone)

/-- Makes a step, waits until the bench is quiet, and reports. -/
def report (b : Bench) (index : Nat) (s : Step) : Json × Bench :=
  let (r, b) := b.run index s
  let b := b.settle
  let (resolved, pending) := b.resolve
  (.obj [("r", r), ("events", b.eventsFrom b.position), ("resolved", .arr resolved),
      ("held", .arr (b.held.map fun h => .str h.2.key)),
      ("queued", .arr (b.broker.units.toList.map fun unit =>
        .arr [.count unit.config.level.toNat, .count unit.queue.size])),
      ("live", .count b.broker.pool.live)],
    { b with pending := pending, position := b.broker.stats.events.size })

/-- Makes the steps, and reports on each. -/
def reports (index : Nat) : List Step → Bench → List Json
  | [], _ => []
  | s :: rest, b =>
    let (v, b) := b.report index s
    v :: reports (index + 1) rest b

end Bench

namespace Bench.Session

/-- The description of the back-end of a tier, if there is to be one. -/
def backend? (s : Session) (t : TierConfig) : Option BackendSpec :=
  match s.backends.lookup t.level with
  | some spec => spec
  | none => some {}

/-- The back-ends. -/
def rigs (s : Session) : List Rig :=
  s.config.tiers.filterMap fun t => (s.backend? t).map (Rig.ofSpec t)

/-- The bench of a session, with a broker that has been started. -/
def start (s : Session) : Except BrokerError Bench := do
  let parts : Broker.Parts := {
    backends := s.rigs.map fun r => (r.tier, r.kind)
    selector := s.selector
    cache := match s.cache with
      | some (a, b, c) => .ofCapacities a b c
      | none => .standard
    directives := match s.directivesLimit with
      | some limit => .withLimit limit
      | none => .new
    recorder := if s.hasRecorder then some {} else none
    freeMemory := s.memory }
  let broker ← Broker.assemble s.config parts
  let b : Bench := {
    system := .launch broker
    ageless := s.ageless
    rigs := s.rigs
    gateOpen := !s.hold
    uninitialized := s.uninitialized }
  return (s.methods.foldl Bench.addMethod b).settle

/-- The report of a session. -/
def report (s : Session) : Json :=
  match s.start with
  | .error e => .obj [("init", e.toJson)]
  | .ok b =>
    .obj [("init", .obj [("ok", .str b.broker.summary),
        ("initialized", .bool b.broker.initialized), ("disabled", .bool b.broker.disabled),
        ("accepting", .bool b.broker.accepting)]),
      ("steps", .arr (Bench.reports 0 s.steps b))]

end Bench.Session

end JitBroker
