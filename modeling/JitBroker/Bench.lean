import JitBroker.Bench.Script
import JitBroker.Report
import JitBroker.System

/-!
# The test bench

The bench runs a broker under control: it decides which thread moves, it keeps the time, and it
plays the back-ends. It holds

* the system of broker and threads;
* for each configured tier a rig, which is a stub with gates around it;
* the scripts that wait for a compile, also for tiers at which there is no back-end;
* for each compile under way a job, the chores that are left of what its back-end does;
* a record of every compile, with what its script's actions came to;
* labels for methods, guards of the pause gate, subscriptions, and calls that have not returned.
-/

namespace JitBroker.Bench

/-- The back-end of a tier on the bench. -/
structure Rig where
  /-- The tier. -/
  tier : Tier
  /-- Its family. -/
  kind : CompilerKind
  /-- How it was described. -/
  spec : BackendSpec
  /-- What its compiles do. -/
  behavior : StubBehavior
  /-- Whether it may start. -/
  initOpen : Bool
  /-- Whether its compiles may go on. -/
  stubOpen : Bool
  /-- How far it has come. -/
  progress : UInt64 := 0
  /-- How often it was asked for its progress. -/
  polls : Nat := 0
  /-- How often it was started. -/
  inits : Nat := 0
  /-- The compiles of the stub, latest first: whether code was to be installed, and the entry. -/
  compiles : List (Bool × Int) := []
  deriving Inhabited

namespace Rig

/-- The back-end that was described for a tier. -/
def ofSpec (t : TierConfig) (spec : BackendSpec) : Rig where
  tier := t.level
  kind := spec.kind.getD t.compiler
  spec := spec
  behavior := spec.behavior
  initOpen := !spec.initGated
  stubOpen := !spec.stubGated

/-- The progress of the stub, which only external ones tell. -/
def ticks (r : Rig) : Option UInt64 := if r.kind = .external then some r.progress else none

/-- Asks for the progress. -/
def poll (r : Rig) : Option UInt64 × Rig :=
  let polls := r.polls + 1
  let answer := match r.spec.ticks with
    | some most => some (min (UInt64.ofNat polls) most)
    | none => r.ticks
  (answer, { r with polls := polls })

/-- The stub after one more bit of progress. -/
def tick (r : Rig) : Rig := if r.spec.noProgress then r else { r with progress := r.progress + 1 }

end Rig

/-- What a call that a script's action makes is to leave behind. -/
inductive Note where
  /-- Nothing. -/
  | nothing
  /-- What the thread was left with. -/
  | reply
  deriving Repr, DecidableEq, Inhabited

/-- What is left of a compile. -/
inductive Chore where
  /-- Pass the gate of the bench. -/
  | hold
  /-- Take the next script, or do what the stub does. -/
  | pick
  /-- Do what a script says. -/
  | act (a : ScriptAction)
  /-- Make a move. -/
  | move (m : BackendMove)
  /-- Note what a call has left behind. -/
  | note (n : Note)
  /-- Begin a compile of the stub. -/
  | stub
  /-- Pass the gate of the stub. -/
  | stubGate
  /-- Begin to take so much time. -/
  | nap (time : Nat)
  /-- Take time until a moment. -/
  | napping (due : Nat)
  /-- Make progress. -/
  | tick
  /-- Use scratch memory. -/
  | scratch
  /-- End a compile of the stub. -/
  | stubEnd
  /-- Close the record. -/
  | close
  deriving Repr, Inhabited

/-- A compile under way. -/
structure Job where
  /-- The thread. -/
  thread : ThreadId
  /-- The number of the record. -/
  record : Nat
  /-- Whether it may pass the closed gate of the bench. -/
  released : Bool := false
  /-- What is left to do. -/
  chores : List Chore
  deriving Inhabited

/-- The record of a compile. -/
structure CompileRecord where
  /-- The tier of the task. -/
  tier : Tier
  /-- The kind of its number. -/
  kind : IdKind
  /-- Its number. -/
  id : UInt32
  /-- What does not change any more. -/
  fields : List (String × Json)
  /-- What the actions came to, the latest first. -/
  acts : List Json := []
  /-- Whether a failure had been reported at the end, if there has been an end. -/
  failing : Option Bool := none
  deriving Inhabited

namespace CompileRecord

/-- How the compile is named. -/
def key (r : CompileRecord) : String := s!"{r.tier}:{r.kind.name}:{r.id}"

/-- The record in a report. -/
def toJson (r : CompileRecord) : Json :=
  .obj (("key", .str r.key) :: r.fields ++
    match r.failing with
    | some failing => [("acts", .arr r.acts.reverse), ("failing", .bool failing)]
    | none => [("acts", .null)])

end CompileRecord

/-- A call that has not returned. -/
structure Pending where
  /-- The thread. -/
  thread : ThreadId
  /-- The step that made it. -/
  step : Nat
  /-- Whether only the code is of interest. -/
  plain : Bool
  deriving Repr, DecidableEq, Inhabited

end Bench

/-- A bench. -/
structure Bench where
  /-- The broker and its threads. -/
  system : System
  /-- Whether tasks that wait do not age. -/
  ageless : Bool := false
  /-- The threads seen so far that had something left to do, in the order of their turns. -/
  active : List ThreadId := []
  /-- How many threads have been seen so far. -/
  seen : Nat := 0
  /-- The back-ends. -/
  rigs : List Bench.Rig := []
  /-- The scripts that wait, and for which tier, oldest first. -/
  scripts : List (Tier × List Bench.ScriptAction) := []
  /-- Whether compiles pass the gate of the bench. -/
  gateOpen : Bool := true
  /-- The compiles under way. -/
  jobs : List Bench.Job := []
  /-- The records. -/
  records : Table Bench.CompileRecord := .empty
  /-- How many records were shown. -/
  shown : Nat := 0
  /-- The labels and what they name, the latest first. -/
  labels : List (String × MethodId) := []
  /-- The classes by name. -/
  classes : List (String × ClassId) := []
  /-- The classes whose initializers have not run when they become known. -/
  uninitialized : List String := []
  /-- For each guard, whether it is alive. -/
  guards : List Bool := []
  /-- The position of the bench itself in the events. -/
  position : Nat := 0
  /-- The positions of the subscriptions that have not ended. -/
  subscriptions : List (Option Nat) := []
  /-- The calls that have not returned. -/
  pending : List Bench.Pending := []
  deriving Inhabited

namespace Bench

/-- The broker. -/
def broker (b : Bench) : Broker := b.system.broker

/-- The bench after an operation. -/
def operate (b : Bench) (o : Operation) : Bench := { b with system := b.system.operate o }

/-- The back-end of a tier. -/
def rig? (b : Bench) (tier : Tier) : Option Rig := b.rigs.find? (·.tier == tier)

/-- The bench with the back-end of a tier changed. -/
def modifyRig (b : Bench) (tier : Tier) (f : Rig → Rig) : Bench :=
  { b with rigs := b.rigs.map fun r => if r.tier == tier then f r else r }

/-- The bench with one more script for a tier. -/
def addScript (b : Bench) (tier : Tier) (actions : List ScriptAction) : Bench :=
  { b with scripts := b.scripts ++ [(tier, actions)] }

/-- How many scripts wait for a tier. -/
def scriptCount (b : Bench) (tier : Tier) : Nat := b.scripts.countP (·.1 == tier)

/-- The oldest script for a tier, and the bench without it. -/
def takeScript? (b : Bench) (tier : Tier) : Option (List ScriptAction × Bench) :=
  (b.scripts.lookup tier).map fun actions =>
    (actions, { b with scripts := b.scripts.eraseP (·.1 == tier) })

/-- The job of a thread. -/
def job? (b : Bench) (i : ThreadId) : Option Job := b.jobs.find? (·.thread == i)

/-- The bench with the job of a thread changed. -/
def modifyJob (b : Bench) (i : ThreadId) (f : Job → Job) : Bench :=
  { b with jobs := b.jobs.map fun j => if j.thread == i then f j else j }

/-- The bench with the chores of a thread replaced. -/
def setChores (b : Bench) (i : ThreadId) (chores : List Chore) : Bench :=
  b.modifyJob i fun j => { j with chores := chores }

/-- The bench with one more result in a record. -/
def addAct (b : Bench) (record : Nat) (v : Json) : Bench :=
  { b with records := b.records.modify record fun r => { r with acts := v :: r.acts } }

/-! ### Methods -/

/-- The class and the name that a label gives a method. -/
def splitLabel (label : String) : String × String :=
  match splitAtColons label.toList with
  | some (className, name) => (String.ofList className, String.ofList name)
  | none => ("T", label)

/-- The class of a name, which may become known only now. -/
def internClass (b : Bench) (name : String) : ClassId × Bench :=
  match b.classes.lookup name with
  | some c => (c, b)
  | none =>
    let c := b.broker.classes.size
    (c, { b.operate (.addClass { name := name, initialized := !b.uninitialized.contains name }) with
      classes := b.classes ++ [(name, c)] })

/-- The bench with a method added that a session describes. -/
def addMethod (b : Bench) (spec : MethodSpec) : Bench :=
  let (className, name) := splitLabel spec.label
  let className := spec.className.getD className
  let (c, b) := b.internClass className
  let m : Method := {
    name := spec.name.getD name
    holder := c
    className := className
    bytecodeSize := spec.size
    isNative := spec.native.isSome
    linkable := spec.native.getD true
    isAbstract := spec.isAbstract
    isIntrinsic := spec.isIntrinsic }
  let labels := (spec.label, b.broker.methods.size) :: b.labels
  { b.operate (.addMethod m) with labels := labels }

/-- The method of a label, which may become known only now. -/
def intern (b : Bench) (label : String) : MethodId × Bench :=
  match b.labels.lookup label with
  | some m => (m, b)
  | none =>
    (b.broker.methods.size, b.addMethod {
      label := label, className := none, name := none, size := 32, native := none
      isAbstract := false, isIntrinsic := false })

/-- The label of a method. -/
def labelOf (b : Bench) (m : MethodId) : String :=
  match b.labels.find? (·.2 == m) with
  | some (label, _) => label
  | none => ""

/-! ### Steps on methods -/

/-- The code that a step closes. -/
def MethodStep.closed? (m : Method) (entry : Option Int) (tier : Tier) : Option InstalledCode :=
  match entry with
  | some bci => m.osrCode? bci tier false
  | none => m.code

/-- The answer of a step on a method. -/
def MethodStep.answer (m : Method) (c : ClassInfo) : MethodStep → Json
  | .info => m.toJson c
  | .link => .bool m.linkNative.1
  | .code => .ofOption InstalledCode.toJson m.code
  | .osrCode bci tier exact => .ofOption InstalledCode.toJson (m.osrCode? bci tier exact)
  | .close entry tier => .ofOption (fun code => .bool code.entrant) (closed? m entry tier)
  | _ => .null

/-- What a step does to a method. -/
def MethodStep.operations (id : MethodId) (m : Method) : MethodStep → List Operation
  | .link => [.link id]
  | .redefine => [.redefine id]
  | .breakpoints present => [.breakpoints id present]
  | .initializeClass => [.initializeClass m.holder]
  | .unloadClass => [.unloadClass m.holder]
  | .prohibit osr tier => [.prohibit id osr tier]
  | .prohibitAll => [.prohibitAll id]
  | .close entry tier =>
    (closed? m entry tier).toList.map fun code => .close id code.region.id
  | .info | .code | .osrCode _ _ _ => []

/-- Makes a step on a method of a broker. -/
def stepOn (b : Broker) (id : MethodId) (s : MethodStep) : Json × Broker :=
  match b.methods[id]? with
  | some m =>
    match b.classes[m.holder]? with
    | some c => (s.answer m c, (s.operations id m).foldl Broker.operate b)
    | none => (.null, b)
  | none => (.null, b)

/-- Makes a step on the method of a label. -/
def stepOnLabel (b : Bench) (label : String) (s : MethodStep) : Json × Bench :=
  let (id, b) := b.intern label
  match b.broker.methods[id]? with
  | some m =>
    match b.broker.classes[m.holder]? with
    | some c => (s.answer m c, (s.operations id m).foldl operate b)
    | none => (.null, b)
  | none => (.null, b)

end Bench

end JitBroker
