import JitBroker.Bench.Script

/-!
# Reading scripts

Sessions are written in JSON. A field that is left out has a default: numbers are zero, the tier is
one, the entry is the start of the method.
-/

namespace JitBroker

namespace Json

/-- A field that is neither left out nor null. -/
def given? (v : Json) (key : String) : Option Json :=
  match v.field? key with
  | some .null => none
  | other => other

/-- A text field. -/
def textAt (v : Json) (key : String) (default : String := "") : String :=
  match v.field? key with
  | some (.str s) => s
  | _ => default

/-- An integer field. -/
def intAt (v : Json) (key : String) (default : Int := 0) : Int :=
  match v.field? key with
  | some (.int n) => n
  | _ => default

/-- A field that is a natural number. -/
def natAt (v : Json) (key : String) (default : Nat := 0) : Nat := (v.intAt key default).toNat

/-- A field that is a machine word. -/
def wordAt (v : Json) (key : String) (default : Nat := 0) : UInt64 :=
  UInt64.ofNat (v.natAt key default)

/-- A field that is a truth value. -/
def flagAt (v : Json) (key : String) (default : Bool := false) : Bool :=
  match v.field? key with
  | some (.bool b) => b
  | _ => default

/-- The items of a field that is a list. -/
def itemsAt (v : Json) (key : String) : List Json :=
  match v.field? key with
  | some (.arr items) => items
  | _ => []

/-- The texts in a field that is a list. -/
def textsAt (v : Json) (key : String) : List String :=
  (v.itemsAt key).filterMap fun
    | .str s => some s
    | _ => none

/-- The field that names a tier. -/
def tierAt (v : Json) : Tier := UInt8.ofNat (v.natAt "tier" 1)

/-- The field that names an entry. -/
def bciAt (v : Json) : Int := v.intAt "bci" invocationEntry

/-- The field that names a kind of code. -/
def blobKindAt (v : Json) : BlobKind := (BlobKind.ofName? (v.textAt "kind")).getD .profiled

end Json

/-- The policy by hotness as sessions choose it. Whether tasks age under it is not up to the policy:
where they do not, the bench keeps them young (`Bench.rejuvenate`). -/
def Selector.hotness (_aging : Bool) : Selector := .hottest

/-- The behavior of a stub that a value stands for. -/
def StubBehavior.ofJson : Json → StubBehavior
  | .int n => .succeed (UInt64.ofNat n.toNat)
  | .str "bailout" => .bailout
  | .str "not_at_tier" => .notAtTier
  | .str "never" => .never
  | _ => .usual

/-- The scope that a name stands for. -/
def FailureScope.ofName : String → FailureScope
  | "tier" => .notAtTier
  | "never" => .never
  | _ => .retry

namespace Bench

/-- Reads a step on a method. -/
def MethodStep.ofJson? (v : Json) : Option MethodStep :=
  match v.textAt "do" with
  | "info" => some .info
  | "link_native" => some .link
  | "mark_old" => some .redefine
  | "breakpoints" => some (.breakpoints (v.flagAt "on"))
  | "class_init" => some .initializeClass
  | "unload" => some .unloadClass
  | "set_not_compilable" => some (.prohibit false v.tierAt)
  | "set_not_osr_compilable" => some (.prohibit true v.tierAt)
  | "set_not_compilable_all" => some .prohibitAll
  | "code" => some .code
  | "osr_code" => some (.osrCode v.bciAt v.tierAt (v.flagAt "exact"))
  | "not_entrant" =>
    let entry := match v.field? "bci" with
      | some (.int n) => some n
      | _ => none
    some (.close entry v.tierAt)
  | _ => none

/-- Reads a request. -/
def RequestSpec.ofJson (v : Json) : RequestSpec where
  label := v.textAt "m"
  bci := v.bciAt
  tier := v.tierAt
  hot := UInt32.ofNat (v.natAt "hot")
  reason := (CompileReason.ofKey? (v.textAt "reason" "normal")).getD .normal
  blocking := v.flagAt "blocking"
  initializers := v.natAt "clinit"
  plain := v.flagAt "plain"

/-- Reads a decompilation. -/
def DecompileSpec.ofJson (v : Json) : DecompileSpec := ⟨v.textAt "m", v.bciAt, v.tierAt⟩

/-- Reads what a scripted compile does. -/
def ScriptAction.ofJson (v : Json) : ScriptAction :=
  match v.textAt "a" with
  | "install" => .install (v.wordAt "size") (v.wordAt "ins")
  | "size" => .recordSize (v.wordAt "size") (v.wordAt "ins")
  | "fail" => .fail (v.textAt "reason") (FailureScope.ofName (v.textAt "scope"))
  | "invalidate" => .invalidate
  | "retry" => .retry (v.textAt "message")
  | "inline" => .inline (v.wordAt "count")
  | "arena" => .arena (v.wordAt "bytes")
  | "failing" => .failing
  | "checkpoint" => .checkpoint
  | "request" => .request (.ofJson v)
  | "decompile" => .decompile (.ofJson v)
  | "disable" => .disable
  | "code_full" => .cacheFull v.blobKindAt
  | "method" =>
    match MethodStep.ofJson? v with
    | some s => .method (v.textAt "m") s
    | none => .nothing
  | "stub" => .stub
  | _ => .nothing

/-- Reads a step on directives. -/
def DirectiveStep.ofJson (v : Json) : DirectiveStep :=
  match v.textAt "do" with
  | "push_json" => .pushText (v.textAt "text")
  | "push" =>
    .push {
      patterns := v.textsAt "patterns"
      directive := {
        enable := v.flagAt "enable" true, exclude := v.flagAt "exclude", log := v.flagAt "log" }
      isDefault := v.flagAt "default_set" }
  | "pop" => .pop (v.natAt "count" 1)
  | "clear" => .clear
  | "lookup" =>
    .lookup (v.textAt "class") (v.textAt "method")
      ((CompilerKind.ofName? (v.textAt "compiler")).getD .c2)
  | _ => .list

/-- The kind of number that a name stands for. -/
def idKindAt (v : Json) : IdKind :=
  match v.textAt "kind" with
  | "osr" => .osr
  | "native" => .native
  | _ => .standard

/-- Reads a step that is about no method in particular. -/
def Step.ofName (v : Json) : String → Step
  | "request" => .request (.ofJson v)
  | "request_many" =>
    .requestMany { RequestSpec.ofJson v with label := v.textAt "prefix" } (v.natAt "count")
  | "contend" => .contend ((v.itemsAt "items").map RequestSpec.ofJson)
  | "hold" => .hold
  | "release" => .release ((v.given? "tier").map fun _ => v.tierAt)
  | "open" => .openGate
  | "open_init" => .openInit v.tierAt
  | "open_stub" => .openStub v.tierAt
  | "pause" => .pause
  | "resume" => .resume (v.natAt "guard")
  | "gate" => .gate
  | "wait_parked" => .waitParked (v.natAt "count") (v.natAt "ms")
  | "behavior" => .behave v.tierAt (.ofJson ((v.field? "behavior").getD .null))
  | "script" => .script v.tierAt ((v.itemsAt "actions").map ScriptAction.ofJson)
  | "decompile" => .decompile (.ofJson v)
  | "disable" => .disable
  | "shutdown" => .shutdown
  | "code_full" => .cacheFull v.blobKindAt
  | "accept" => .accept (v.flagAt "on")
  | "state" => .state
  | "stats" => .stats
  | "queue_stats" => .queueStats v.tierAt
  | "pool" => .pool
  | "backend" => .backend v.tierAt
  | "workers" => .workers v.tierAt
  | "worker_count" => .workerCount v.tierAt
  | "wait_workers" => .waitWorkers v.tierAt (v.natAt "count")
  | "retired" => .retired
  | "log" => .log v.tierAt (v.natAt "index")
  | "print" => .list
  | "visit" => .visit
  | "cache" => .cache
  | "id" => .drawId (idKindAt v)
  | "compiles" => .compiles
  | "begin_record" => .startRecording
  | "record" => .record (.ofJson v)
  | "recorder" => .recorder
  | "replay" => .replay
  | "dir" => .directive (.ofJson ((v.field? "step").getD .null))
  | "subscribe" => .subscribe
  | "drain" => .drain (v.natAt "sub")
  | "unsubscribe" => .unsubscribe (v.natAt "sub")
  | "clinit_scope" => .initializers (v.natAt "depth" 1)
  | "sleep" => .sleep (v.natAt "ms")
  | _ => .nothing

/-- Reads a step. One that names a method asks something of it, unless it is a request, a
decompilation or a record. -/
def Step.ofJson (v : Json) : Step :=
  match v.textAt "do", v.field? "m" with
  | "request", _ | "decompile", _ | "record", _ => .ofName v (v.textAt "do")
  | _, some (.str label) =>
    match MethodStep.ofJson? v with
    | some s => .method label s
    | none => .nothing
  | name, _ => .ofName v name

/-- Reads the description of a method. -/
def MethodSpec.ofJson (v : Json) : MethodSpec where
  label := v.textAt "id"
  className := (v.given? "class").map fun _ => v.textAt "class"
  name := (v.given? "name").map fun _ => v.textAt "name"
  size := v.wordAt "size" 32
  native := (v.given? "native").map fun _ => v.flagAt "native"
  isAbstract := v.flagAt "abstract"
  isIntrinsic := v.flagAt "intrinsic"

/-- Reads the description of a back-end, which is `false` where there is to be none. -/
def BackendSpec.ofJson? (v : Json) : Option BackendSpec :=
  match v with
  | .bool false => none
  | v => some {
      name := v.textAt "name" "stub"
      kind := CompilerKind.ofName? (v.textAt "kind")
      behavior := .ofJson ((v.field? "behavior").getD .null)
      delay := v.natAt "delay_us"
      initError := (v.given? "init_error").map fun _ => v.textAt "init_error"
      initGated := v.flagAt "init_gated"
      stubGated := v.flagAt "stub_gated"
      noProgress := v.flagAt "no_progress"
      ticks := (v.given? "ticks").map fun _ => v.wordAt "ticks" }

/-- Reads the sizes of the segments. -/
def segments? (v : Json) : Option (UInt64 × UInt64 × UInt64) :=
  match v.itemsAt "cache" with
  | [.int a, .int b, .int c] =>
    some (UInt64.ofNat a.toNat, UInt64.ofNat b.toNat, UInt64.ofNat c.toNat)
  | _ => none

/-- Reads the fields of an object. -/
def fieldsAt (v : Json) (key : String) : List (String × Json) :=
  match v.field? key with
  | some (.obj fields) => fields
  | _ => []

/-- Reads a session, given its configuration. -/
def Session.ofJson (config : Config) (v : Json) : Session :=
  let aging := ["default", "hotness_real"].contains (v.textAt "selector")
  { config := config
    methods := (v.itemsAt "methods").map MethodSpec.ofJson
    uninitialized := v.textsAt "uninit_classes"
    backends := (fieldsAt v "backends").filterMap fun (name, spec) =>
      name.toNat?.map fun n => (UInt8.ofNat n, BackendSpec.ofJson? spec)
    memory := v.wordAt "memory" 0x10000000000
    cache := segments? v
    directivesLimit := (v.given? "directives_limit").map fun _ => v.natAt "directives_limit"
    hasRecorder := v.flagAt "recorder"
    selector := if v.textAt "selector" = "fifo" then .fifo else .hotness aging
    ageless := !aging
    hold := v.flagAt "hold"
    steps := (v.itemsAt "steps").map Step.ofJson }

/-- Reads a session on a machine with the given number of processors. -/
def Session.ofJson? (processors : Nat) (v : Json) : Option Session := do
  let config ← Config.ofJson? .json processors ((v.field? "config").getD .null)
  return .ofJson config v

end Bench

end JitBroker
