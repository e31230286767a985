import JitBroker.Config
import JitBroker.Json
import JitBroker.Toml.Codec

/-!
# Configurations as documents

A configuration is written as an object with a field for each of its settings, and read back from
one. In a document that is read,

* a setting that is left out has its default, which for the settings of a tier is that of the cheap
  tier numbered one, and a field with an unknown name does not matter;
* the settings may also be given as a list, in the order in which they are written, of which a tail
  may be left out; a window of compile numbers needs both its ends;
* a name out of a fixed set is a text.

JSON and TOML documents differ in small ways, which are kept in `DocumentRules`.
-/

namespace JitBroker

/-- The ways in which kinds of documents differ. -/
structure DocumentRules where
  /-- Whether a list of settings may be longer than there are settings. -/
  longLists : Bool
  /-- The name that stands for one of a fixed set of names, if the value is not a text. -/
  wrappedName? : Json → Option String

namespace DocumentRules

/-- In a JSON document a name may also be the one field, with a null value, of an object. -/
def json : DocumentRules where
  longLists := false
  wrappedName?
    | .obj [(name, .null)] => some name
    | _ => none

/-- In a TOML document a name may also be the one field, with an empty value, of a table. -/
def toml : DocumentRules where
  longLists := true
  wrappedName?
    | .obj [(name, .obj [])] => some name
    | .obj [(name, .arr [])] => some name
    | _ => none

/-- The name that a value stands for. -/
def name? (rules : DocumentRules) : Json → Option String
  | .str s => some s
  | v => rules.wrappedName? v

/-- The values of the given settings, by name, in an object or a list. -/
def settings? (rules : DocumentRules) (names : List String) (v : Json) :
    Option (String → Option Json) :=
  match v with
  | .obj _ => some v.field?
  | .arr items =>
    if rules.longLists ∨ items.length ≤ names.length then
      some fun name => (names.zip items).lookup name
    else none
  | _ => none

end DocumentRules

namespace Json

/-- A truth value. -/
def bool? : Json → Option Bool
  | .bool b => some b
  | _ => none

/-- A number below a bound. -/
def natBelow? (bound : Nat) : Json → Option Nat
  | .int n => if 0 ≤ n ∧ n < bound then some n.toNat else none
  | _ => none

/-- A number of 8 bits. -/
def word8? (v : Json) : Option UInt8 := (v.natBelow? UInt8.size).map UInt8.ofNat

/-- A number of 32 bits. -/
def word32? (v : Json) : Option UInt32 := (v.natBelow? UInt32.size).map UInt32.ofNat

/-- A number of 64 bits. -/
def word64? (v : Json) : Option UInt64 := (v.natBelow? UInt64.size).map UInt64.ofNat

/-- A value that may be null. -/
def nullable? {α : Type} (read : Json → Option α) : Json → Option (Option α)
  | .null => some none
  | v => (read v).map some

end Json

/-- A setting that may be left out: its value, or the default. -/
def setting? {α : Type} (read : Json → Option α) (default : α) : Option Json → Option α
  | none => some default
  | some v => read v

/-! ### Windows of compile numbers -/

namespace IdRange

/-- The settings of a window, in order. -/
def names : List String := ["start", "stop"]

/-- The window as a document. -/
def toJson (r : IdRange) : Json :=
  .obj [("start", .int r.start.toNat), ("stop", .int r.stop.toNat)]

/-- Reads a window. -/
def ofJson? (rules : DocumentRules) (v : Json) : Option IdRange := do
  let field ← rules.settings? names v
  return ⟨← (← field "start").word32?, ← (← field "stop").word32?⟩

end IdRange

/-! ### Tiers -/

namespace TierConfig

/-- The settings of a tier, in order. -/
def names : List String :=
  ["level", "compiler", "enabled", "max_workers", "min_workers", "tasks_per_thread",
    "per_worker_memory_budget", "per_worker_code_budget", "retire_idle_ms", "blob_kind",
    "buffer_size"]

/-- The tier as a document. -/
def toJson (t : TierConfig) : Json :=
  .obj [("level", .int t.level.toNat), ("compiler", .str t.compiler.name),
    ("enabled", .bool t.enabled), ("max_workers", .int t.maxWorkers.toNat),
    ("min_workers", .int t.minWorkers.toNat), ("tasks_per_thread", .int t.tasksPerThread.toNat),
    ("per_worker_memory_budget", .int t.memoryBudget.toNat),
    ("per_worker_code_budget", .int t.codeBudget.toNat),
    ("retire_idle_ms", .int t.retireIdleMs.toNat), ("blob_kind", .str t.blobKind.name),
    ("buffer_size", .int t.bufferSize.toNat)]

/-- Reads a tier. -/
def ofJson? (rules : DocumentRules) (processors : Nat) (v : Json) : Option TierConfig := do
  let field ← rules.settings? names v
  let d := c1 processors 1
  return {
    level := ← setting? Json.word8? d.level (field "level")
    compiler := ← setting? (rules.name? · >>= CompilerKind.ofName?) d.compiler (field "compiler")
    enabled := ← setting? Json.bool? d.enabled (field "enabled")
    maxWorkers := ← setting? Json.word64? d.maxWorkers (field "max_workers")
    minWorkers := ← setting? Json.word64? d.minWorkers (field "min_workers")
    tasksPerThread := ← setting? Json.word64? d.tasksPerThread (field "tasks_per_thread")
    memoryBudget := ← setting? Json.word64? d.memoryBudget (field "per_worker_memory_budget")
    codeBudget := ← setting? Json.word64? d.codeBudget (field "per_worker_code_budget")
    retireIdleMs := ← setting? Json.word64? d.retireIdleMs (field "retire_idle_ms")
    blobKind := ← setting? (rules.name? · >>= BlobKind.ofName?) d.blobKind (field "blob_kind")
    bufferSize := ← setting? Json.word64? d.bufferSize (field "buffer_size") }

end TierConfig

/-! ### Brokers -/

namespace Config

/-- The settings of a broker, in order. -/
def names : List String :=
  ["dynamic_pool_enabled", "reduce_workers_on_idle", "background_compilation_default",
    "accept_new_jobs_default", "external_tier_progress_slice_ms",
    "external_tier_progress_slices_max", "queue_wait_timeout_ms", "code_cache_eviction",
    "code_cache_restart_headroom", "max_live_tasks", "log_compilation", "thread_log_capacity",
    "record_training_data", "compile_id_range", "tiers"]

/-- The settings that are single values. -/
def scalars (c : Config) : List (String × Json) :=
  [("dynamic_pool_enabled", .bool c.dynamicPool),
    ("reduce_workers_on_idle", .bool c.reduceWorkersOnIdle),
    ("background_compilation_default", .bool c.backgroundDefault),
    ("accept_new_jobs_default", .bool c.acceptDefault),
    ("external_tier_progress_slice_ms", .int c.sliceMs.toNat),
    ("external_tier_progress_slices_max", .int c.slicesMax.toNat),
    ("queue_wait_timeout_ms", .int c.queueWaitMs.toNat),
    ("code_cache_eviction", .bool c.eviction),
    ("code_cache_restart_headroom", .int c.restartHeadroom.toNat),
    ("max_live_tasks", .int c.maxLiveTasks.toNat),
    ("log_compilation", .bool c.logCompilation),
    ("thread_log_capacity", .int c.logCapacity.toNat),
    ("record_training_data", .bool c.recordTraining)]

/-- The configuration as a document. A window that is not set is left out. -/
def toJson (c : Config) : Json :=
  .obj (c.scalars ++ (c.idRange.toList.map fun r => ("compile_id_range", r.toJson))
    ++ [("tiers", .arr (c.tiers.map TierConfig.toJson))])

/-- Reads the tiers. -/
def tiers? (rules : DocumentRules) (processors : Nat) : Json → Option (List TierConfig)
  | .arr items => items.mapM (TierConfig.ofJson? rules processors)
  | _ => none

/-- Reads a configuration on a machine with the given number of processors. -/
def ofJson? (rules : DocumentRules) (processors : Nat) (v : Json) : Option Config := do
  let field ← rules.settings? names v
  let d := standard processors
  return {
    dynamicPool := ← setting? Json.bool? d.dynamicPool (field "dynamic_pool_enabled")
    reduceWorkersOnIdle :=
      ← setting? Json.bool? d.reduceWorkersOnIdle (field "reduce_workers_on_idle")
    backgroundDefault :=
      ← setting? Json.bool? d.backgroundDefault (field "background_compilation_default")
    acceptDefault := ← setting? Json.bool? d.acceptDefault (field "accept_new_jobs_default")
    sliceMs := ← setting? Json.word64? d.sliceMs (field "external_tier_progress_slice_ms")
    slicesMax := ← setting? Json.word32? d.slicesMax (field "external_tier_progress_slices_max")
    queueWaitMs := ← setting? Json.word64? d.queueWaitMs (field "queue_wait_timeout_ms")
    eviction := ← setting? Json.bool? d.eviction (field "code_cache_eviction")
    restartHeadroom :=
      ← setting? Json.word64? d.restartHeadroom (field "code_cache_restart_headroom")
    maxLiveTasks := ← setting? Json.word64? d.maxLiveTasks (field "max_live_tasks")
    logCompilation := ← setting? Json.bool? d.logCompilation (field "log_compilation")
    logCapacity := ← setting? Json.word64? d.logCapacity (field "thread_log_capacity")
    recordTraining := ← setting? Json.bool? d.recordTraining (field "record_training_data")
    idRange := ← setting? (Json.nullable? (IdRange.ofJson? rules)) d.idRange
      (field "compile_id_range")
    tiers := ← setting? (tiers? rules processors) d.tiers (field "tiers") }

/-! ### TOML files -/

/-- Why a file is refused. -/
inductive FileFault where
  /-- It is no TOML document, or its values are of the wrong kinds. -/
  | malformed
  /-- It is a configuration with a fault. -/
  | invalid (fault : ConfigFault)
  deriving Repr, DecidableEq

/-- Reads a valid configuration out of a TOML document. -/
def ofToml (processors : Nat) (v : Json) : Except FileFault Config :=
  match ofJson? .toml processors v with
  | none => .error .malformed
  | some c =>
    match c.validate with
    | .error fault => .error (.invalid fault)
    | .ok () => .ok c

/-- Reads a valid configuration out of the text of a file, through a reader of TOML documents. -/
def readText (codec : Toml.Codec) (processors : Nat) (text : String) : Except FileFault Config :=
  match codec.read? text with
  | none => .error .malformed
  | some v => ofToml processors v

/-- The text of a file with the configuration, through a writer of TOML documents. -/
def writeText? (codec : Toml.Codec) (c : Config) : Option String := codec.write? c.toJson

/-- Reads a valid configuration out of the text of a file. -/
def ofText (processors : Nat) (text : String) : Except FileFault Config :=
  readText Toml.codec processors text

/-- The text of a file with the configuration. -/
def toText? (c : Config) : Option String := c.writeText? Toml.codec

end Config

end JitBroker
