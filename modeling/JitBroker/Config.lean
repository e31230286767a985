import JitBroker.CodeCache
import JitBroker.Compiler
import JitBroker.Tier

/-!
# Broker configuration

Switches and limits of the whole broker, and for each tier its family of compilers, its segment of
the code cache and the bounds of its crew of workers. Every number is a machine word.

A configuration is valid if

* it has at least one tier, and no two with the same number;
* each tier's number is below `tierLimit`, it keeps at least one worker and at most as many as it
  may have, and the quantities that growing the crew divides by are not zero;
* a window of compile numbers is not empty, and there is room for a task.

`Config.validate` reports the first of these that fails, tier by tier.
-/

namespace JitBroker

/-- A window of compile numbers, outside of which nothing compiles. -/
structure IdRange where
  /-- The first number of the window. -/
  start : UInt32
  /-- The first number after the window. -/
  stop : UInt32
  deriving Repr, DecidableEq, Inhabited

/-- Whether a number lies in the window. -/
def IdRange.contains (r : IdRange) (id : UInt32) : Bool :=
  decide (r.start ≤ id) && decide (id < r.stop)

/-- How many workers the cheap and the expensive compilers have by default on a machine with the
given number of processors: with `l` the binary logarithm of that number, one and a half times
`l * log l` in all, a third of them cheap. -/
def defaultWorkerCounts (processors : Nat) : Nat × Nat :=
  let atLeastOne (x : Float) : Float := if x < 1.0 then 1.0 else x
  let log := atLeastOne (UInt64.ofNat (max processors 1)).toFloat.log2
  let count := max (log * atLeastOne log.log2 * 3.0 / 2.0).toUInt64.toNat 2
  let cheap := max (count / 3) 1
  (cheap, max (count - cheap) 1)

/-- The configuration of a tier. -/
structure TierConfig where
  /-- The number of the tier. -/
  level : Tier
  /-- The family of its compiler. -/
  compiler : CompilerKind
  /-- Whether requests for it are accepted. -/
  enabled : Bool
  /-- The most workers it may have; just as many if crews are static. -/
  maxWorkers : UInt64
  /-- The workers that never retire. -/
  minWorkers : UInt64
  /-- The queued tasks that one worker is expected to cope with. -/
  tasksPerThread : UInt64
  /-- The free memory that each further worker needs. -/
  memoryBudget : UInt64
  /-- The free code space that each further worker needs. -/
  codeBudget : UInt64
  /-- The idle time, in milliseconds, after which a worker may retire. -/
  retireIdleMs : UInt64
  /-- The segment its code goes into. -/
  blobKind : BlobKind
  /-- The initial capacity of a worker's buffer. -/
  bufferSize : UInt64
  deriving Repr, DecidableEq, Inhabited

namespace TierConfig

/-- A cheap profiling tier, on a machine with the given number of processors. -/
def c1 (processors : Nat) (level : Tier) : TierConfig where
  level := level
  compiler := .c1
  enabled := true
  maxWorkers := UInt64.ofNat (defaultWorkerCounts processors).1
  minWorkers := 1
  tasksPerThread := 4
  memoryBudget := 100 * 1024 * 1024
  codeBudget := 128 * 1024
  retireIdleMs := 500
  blobKind := .profiled
  bufferSize := 64 * 1024

/-- An expensive optimizing tier. -/
def c2 (processors : Nat) (level : Tier) : TierConfig where
  level := level
  compiler := .c2
  enabled := true
  maxWorkers := UInt64.ofNat (defaultWorkerCounts processors).2
  minWorkers := 1
  tasksPerThread := 2
  memoryBudget := 200 * 1024 * 1024
  codeBudget := 128 * 1024
  retireIdleMs := 100
  blobKind := .nonProfiled
  bufferSize := 0

/-- A tier with an external compiler. -/
def external (processors : Nat) (level : Tier) : TierConfig :=
  { c2 processors level with compiler := .external }

/-- The tier with a new bound for its workers, never zero, to which the workers that stay are
lowered. -/
def withWorkers (t : TierConfig) (count : UInt64) : TierConfig :=
  { t with maxWorkers := max count 1, minWorkers := max (min t.minWorkers (max count 1)) 1 }

end TierConfig

/-- The configuration of a broker. -/
structure Config where
  /-- Let crews grow and shrink. -/
  dynamicPool : Bool := true
  /-- Let idle workers retire, if crews may shrink. -/
  reduceWorkersOnIdle : Bool := true
  /-- Requests go on without waiting unless they or a directive say otherwise. -/
  backgroundDefault : Bool := true
  /-- Accept jobs from the start. -/
  acceptDefault : Bool := true
  /-- The milliseconds between two looks at the progress of an external compiler. -/
  sliceMs : UInt64 := 1000
  /-- The looks without progress after which a requester gives up. -/
  slicesMax : UInt32 := 10
  /-- The milliseconds an idle worker waits for new work at a time. -/
  queueWaitMs : UInt64 := 5000
  /-- Stop, rather than disable, compilation when a segment is full. -/
  eviction : Bool := true
  /-- The free bytes a segment needs before a stopped broker goes on. -/
  restartHeadroom : UInt64 := 256 * 1024
  /-- The most tasks that may be live. -/
  maxLiveTasks : UInt64 := 10000
  /-- Log every compile. -/
  logCompilation : Bool := false
  /-- The entries kept in a worker's log. -/
  logCapacity : UInt64 := 64
  /-- Keep with each task the length of the queue it joined. -/
  recordTraining : Bool := false
  /-- The window of compile numbers that may compile. -/
  idRange : Option IdRange := none
  /-- The tiers. -/
  tiers : List TierConfig
  deriving Repr, DecidableEq, Inhabited

namespace Config

/-- A cheap tier numbered one and an expensive tier numbered four. -/
def standard (processors : Nat) : Config where
  tiers := [.c1 processors 1, .c2 processors 4]

/-- One tier with a static crew. -/
def singleTier (t : TierConfig) : Config where
  dynamicPool := false
  tiers := [t]

/-- The configuration of the tier with the given number. -/
def tier? (c : Config) (level : Tier) : Option TierConfig := c.tiers.find? (·.level == level)

/-- The tiers that take requests. -/
def enabledTiers (c : Config) : List TierConfig := c.tiers.filter (·.enabled)

end Config

/-! ### Validation -/

/-- What may be wrong with a tier. -/
inductive TierFault where
  /-- The number of the tier is too great. -/
  | levelTooHigh
  /-- No worker stays. -/
  | noMinWorkers
  /-- More workers stay than there may be. -/
  | minAboveMax (min max : UInt64)
  /-- A worker is expected to cope with nothing. -/
  | noTasksPerThread
  /-- A worker is expected to need nothing. -/
  | noBudget
  deriving Repr, DecidableEq

/-- The text of a fault of a tier. -/
def TierFault.message : TierFault → String
  | .levelTooHigh => s!"level must be below {tierLimit}"
  | .noMinWorkers => "min_workers must be at least 1"
  | .minAboveMax min max => s!"min_workers ({min}) exceeds max_workers ({max})"
  | .noTasksPerThread => "tasks_per_thread must be non-zero"
  | .noBudget => "per-worker budgets must be non-zero"

/-- What may be wrong with a configuration. -/
inductive ConfigFault where
  /-- There is no tier. -/
  | noTiers
  /-- A tier is at fault. -/
  | tier (level : Tier) (fault : TierFault)
  /-- Two tiers have one number. -/
  | repeatedTier (level : Tier)
  /-- The window of compile numbers is empty. -/
  | emptyRange (range : IdRange)
  /-- There is no room for a task. -/
  | noTasks
  deriving Repr, DecidableEq

namespace ConfigFault

/-- What is wrong. -/
def detail : ConfigFault → String
  | .noTiers => "at least one tier is required"
  | .tier level fault => s!"tier {level}: " ++ fault.message
  | .repeatedTier level => s!"tier {level} is configured twice"
  | .emptyRange r => s!"empty compile_id_range {r.start}..{r.stop}"
  | .noTasks => "max_live_tasks must be non-zero"

/-- The text of the fault. -/
def message (f : ConfigFault) : String := "Invalid config: " ++ f.detail

end ConfigFault

/-- The first fault of a tier by itself. -/
def TierConfig.fault? (t : TierConfig) : Option TierFault :=
  if ¬ t.level < tierLimit then some .levelTooHigh
  else if t.minWorkers = 0 then some .noMinWorkers
  else if t.maxWorkers < t.minWorkers then some (.minAboveMax t.minWorkers t.maxWorkers)
  else if t.tasksPerThread = 0 then some .noTasksPerThread
  else if t.memoryBudget = 0 ∨ t.codeBudget = 0 then some .noBudget
  else none

namespace Config

/-- The first fault of the tiers, given the numbers of those already seen. -/
def tiersFault? (seen : List Tier) : List TierConfig → Option ConfigFault
  | [] => none
  | t :: rest =>
    match t.fault? with
    | some fault => some (.tier t.level fault)
    | none =>
      if t.level ∈ seen then some (.repeatedTier t.level)
      else tiersFault? (t.level :: seen) rest

/-- The first fault of a configuration. -/
def fault? (c : Config) : Option ConfigFault :=
  if c.tiers.isEmpty then some .noTiers
  else (tiersFault? [] c.tiers).or <|
    (c.idRange.bind fun r => if r.start < r.stop then none else some (.emptyRange r)).or <|
      if c.maxLiveTasks = 0 then some .noTasks else none

/-- Accepts a configuration without faults. -/
def validate (c : Config) : Except ConfigFault Unit :=
  match c.fault? with
  | some fault => .error fault
  | none => .ok ()

end Config

end JitBroker
