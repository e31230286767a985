import JitBroker.Statistics.ShortName
import JitBroker.Table
import JitBroker.Task

/-!
# Statistics and events

Every finished compile is counted, once over all tiers and once for its tier, and an event is
posted for it. The events form one sequence; a subscriber is known by the position from which on
it has not read.

Byte counts are sums of machine words, which wrap.
-/

namespace JitBroker

/-- The event of a finished compile. -/
structure CompileEvent where
  /-- The compile number. -/
  compileId : UInt32
  /-- The tier. -/
  tier : Tier
  /-- The method. -/
  method : MethodId
  /-- Whether code was installed. -/
  success : Bool
  /-- Whether the compile was for an OSR entry. -/
  osr : Bool
  /-- The size of the code. -/
  totalSize : UInt64
  /-- The bytecodes that were inlined. -/
  inlinedBytecodes : UInt64
  /-- The scratch memory in use at the end. -/
  arenaBytes : UInt64
  deriving Repr, DecidableEq, Inhabited

/-- The event of a task and its result. -/
def CompileEvent.of (t : Task) (r : TaskResult) : CompileEvent :=
  ⟨t.compileId, t.tier, t.method, r.success, t.isOsr, r.totalSize, r.inlinedBytecodes, r.arenaBytes⟩

/-- The counters of a tier, or of all tiers together. -/
structure TierStatistics where
  /-- The time of all compiles, in microseconds. -/
  time : Nat := 0
  /-- The time of the longest compile. -/
  peakTime : Nat := 0
  /-- The compiles that installed code. -/
  successes : Nat := 0
  /-- The compiles that failed. -/
  bailouts : Nat := 0
  /-- The compiles that were invalidated while they ran. -/
  invalidations : Nat := 0
  /-- The successful standard compiles. -/
  standard : Nat := 0
  /-- The successful compiles for OSR entries. -/
  osr : Nat := 0
  /-- The bytecodes of the successful standard compiles. -/
  standardBytes : UInt64 := 0
  /-- The bytecodes of the successful compiles for OSR entries. -/
  osrBytes : UInt64 := 0
  /-- The size of the code. -/
  codeSize : UInt64 := 0
  /-- The size of the instructions. -/
  instructionsSize : UInt64 := 0
  deriving Repr, DecidableEq, Inhabited

namespace TierStatistics

/-- The counters after one more compile. -/
def record (s : TierStatistics) (t : Task) (bytecodes : UInt64) (r : TaskResult)
    (invalidated : Bool) (elapsed : Nat) : TierStatistics :=
  let s := { s with time := s.time + elapsed, peakTime := max s.peakTime elapsed }
  if r.success then
    let s := { s with
      successes := s.successes + 1
      codeSize := s.codeSize + r.totalSize
      instructionsSize := s.instructionsSize + r.instructionsSize }
    if t.isOsr then { s with osr := s.osr + 1, osrBytes := s.osrBytes + bytecodes }
    else { s with standard := s.standard + 1, standardBytes := s.standardBytes + bytecodes }
  else if invalidated then { s with invalidations := s.invalidations + 1 }
  else { s with bailouts := s.bailouts + 1 }

/-- How many compiles are counted. -/
def compiles (s : TierStatistics) : Nat := s.successes + s.bailouts + s.invalidations

end TierStatistics

/-- The statistics of a broker. -/
structure Statistics where
  /-- Over all tiers. -/
  total : TierStatistics := {}
  /-- For each tier that has finished a compile, in ascending order. -/
  tiers : List (Tier × TierStatistics) := []
  /-- The tasks that went stale. -/
  stale : Nat := 0
  /-- The compiles that found their segment full, and the calls that said so. -/
  full : Nat := 0
  /-- How often compilation was stopped because a segment was full. -/
  stopped : Nat := 0
  /-- How often it went on again. -/
  restarted : Nat := 0
  /-- The short name of the last method compiled. -/
  lastMethod : String := ""
  /-- The short name of the last method whose compile failed. -/
  lastFailed : String := ""
  /-- Why that compile failed. -/
  lastReason : Option FailureReason := none
  /-- The events, in the order in which they were posted. -/
  events : Table CompileEvent := .empty
  deriving Repr, DecidableEq, Inhabited

namespace Statistics

/-- The room for a short name, with its separator and an end mark. -/
def nameBudget : Nat := 40

/-- Changes the counters of a tier, which begin at zero. -/
def alterTier (tier : Tier) (f : TierStatistics → TierStatistics) :
    List (Tier × TierStatistics) → List (Tier × TierStatistics)
  | [] => [(tier, f {})]
  | (t, s) :: rest =>
    if tier < t then (tier, f {}) :: (t, s) :: rest
    else if tier = t then (t, f s) :: rest
    else (t, s) :: alterTier tier f rest

/-- The counters of a tier. -/
def tier (s : Statistics) (t : Tier) : TierStatistics := (s.tiers.lookup t).getD {}

/-- The statistics after one more compile. -/
def record (s : Statistics) (t : Task) (m : Method) (r : TaskResult) (invalidated : Bool)
    (elapsed : Nat) : Statistics :=
  let name := shortName m.className m.name nameBudget
  let count (x : TierStatistics) := x.record t m.bytecodeSize r invalidated elapsed
  let s := { s with total := count s.total, tiers := alterTier t.tier count s.tiers }
  let s := if r.success then s else { s with lastFailed := name, lastReason := r.failure }
  { s with lastMethod := name }

/-- The statistics with one more event posted. -/
def post (s : Statistics) (e : CompileEvent) : Statistics := { s with events := s.events.add e }

/-- The events from a position on. -/
def eventsFrom (s : Statistics) (position : Nat) : List CompileEvent :=
  s.events.toList.drop position

end Statistics

/-- The counters of one kind of compile of a back-end. -/
structure PhaseStatistics where
  /-- The time of the compiles, in microseconds. -/
  time : Nat := 0
  /-- The compiles. -/
  count : UInt32 := 0
  /-- The bytecodes compiled. -/
  bytes : UInt64 := 0
  deriving Repr, DecidableEq, Inhabited

/-- The counters after one more compile. -/
def PhaseStatistics.add (p : PhaseStatistics) (bytecodes : UInt64) (elapsed : Nat) :
    PhaseStatistics :=
  ⟨p.time + elapsed, p.count + 1, p.bytes + bytecodes⟩

/-- The statistics that a back-end keeps of its successful compiles. -/
structure BackendStatistics where
  /-- The standard compiles. -/
  standard : PhaseStatistics := {}
  /-- The compiles for OSR entries. -/
  osr : PhaseStatistics := {}
  /-- The size of the code. -/
  codeSize : UInt64 := 0
  /-- The size of the instructions. -/
  instructionsSize : UInt64 := 0
  deriving Repr, DecidableEq, Inhabited

/-- The counters after one more compile. -/
def BackendStatistics.record (s : BackendStatistics) (osr : Bool) (bytecodes : UInt64)
    (r : TaskResult) (elapsed : Nat) : BackendStatistics :=
  let s := { s with
    codeSize := s.codeSize + r.totalSize
    instructionsSize := s.instructionsSize + r.instructionsSize }
  if osr then { s with osr := s.osr.add bytecodes elapsed }
  else { s with standard := s.standard.add bytecodes elapsed }

end JitBroker
