import JitBroker.Report
import JitBroker.Simulation
import JitBroker.Text.Fixed

/-!
# Reports on simulations

What came of a simulation, as a text of a few lines or as JSON.
-/

namespace JitBroker.Simulation

/-- A line of the table of tiers. -/
def row (cells : List String) (last : String) : String :=
  String.join ((cells.zip [(6, true), (9, false), (9, false), (8, false), (12, false),
    (10, false)]).map fun (cell, width, left) =>
      (if left then Text.toLeft width cell else Text.toRight width cell) ++ " ") ++ last ++ "\n"

/-- The head of the table of tiers. -/
def tableHead : String :=
  row ["tier", "compiles", "bailouts", "osr", "code bytes", "total ms"] (Text.toRight 8 "workers")

/-- The line of a tier. -/
def tierRow (s : Simulation) (u : TierUnit) : String :=
  let t := s.broker.stats.tier u.config.level
  row [toString u.config.level, toString t.successes, toString t.bailouts, toString t.osr,
      toString t.codeSize, Text.fixed 1 t.time 1000]
    (Text.toRight 4 (toString u.crew.count) ++ "/" ++ Text.toLeft 3 (toString u.crew.peak))

/-- The tally as a line. -/
def tallyLine (t : Tally) : String :=
  s!"requests {t.total}: installed {t.installed}  queued {t.queued}  failed {t.failed}  "
    ++ s!"abandoned {t.abandoned}  rejected {t.rejected}\n"

/-- The account of tasks as a line. -/
def poolLine (p : TaskPool) : String :=
  s!"tasks: allocated {p.allocated}  recycled {p.recycled}  peak live {p.peakLive}  freed by "
    ++ s!"worker {p.freedByWorker} / requester {p.freedByRequester} / stale {p.freedStale}\n"

/-- The code cache as a line. -/
def cacheLine (b : Broker) : String :=
  s!"code cache: {b.cache.totalUsed} bytes in {b.cache.regionCount} regions, full "
    ++ s!"{b.stats.full} times (stopped {b.stats.stopped}, restarted {b.stats.restarted})\n"

/-- What was compiled last, and what failed last. -/
def lastLines (s : Statistics) : String :=
  (if s.lastMethod.isEmpty then "" else "last compiled: " ++ s.lastMethod ++ "\n")
    ++ match s.lastReason with
      | some reason => "last failure: " ++ s.lastFailed ++ " (" ++ reason.text ++ ")\n"
      | none => ""

/-- The replay as a line, if there was one. -/
def replayLine : Option ReplaySummary → String
  | some r =>
    s!"restore replay: submitted {r.submitted}  queued {r.queued}  skipped unloaded {r.skipped}\n"
  | none => ""

/-- The report as a text. -/
def text (s : Simulation) : String :=
  s!"seed {s.seed}  elapsed {Text.fixed 3 s.broker.clock 1000000}s\n" ++ tallyLine s.tally ++ "\n"
    ++ tableHead ++ String.join (s.broker.units.toList.map s.tierRow) ++ "\n"
    ++ poolLine s.broker.pool ++ cacheLine s.broker ++ lastLines s.broker.stats
    ++ replayLine s.replay

/-! ### JSON -/

/-- A time in microseconds. -/
def timeToJson (time : Nat) : Json :=
  .obj [("secs", .count (time / 1000000)), ("nanos", .count (time % 1000000 * 1000))]

/-- The counters of a tier. -/
def tierToJson (t : TierStatistics) : Json :=
  .obj [("total_time", timeToJson t.time), ("success_count", .count t.successes),
    ("bailout_count", .count t.bailouts), ("invalidated_count", .count t.invalidations),
    ("standard_count", .count t.standard), ("osr_count", .count t.osr),
    ("standard_bytes", .word t.standardBytes), ("osr_bytes", .word t.osrBytes),
    ("total_code_size", .word t.codeSize), ("instructions_size", .word t.instructionsSize)]

/-- The statistics. -/
def statisticsToJson (s : Statistics) : Json :=
  .obj [("total", tierToJson s.total),
    ("tiers", .obj (s.tiers.map fun (tier, t) => (toString tier, tierToJson t))),
    ("stale_count", .count s.stale), ("code_cache_full_count", .count s.full),
    ("stopped_count", .count s.stopped), ("restarted_count", .count s.restarted),
    ("last_method", .str s.lastMethod), ("last_failed_method", .str s.lastFailed),
    ("last_failure_reason", .ofOption (fun r => .str r.text) s.lastReason)]

/-- The counters of one kind of compile. -/
def phaseToJson (p : PhaseStatistics) : Json :=
  .obj [("bytes", .word p.bytes), ("count", .count p.count.toNat)]

/-- A tier with its queue, its back-end and its crew. -/
def unitToJson (u : TierUnit) : Json :=
  .obj [("tier", .count u.config.level.toNat), ("queue", u.queue.countersToJson),
    ("backend", .obj [("standard", phaseToJson u.stats.standard), ("osr", phaseToJson u.stats.osr),
      ("nmethods_size", .word u.stats.codeSize),
      ("nmethods_code_size", .word u.stats.instructionsSize)]),
    ("workers", .count u.crew.count), ("peak_workers", .count u.crew.peak)]

/-- The report as JSON. -/
def toJson (s : Simulation) : Json :=
  .obj [("seed", .word s.seed), ("elapsed_ms", .count (s.broker.clock / 1000)),
    ("requests", .obj [("installed", .count s.tally.installed), ("queued", .count s.tally.queued),
      ("failed", .count s.tally.failed), ("abandoned", .count s.tally.abandoned),
      ("rejected", .count s.tally.rejected)]),
    ("stats", statisticsToJson s.broker.stats),
    ("tiers", .arr (s.broker.units.toList.map unitToJson)),
    ("task_pool", .obj [("allocated", .count s.broker.pool.allocated),
      ("recycled", .count s.broker.pool.recycled),
      ("freed_by_worker", .count s.broker.pool.freedByWorker),
      ("freed_by_requester", .count s.broker.pool.freedByRequester),
      ("freed_stale", .count s.broker.pool.freedStale), ("live", .count s.broker.pool.live),
      ("peak_live", .count s.broker.pool.peakLive)]),
    ("code_cache", .obj [("used", .word s.broker.cache.totalUsed),
      ("regions", .count s.broker.cache.regionCount),
      ("full_count", .count s.broker.cache.fullCount)]),
    ("replay", .ofOption (fun r => .obj [("submitted", .count r.submitted),
      ("queued", .count r.queued), ("skipped_unloaded", .count r.skipped)]) s.replay)]

end JitBroker.Simulation
