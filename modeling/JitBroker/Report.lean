import JitBroker.Broker

/-!
# Reports

The values that the broker shows, as JSON.
-/

namespace JitBroker

namespace Json

/-- A number of 64 bits. -/
def word (n : UInt64) : Json := .int n.toNat

/-- A count. -/
def count (n : Nat) : Json := .int n

/-- A value that may be missing. -/
def ofOption {α : Type} (f : α → Json) : Option α → Json
  | some x => f x
  | none => .null

/-- An error of a kind, with its text. -/
def error (kind message : String) : Json := .obj [("error", .str kind), ("message", .str message)]

/-- An error of which only the kind is told. -/
def bareError (kind : String) : Json := .obj [("error", .str kind)]

end Json

/-- A region. -/
def Region.toJson (r : Region) : Json :=
  .obj [("id", .count r.id), ("kind", .str r.kind.name), ("size", .word r.size)]

/-- A failed allocation. -/
def SegmentFull.toJson (e : SegmentFull) : Json :=
  .obj [("error", .str "CodeCacheFull"), ("message", .str e.message), ("kind", .str e.kind.name),
    ("requested", .word e.requested), ("available", .word e.available)]

/-- Installed code. -/
def InstalledCode.toJson (c : InstalledCode) : Json :=
  .obj [("id", .count c.compileId.toNat), ("tier", .count c.tier.toNat), ("bci", .int c.entryBci),
    ("osr", .bool c.isOsr), ("region", c.region.toJson), ("total", .word c.totalSize),
    ("ins", .word c.instructionsSize), ("entrant", .bool c.entrant)]

/-- An error of the broker. -/
def BrokerError.toJson (e : BrokerError) : Json :=
  .obj [("error", .str e.kind), ("message", .str e.message), ("silent", .bool e.isSilent)]

/-- An error of a directive or its file; of a malformed file only the kind is told. -/
def DirectiveError.toJson (e : DirectiveError) : Json :=
  match e with
  | .malformed => .bareError "Json"
  | .invalidPattern _ => .error "InvalidPattern" e.message
  | .noPatterns => .error "NoPatterns" e.message
  | .stackFull _ => .error "StackFull" e.message

/-- Misuse of the recorder. -/
def RecorderError.toJson (e : RecorderError) : Json := .error e.kind e.message

/-- An outcome of a request. -/
def Outcome.toJson : Outcome → Json
  | .installed code => .obj [("installed", code.toJson)]
  | .queued id => .obj [("queued", .count id.toNat)]
  | .failed id reason => .obj [("failed", .count id.toNat), ("reason", .str reason.text)]
  | .abandoned id => .obj [("abandoned", .count id.toNat)]
  | .rejected e => .obj [("rejected", e.toJson)]

/-- The summary of a replay. -/
def ReplaySummary.toJson (s : ReplaySummary) : Json :=
  .obj [("submitted", .count s.submitted), ("queued", .count s.queued),
    ("skipped", .count s.skipped)]

/-- The counters of a queue. -/
def CompileQueue.countersToJson (q : CompileQueue) : Json :=
  .obj [("name", .str q.name), ("tier", .count q.tier.toNat), ("size", .count q.size),
    ("peak_size", .count q.peak), ("total_added", .count q.added),
    ("total_removed", .count q.removed)]

/-- The free bytes of the segments. -/
def CodeCache.freeToJson (c : CodeCache) : Json :=
  .arr (BlobKind.order.map fun k => .word (c.unallocated k))

/-- The counters of a tier. -/
def TierStatistics.toJson (s : TierStatistics) : Json :=
  .obj [("success", .count s.successes), ("bailout", .count s.bailouts),
    ("invalidated", .count s.invalidations), ("standard", .count s.standard),
    ("osr", .count s.osr), ("standard_bytes", .word s.standardBytes),
    ("osr_bytes", .word s.osrBytes), ("code_size", .word s.codeSize),
    ("ins_size", .word s.instructionsSize), ("compiles", .count s.compiles)]

/-- The statistics of a broker. -/
def Statistics.toJson (s : Statistics) : Json :=
  .obj [("total", s.total.toJson),
    ("tiers", .obj (s.tiers.map fun (t, x) => (toString t, x.toJson))),
    ("stale", .count s.stale), ("full", .count s.full), ("stopped", .count s.stopped),
    ("restarted", .count s.restarted), ("last", .str s.lastMethod),
    ("last_failed", .str s.lastFailed),
    ("reason", .ofOption (fun r => .str r.text) s.lastReason)]

/-- The account of tasks. -/
def TaskPool.toJson (p : TaskPool) : Json :=
  .obj [("allocated", .count p.allocated), ("recycled", .count p.recycled),
    ("worker", .count p.freedByWorker), ("requester", .count p.freedByRequester),
    ("stale", .count p.freedStale), ("live", .count p.live), ("peak", .count p.peakLive),
    ("freed", .count p.freed)]

/-- An entry of a log; of the time only whether it is known. -/
def LogEntry.toJson (e : LogEntry) : Json :=
  .arr [.count e.compileId.toNat, .count e.tier.toNat, .str e.method, .str e.event.name,
    .bool e.elapsed.isSome, .ofOption .str e.detail]

/-- A worker. -/
def Worker.toJson (w : Worker) : Json :=
  .arr [.str w.name, .count w.index, .count w.tier.toNat, .str w.state.name]

/-- The counters of one kind of compile. -/
def PhaseStatistics.toJson (p : PhaseStatistics) : Json :=
  .arr [.count p.count.toNat, .word p.bytes]

/-- A method and its class. -/
def Method.toJson (m : Method) (c : ClassInfo) : Json :=
  .obj [("name", .str m.name), ("full", .str m.fullName), ("class", .str c.name),
    ("size", .word m.bytecodeSize), ("native", .bool m.isNative), ("abstract", .bool m.isAbstract),
    ("intrinsic", .bool m.isIntrinsic), ("linked", .bool m.linked), ("old", .bool m.isOld),
    ("breakpoints", .bool m.hasBreakpoints), ("queued", .bool m.queued),
    ("class_init", .bool c.initialized), ("class_unloaded", .bool c.unloaded),
    ("not_compilable", .arr (m.notCompilable.toList.map fun t => .count t.toNat)),
    ("not_osr_compilable", .arr (m.notOsrCompilable.toList.map fun t => .count t.toNat))]

/-- An event; the method is given by its label. -/
def CompileEvent.toJson (e : CompileEvent) (label : String) : Json :=
  .obj [("compile_id", .count e.compileId.toNat), ("tier", .count e.tier.toNat), ("m", .str label),
    ("is_success", .bool e.success), ("is_osr", .bool e.osr),
    ("total_code_size", .word e.totalSize), ("inlined_bytecodes", .word e.inlinedBytecodes),
    ("arena_bytes", .word e.arenaBytes)]

end JitBroker
