import JitBroker.Broker.Action

/-!
# Starting and enlarging crews

When a broker starts, each unit gets its first workers, all it may have if crews are static and one
otherwise. Later a worker that has finished a task looks whether its crew should be larger, and
hires the missing workers one by one. Only one thread at a time does so; another one that would
like to goes on without. A thread that cannot be started ends the hiring, or the start of the
broker.
-/

namespace JitBroker

namespace Broker

/-- The worker that would be hired next for a unit. -/
def newWorker (b : Broker) (u : UnitId) (unit : TierUnit) : Worker where
  unit := u
  tier := unit.config.level
  index := unit.crew.live.length
  name := unit.kind.title ++ s!" CompilerThread{unit.crew.live.length}"
  idleSince := some b.clock
  log := { capacity := b.config.logCapacity.toNat }

/-- The broker with one more worker in a unit. -/
def hire (b : Broker) (u : UnitId) (unit : TierUnit) : Broker :=
  { b.modifyCrew u fun c => c.publish (c.live ++ [b.workers.size]) with
    workers := b.workers.add (b.newWorker u unit) }

/-- The broker with the lock of the crews given back. -/
def leaveCrews (b : Broker) : Broker := { b with crewLock := none }

end Broker

namespace CrewStep

/-- Goes on with another step. -/
def next (b : Broker) (s : CrewStep) : Option Turn := Turn.go b [.crew s]

/-- Hires a worker and goes on with another step. -/
def enlist (b : Broker) (u : UnitId) (unit : TierUnit) (s : CrewStep) : Option Turn :=
  some { broker := b.hire u unit, next := [.crew s], hired := some b.workers.size }

/-- Runs a step that enlarges a crew. -/
def run (me : Caller) (ch : Choices) (b : Broker) : CrewStep → Option Turn
  | .grow u =>
    match b.units[u]? with
    | none => Turn.fault b
    | some unit =>
      if unit.config.maxWorkers.toNat ≤ unit.crew.count then Turn.go b []
      else next b (.depth u unit.crew.count)
  | .depth u current =>
    match b.units[u]? with
    | none => Turn.fault b
    | some unit => next b (.weigh u current (UInt64.ofNat unit.queue.size))
  | .weigh u current queued =>
    match b.units[u]? with
    | none => Turn.fault b
    | some unit =>
      let desired := (unit.desiredWorkers queued b.freeMemory
        (b.cache.unallocated unit.config.blobKind)).toNat
      if desired ≤ current then Turn.go b [] else next b (.expand u desired)
  | .expand u desired =>
    if b.crewLock.isSome then Turn.go b []
    else next { b with crewLock := some me.thread } (.hire u desired)
  | .hire u desired =>
    match b.units[u]? with
    | none => Turn.fault b
    | some unit =>
      if unit.crew.live.length < desired && !b.exiting && ch.spawnError.isNone then
        enlist b u unit (.hire u desired)
      else Turn.go b.leaveCrews []
  | .launch [] => next b .open
  | .launch (u :: rest) =>
    match b.units[u]? with
    | none => Turn.fault b
    | some unit =>
      if b.crewLock.isSome then none
      else next { b with crewLock := some me.thread } (.staff u (b.initialWorkers unit) rest)
  | .staff _ 0 rest => next b.leaveCrews (.launch rest)
  | .staff u (count + 1) rest =>
    match b.units[u]? with
    | none => Turn.fault b
    | some unit =>
      match ch.spawnError with
      | none => enlist b u unit (.staff u count rest)
      | some reason =>
        Turn.go b.leaveCrews
          [.control .shutdown,
            .answer (.refused (.outOfResources (.threads unit.config.level reason)))]
  | .open => Turn.answer { b with initialized := true } .done

end CrewStep

end JitBroker
