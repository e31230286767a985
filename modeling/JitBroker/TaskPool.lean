import JitBroker.Task

/-!
# The account of tasks

The pool hands out tasks up to a limit of live ones and counts who gives them back. A few tasks
that were given back are kept as spares; an allocation that finds one counts as recycled.
-/

namespace JitBroker

/-- Who gave a task back. -/
inductive FreedBy where
  /-- The worker that completed it. -/
  | worker
  /-- The requester that waited for it. -/
  | requester
  /-- Whoever completed it as stale. -/
  | stale
  deriving Repr, DecidableEq

/-- The account of tasks. -/
structure TaskPool where
  /-- The most tasks that may be live. -/
  capacity : UInt64
  /-- The tasks handed out. -/
  allocated : Nat := 0
  /-- Those of them for which there was a spare. -/
  recycled : Nat := 0
  /-- The tasks given back by workers. -/
  freedByWorker : Nat := 0
  /-- The tasks given back by requesters. -/
  freedByRequester : Nat := 0
  /-- The tasks given back as stale. -/
  freedStale : Nat := 0
  /-- The tasks that are live. -/
  live : Nat := 0
  /-- The most tasks that were ever live. -/
  peakLive : Nat := 0
  /-- The spares. -/
  spares : Nat := 0
  deriving Repr, DecidableEq, Inhabited

namespace TaskPool

/-- The most spares that are kept. -/
def spareLimit : Nat := 64

/-- Hands out a task, unless as many are live as may be. -/
def allocate? (p : TaskPool) : Option TaskPool :=
  if p.live < p.capacity.toNat then
    some { p with
      allocated := p.allocated + 1
      recycled := if 0 < p.spares then p.recycled + 1 else p.recycled
      live := p.live + 1
      peakLive := max p.peakLive (p.live + 1)
      spares := p.spares - 1 }
  else none

/-- Takes a task back. -/
def free (p : TaskPool) (who : FreedBy) : TaskPool :=
  let p := { p with live := p.live - 1, spares := min (p.spares + 1) spareLimit }
  match who with
  | .worker => { p with freedByWorker := p.freedByWorker + 1 }
  | .requester => { p with freedByRequester := p.freedByRequester + 1 }
  | .stale => { p with freedStale := p.freedStale + 1 }

/-- The tasks given back by anyone. -/
def freed (p : TaskPool) : Nat := p.freedByWorker + p.freedByRequester + p.freedStale

end TaskPool

end JitBroker
