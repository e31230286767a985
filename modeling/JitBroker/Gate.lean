/-!
# The pause gate

Whoever needs the compiler threads to stand still asks for a pause and keeps a guard. A worker that
polls the gate while a pause is asked for parks, and goes on once the last guard has been dropped.
A parked worker remembers the bell of the gate and looks again when it has rung.

The request flag is read without the lock. It is up exactly while a guard is alive
(`PauseGate.Consistent`), which every operation keeps.
-/

namespace JitBroker

/-- The gate. -/
structure PauseGate where
  /-- How many guards are alive. -/
  guards : Nat := 0
  /-- Whether a pause is asked for. -/
  requested : Bool := false
  /-- How many workers are parked. -/
  parked : Nat := 0
  /-- How often parked workers were woken. -/
  bell : Nat := 0
  deriving Repr, DecidableEq, Inhabited

namespace PauseGate

/-- The gate with one more guard. -/
def pause (g : PauseGate) : PauseGate := { g with guards := g.guards + 1, requested := true }

/-- The gate with one guard less; the last one wakes the parked workers. -/
def release (g : PauseGate) : PauseGate :=
  if g.guards ≤ 1 then { g with guards := 0, requested := false, bell := g.bell + 1 }
  else { g with guards := g.guards - 1 }

/-- The gate with one more worker parked. -/
def park (g : PauseGate) : PauseGate := { g with parked := g.parked + 1 }

/-- The gate with one worker less parked. -/
def leave (g : PauseGate) : PauseGate := { g with parked := g.parked - 1 }

/-- The request flag tells whether a guard is alive. -/
def Consistent (g : PauseGate) : Prop := g.requested = decide (0 < g.guards)

theorem Consistent.pause {g : PauseGate} : g.pause.Consistent := by
  simp [Consistent, PauseGate.pause]

theorem Consistent.release {g : PauseGate} (h : g.Consistent) : g.release.Consistent := by
  unfold Consistent PauseGate.release
  split
  · simp
  · rename_i hg
    rw [show ({ g with guards := g.guards - 1 } : PauseGate).requested = g.requested from rfl, h]
    have : 0 < g.guards := by omega
    have : 0 < g.guards - 1 := by omega
    simp_all

end PauseGate

end JitBroker
