/-!
# Workloads

What a simulation is asked to do: how many threads make how many requests for how many methods.
-/

namespace JitBroker

/-- The workload of a simulation. -/
structure Workload where
  /-- How many methods there are. -/
  methods : Nat := 200
  /-- How many threads make requests. -/
  threads : Nat := 4
  /-- How many requests each of them makes. -/
  requests : Nat := 500
  /-- The share of requests that wait. -/
  blockingRatio : Float := 0.05
  /-- The microseconds that a compile takes at the cheapest kind of tier. -/
  compileTime : UInt64 := 200
  /-- Whether code is decompiled and requested again in the end. -/
  restores : Bool := false
  /-- Where the random numbers begin. -/
  seed : UInt64
  deriving Inhabited

end JitBroker
