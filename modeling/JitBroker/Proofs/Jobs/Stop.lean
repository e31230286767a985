import JitBroker.Proofs.Setting

/-!
# Stopping jobs by hand

Jobs that were stopped by hand are taken up again by hand only. But a stop counts only if jobs are
running: one that comes while they are stopped for want of code space changes nothing, and is
forgotten. So the next request or decompilation that finds room lets jobs go on, although the last
word from outside was to stop (`System.stop_lost_iff`).
-/

namespace JitBroker

/-- What is said from outside about taking jobs. -/
def Action.orders : Action → Option Bool
  | .control (.accept on) => some on
  | _ => none

/-- Unless they are told to, jobs that do not run begin to run only after a stop for want of code
space. -/
theorem Action.jobs_eq_run {a : Action} {eviction : Bool} {j : JobState}
    (ha : a.orders ≠ some true) (h : a.jobs eviction j = .run) : j = .run ∨ j = .stoppedForCache := by
  cases j <;> unfold Action.jobs at h <;> split at h <;> simp_all [Action.orders]

/-- Jobs that were stopped by hand, or for good, stay so unless they are told to run. -/
theorem Action.jobs_held {a : Action} {eviction : Bool} {j : JobState} (ha : a.orders ≠ some true)
    (h : j = .stopped ∨ j = .shutDown) :
    a.jobs eviction j = .stopped ∨ a.jobs eviction j = .shutDown := by
  rcases h with rfl | rfl <;> unfold Action.jobs <;> split <;> simp_all [Action.orders]

/-- What is said stops jobs that run. -/
theorem Action.jobs_of_orders {a : Action} {eviction : Bool} {j : JobState}
    (ha : a.orders = some false) : a.jobs eviction j = if j = .run then .stopped else j := by
  unfold Action.orders at ha
  split at ha
  · obtain rfl := Option.some.inj ha
    rfl
  · cases ha

namespace System

/-- What is said about taking jobs in a row of moves. -/
def orders (s : System) (ms : List Move) : List Bool := (s.trace ms).filterMap Action.orders

/-- A move lets jobs go on that were stopped for want of code space. -/
def Restarts (s : System) (m : Move) : Prop :=
  s.broker.jobs = .stoppedForCache ∧ (s.move m).broker.accepting = true

instance (s : System) (m : Move) : Decidable (s.Restarts m) :=
  inferInstanceAs (Decidable (_ ∧ _))

variable {s : System} {m : Move} {ms : List Move}

theorem orders_cons (s : System) (m : Move) (ms : List Move) :
    s.orders (m :: ms) = (s.ran m).toList.filterMap Action.orders ++ (s.move m).orders ms :=
  List.filterMap_append

theorem orders_append (s : System) (ms ms' : List Move) :
    s.orders (ms ++ ms') = s.orders ms ++ (ms.foldl move s).orders ms' := by
  rw [orders, trace_append, List.filterMap_append]
  rfl

/-- What is not said in a row of moves is not said in its first move, nor in the others. -/
theorem notMem_orders_cons {on : Bool} :
    on ∉ s.orders (m :: ms) ↔ on ∉ s.orders [m] ∧ on ∉ (s.move m).orders ms := by
  rw [← List.singleton_append, orders_append, List.mem_append, not_or]
  rfl

/-! ### What a move does to the state of jobs -/

/-- What a move makes of the state of jobs is what the action that it runs makes of it. -/
theorem jobs_move (s : System) (m : Move) :
    (s.move m).broker.jobs = s.broker.jobs ∨
      ∃ a, s.ran m = some a ∧
        (s.move m).broker.jobs = a.jobs s.broker.config.eviction s.broker.jobs := by
  cases h : s.ran m with
  | none => exact .inl (steady_of_ran_eq_none h).jobs
  | some a => exact .inr ⟨a, rfl, (regular_of_ran h).jobs⟩

/-- Disabled is for good. -/
theorem disabled_move (h : s.broker.disabled = true) (m : Move) :
    (s.move m).broker.disabled = true := by
  cases hr : s.ran m with
  | none => rw [(steady_of_ran_eq_none hr).disabled, h]
  | some a => rw [(regular_of_ran hr).disabled, h, Bool.true_or]

theorem accepting_eq_true_iff {b : Broker} :
    b.accepting = true ↔ b.jobs = .run ∧ b.disabled = false := by
  simp [Broker.accepting]

theorem orders_eq_singleton {on : Bool} (h : s.orders [m] = [on]) :
    ∃ a, s.ran m = some a ∧ a.orders = some on := by
  rw [orders, trace, trace, List.append_nil, List.filterMap_eq_cons_iff] at h
  obtain ⟨l, a, r, heq, -, ha, -⟩ := h
  have hmem : a ∈ (s.ran m).toList := heq ▸ by simp
  exact ⟨a, Option.mem_toList.1 hmem, ha⟩

theorem orders_ran {a : Action} (ha : s.ran m = some a) (hm : true ∉ s.orders [m]) :
    a.orders ≠ some true := by
  rw [orders_cons, ha, List.mem_append, not_or] at hm
  exact fun ho => hm.1 (List.mem_filterMap.2 ⟨a, by simp, ho⟩)

/-- Unless they are told to, jobs that do not run begin to run only after a stop for want of code
space. -/
theorem jobs_of_move_eq_run (hm : true ∉ s.orders [m]) (h : (s.move m).broker.jobs = .run) :
    s.broker.jobs = .run ∨ s.broker.jobs = .stoppedForCache := by
  rcases s.jobs_move m with heq | ⟨a, ha, heq⟩
  · exact .inl (heq ▸ h)
  · exact Action.jobs_eq_run (orders_ran ha hm) (heq ▸ h)

/-- Jobs that were stopped by hand, or for good, stay so unless they are told to run. -/
theorem held_move (h : s.broker.jobs = .stopped ∨ s.broker.jobs = .shutDown)
    (hm : true ∉ s.orders [m]) :
    (s.move m).broker.jobs = .stopped ∨ (s.move m).broker.jobs = .shutDown := by
  rcases s.jobs_move m with heq | ⟨a, ha, heq⟩
  · rwa [heq]
  · rw [heq]
    exact Action.jobs_held (orders_ran ha hm) h

/-! ### What rows of moves do to it -/

theorem disabled_foldl (h : s.broker.disabled = true) (ms : List Move) :
    (ms.foldl move s).broker.disabled = true := by
  induction ms generalizing s with
  | nil => exact h
  | cons m ms ih => exact ih (disabled_move h m)

theorem held_foldl (h : s.broker.jobs = .stopped ∨ s.broker.jobs = .shutDown)
    (hms : true ∉ s.orders ms) :
    (ms.foldl move s).broker.jobs = .stopped ∨ (ms.foldl move s).broker.jobs = .shutDown := by
  induction ms generalizing s with
  | nil => exact h
  | cons m ms ih =>
    obtain ⟨hm, hms⟩ := notMem_orders_cons.1 hms
    exact ih (held_move h hm) hms

/-- Jobs that are taken after a row of moves in which they were not told to run went on at some
point of it. -/
theorem exists_restarts (h : s.broker.jobs ≠ .run) (hms : true ∉ s.orders ms)
    (haccept : (ms.foldl move s).broker.accepting = true) :
    ∃ (as : List Move) (m : Move) (bs : List Move),
      ms = as ++ m :: bs ∧ (as.foldl move s).Restarts m := by
  induction ms generalizing s with
  | nil => exact absurd (accepting_eq_true_iff.1 haccept).1 h
  | cons m ms ih =>
    obtain ⟨hm, hms⟩ := notMem_orders_cons.1 hms
    by_cases hrun : (s.move m).broker.jobs = .run
    · refine ⟨[], m, ms, rfl, (jobs_of_move_eq_run hm hrun).resolve_left h, ?_⟩
      -- Compilation is not disabled, as it would still be when jobs are taken.
      refine accepting_eq_true_iff.2 ⟨hrun, Bool.not_eq_true _ ▸ fun hdisabled => ?_⟩
      have hlater : (ms.foldl move (s.move m)).broker.disabled = true :=
        disabled_foldl hdisabled ms
      exact Bool.false_ne_true ((accepting_eq_true_iff.1 haccept).2.symm.trans hlater)
    · obtain ⟨as, r, bs, rfl, hr⟩ := ih hrun hms haccept
      exact ⟨m :: as, r, bs, rfl, hr⟩

/-! ### When a stop is lost -/

/-- A stop by hand is lost, so that jobs are taken at some later point although they were not told
to run, if and only if it came while jobs were stopped for want of code space, and they went on
afterwards. -/
theorem stop_lost_iff {after : List Move} (hstop : s.orders [m] = [false])
    (hafter : true ∉ (s.move m).orders after) :
    (∃ ms, ms <+: after ∧ (ms.foldl move (s.move m)).broker.accepting = true) ↔
      s.broker.jobs = .stoppedForCache ∧
        ∃ as r bs, after = as ++ r :: bs ∧ (as.foldl move (s.move m)).Restarts r := by
  have hjobs : (s.move m).broker.jobs =
      if s.broker.jobs = .run then .stopped else s.broker.jobs := by
    obtain ⟨a, ha, ho⟩ := orders_eq_singleton hstop
    rw [(regular_of_ran ha).jobs, Action.jobs_of_orders ho]
  constructor
  · rintro ⟨ms, ⟨rest, rfl⟩, haccept⟩
    rw [orders_append, List.mem_append, not_or] at hafter
    have hrun : (s.move m).broker.jobs ≠ .run := by
      rw [hjobs]
      split <;> simp_all
    obtain ⟨as, r, bs, rfl, hr⟩ := exists_restarts hrun hafter.1 haccept
    refine ⟨?_, as, r, bs ++ rest, by simp, hr⟩
    by_contra hcache
    have hheld : (s.move m).broker.jobs = .stopped ∨ (s.move m).broker.jobs = .shutDown := by
      rw [hjobs]
      cases hj : s.broker.jobs <;> simp_all
    rw [orders_append, List.mem_append, not_or] at hafter
    have hstays := held_foldl hheld hafter.1.1
    rw [hr.1] at hstays
    simp at hstays
  · rintro ⟨-, as, r, bs, rfl, hr⟩
    refine ⟨as ++ [r], by simp, ?_⟩
    rw [List.foldl_append]
    exact hr.2

end System

/-! ### A broker with two tiers -/

/-- A configuration with two tiers on different segments, one worker for each. -/
def Config.duo : Config where
  dynamicPool := false
  restartHeadroom := 600
  tiers := [.solo,
    { TierConfig.solo with level := 2, compiler := .c2, blobKind := .nonProfiled }]

namespace Broker

/-- What a broker with two tiers is built from. -/
def Parts.duo : Parts where
  backends := [(1, .c1), (2, .c2)]
  cache := .ofCapacities 0 1000 4096
  freeMemory := 1

/-- A broker with two tiers, one worker for each. -/
def duo : Broker := (assemble .duo .duo).toOption.getD default

theorem assemble_duo : assemble .duo .duo = .ok duo := rfl

end Broker

namespace System

/-- The broker with two tiers starts, jobs are stopped for want of code space, and a thread is to
stop them by hand. -/
def duoFull : List Move :=
  times 0 8 ++ [.call (.cacheFull .profiled) 0] ++ times 3 3 ++ [.call (.accept false) 0]

/-- A new thread makes so many steps of a request at the other tier. -/
def duoRequest (i : ThreadId) (n : Nat) : List Move :=
  .call (.request { method := 0, tier := 2 }) 0 :: times i n

/-- There the stop is lost: the request lets jobs go on. -/
theorem stop_lost_of_duoFull :
    (duoFull.foldl move (launch .duo)).orders [.step 4 {}] = [false] ∧
      ∃ ms, ms <+: duoRequest 5 6 ∧
        (ms.foldl move ((duoFull.foldl move (launch .duo)).move (.step 4 {}))).broker.accepting =
          true :=
  ⟨by decide +kernel, (stop_lost_iff (by decide +kernel) (by decide +kernel)).2
    ⟨by decide +kernel, duoRequest 5 5, .step 5 {}, [], rfl, by decide +kernel⟩⟩

end System

end JitBroker
