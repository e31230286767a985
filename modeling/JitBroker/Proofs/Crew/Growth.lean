import JitBroker.Proofs.Crew.Strength

/-!
# How far a crew grows

A worker that has finished a task looks whether its crew should be larger, and hires the workers
that are missing. What the crew should have is its *goal* (`TierUnit.goal`): one worker for so many
queued tasks, as far as the free memory, the free code space and the bound of the unit allow. If
nobody else moves in between, the crew has just what was missing to its goal afterwards
(`System.Growing`):

* it keeps its workers, and the new ones come after them, with the next indices;
* it stays as it is if it has reached its goal, or if the broker is disabled or shut down;
* a thread that cannot be started ends the hiring, and the workers hired before it stay;
* no other unit is touched.

So it is in every state in which a worker is about to look (`System.growing_of_poised`), and every
run of a broker leads to such states only (`System.growth_of_run`).
-/

namespace JitBroker

/-! ### Goals -/

/-- The number of workers that a unit should have, for so many queued tasks and so many free bytes. -/
def TierUnit.goal (x : TierUnit) (queued freeMemory freeCode : Nat) : Nat :=
  min (min (min x.config.maxWorkers.toNat (queued / x.config.tasksPerThread.toNat))
    (freeMemory / x.config.memoryBudget.toNat)) (freeCode / x.config.codeBudget.toNat)

theorem TierUnit.goal_le (x : TierUnit) (queued freeMemory freeCode : Nat) :
    x.goal queued freeMemory freeCode ≤ x.config.maxWorkers.toNat :=
  (min_le_left _ _).trans ((min_le_left _ _).trans (min_le_left _ _))

/-- The bounded arithmetic of the look computes the goal. -/
theorem TierUnit.toNat_desiredWorkers (x : TierUnit) (queued freeMemory freeCode : UInt64) :
    (x.desiredWorkers queued freeMemory freeCode).toNat =
      x.goal queued.toNat freeMemory.toNat freeCode.toNat := by
  have hmin (n k : UInt64) : (min n k).toNat = min n.toNat k.toNat := by
    change (if n ≤ k then n else k).toNat = _
    split
    · rename_i h
      exact (Nat.min_eq_left (UInt64.le_iff_toNat_le.1 h)).symm
    · rename_i h
      exact (Nat.min_eq_right (Nat.le_of_not_le fun h' => h (UInt64.le_iff_toNat_le.2 h'))).symm
  rw [desiredWorkers, hmin, hmin, hmin, UInt64.toNat_div, UInt64.toNat_div, UInt64.toNat_div, goal]

/-- A tier without fault divides by no zero. -/
theorem TierConfig.divisors_of_fault_eq_none {t : TierConfig} (h : t.fault? = none) :
    t.tasksPerThread ≠ 0 ∧ t.memoryBudget ≠ 0 ∧ t.codeBudget ≠ 0 :=
  have hvalid := t.fault_eq_none_iff.1 h
  ⟨hvalid.tasks, hvalid.memory, hvalid.code⟩

/-! ### Larger crews -/

/-- The second broker is the first one after so many workers were hired for a unit, and the lock of
the crews was given back. -/
structure Broker.Enlarged (b : Broker) (u : UnitId) (x : TierUnit) (n : Nat) (b' : Broker) :
    Prop where
  /-- The new workers come after those that were there. -/
  unit : b'.units[u]? =
    some { x with crew := x.crew.publish (x.crew.live ++ List.range' b.workers.size n) }
  /-- The other units are the same. -/
  others : ∀ v ≠ u, b'.units[v]? = b.units[v]?
  /-- So many workers are new. -/
  size : b'.workers.size = b.workers.size + n
  /-- The workers that were there are the same. -/
  kept : ∀ w < b.workers.size, b'.workers[w]? = b.workers[w]?
  /-- The new ones have the next indices. -/
  hired : ∀ k < n, ∃ worker, b'.workers[b.workers.size + k]? = some worker ∧
    worker.badge = x.badge u (x.crew.live.length + k)
  /-- Nothing else is changed. -/
  same : b' = { b with units := b'.units, workers := b'.workers, crewLock := none }

namespace Broker

variable {b b' : Broker} {u : UnitId} {x : TierUnit} {n : Nat}

/-- Hiring nobody is to give the lock back. -/
theorem Enlarged.zero (hx : b.units[u]? = some x) (hcrew : x.crew.publish x.crew.live = x.crew) :
    b.Enlarged u x 0 b.leaveCrews where
  unit := by
    rw [List.range'_zero, List.append_nil, hcrew]
    exact hx
  others _ _ := rfl
  size := rfl
  kept _ _ := rfl
  hired _ hk := absurd hk (Nat.not_lt_zero _)
  same := rfl

/-- Who holds the lock before does not matter. -/
theorem Enlarged.of_lock (lock : Option ThreadId)
    (h : { b with crewLock := lock }.Enlarged u x n b') : b.Enlarged u x n b' :=
  ⟨h.unit, h.others, h.size, h.kept, h.hired, h.same⟩

/-- One worker is hired, and then others. -/
theorem Enlarged.hire
    (h : (b.hire u x).Enlarged u { x with crew := x.crew.publish (x.crew.live ++ [b.workers.size]) }
      n b') : b.Enlarged u x (n + 1) b' := by
  have hworkers : (b.hire u x).workers = b.workers.add (b.newWorker u x) := rfl
  have hsize : (b.hire u x).workers.size = b.workers.size + 1 := by rw [hworkers, Table.size_add]
  refine ⟨?_, fun v hv => ?_, ?_, fun w hw => ?_, fun k hk => ?_, ?_⟩
  · have hpeak : max (max x.crew.peak (x.crew.live.length + 1)) (x.crew.live.length + (n + 1)) =
        max x.crew.peak (x.crew.live.length + (n + 1)) := by omega
    rw [h.unit, hsize, List.range'_succ]
    simp only [Crew.publish, List.append_assoc, List.singleton_append, List.length_append,
      List.length_cons, List.length_nil, List.length_range', Nat.zero_add, hpeak]
  · rw [h.others v hv]
    exact Table.getElem?_modify_of_ne (Ne.symm hv) _
  · rw [h.size, hsize]
    omega
  · rw [h.kept w (hsize ▸ Nat.lt_succ_of_lt hw), hworkers, Table.getElem?_add_of_lt hw]
  · cases k with
    | zero =>
      refine ⟨b.newWorker u x, ?_, badge_newWorker b u x⟩
      rw [Nat.add_zero, h.kept _ (hsize ▸ Nat.lt_succ_self _), hworkers, Table.getElem?_add_self]
    | succ k =>
      obtain ⟨worker, hworker, hbadge⟩ := h.hired k (Nat.lt_of_succ_lt_succ hk)
      refine ⟨worker, by rwa [hsize, Nat.add_right_comm] at hworker, hbadge.trans ?_⟩
      simp only [Crew.publish, List.length_append, List.length_singleton]
      rw [Nat.add_right_comm]
      rfl
  · rw [h.same]
    rfl

end Broker

/-- Whether a thread is about to look whether the crew of a unit should be larger. -/
def Thread.looks (u : UnitId) (th : Thread) : Bool :=
  match th.agenda with
  | .crew (.grow v) :: _ => v == u
  | _ => false

theorem Thread.exists_of_looks {u : UnitId} {th : Thread} (h : th.looks u = true) :
    ∃ rest, th.agenda = .crew (.grow u) :: rest := by
  unfold looks at h
  split at h
  · rename_i v rest ha
    obtain rfl := beq_iff_eq.1 h
    exact ⟨rest, ha⟩
  · cases h

namespace System

variable {s s₁ s' : System} {i : ThreadId} {rest : List Action} {ch : Nat → Choices} {u : UnitId}
  {x : TierUnit} {n d : Nat} {th : Thread} {st st' : CrewStep} {turn : Turn}

/-- A thread alone makes steps that enlarge a crew, with these choices one after the other, until it
goes on with the rest of its agenda. -/
inductive Finishes (i : ThreadId) (rest : List Action) : (Nat → Choices) → System → System → Prop where
  /-- It goes on. -/
  | done {ch : Nat → Choices} {s : System} {th : Thread} (hth : s.threads[i]? = some th)
    (ha : th.agenda = rest) : Finishes i rest ch s s
  /-- It makes such a step. -/
  | step {ch : Nat → Choices} {s s' : System} {th : Thread} {st : CrewStep}
    (hth : s.threads[i]? = some th) (ha : th.agenda = .crew st :: rest)
    (h : Finishes i rest (fun k => ch (k + 1)) (s.move (.step i (ch 0))) s') :
    Finishes i rest ch s s'

/-- The second system is the first one after a thread has hired so many workers for a unit. -/
structure Grows (s : System) (i : ThreadId) (u : UnitId) (x : TierUnit) (n : Nat) (s' : System) :
    Prop where
  /-- The crew is larger. -/
  broker : s.broker.Enlarged u x n s'.broker
  /-- The other threads have before them what they had. -/
  others : ∀ j ≠ i, j < s.threads.size → s'.threads[j]? = s.threads[j]?
  /-- As many threads have started as workers were hired. -/
  size : s'.threads.size = s.threads.size + n
  /-- They are those of the new workers. -/
  started : ∀ k < n,
    s'.threads[s.threads.size + k]? = some (.ofWorker (s.broker.workers.size + k))

/-- After a step in which nobody is hired the same is still to come. -/
theorem Grows.of_step (lock : Option ThreadId) (h : (s.turned i turn).Grows i u x n s')
    (hhired : turn.hired = none) (hbroker : turn.broker = { s.broker with crewLock := lock }) :
    s.Grows i u x n s' := by
  have hthreads : (s.turned i turn).threads = s.threads.modify i (·.after turn) := by
    rw [turned, threadsAfter, hhired]
  have hsize : (s.turned i turn).threads.size = s.threads.size := by
    rw [hthreads, Table.size_modify]
  refine ⟨.of_lock lock (hbroker ▸ h.broker), fun j hj hlt => ?_, hsize ▸ h.size,
    fun k hk => ?_⟩
  · rw [h.others j hj (hsize ▸ hlt), hthreads, Table.getElem?_modify_of_ne hj.symm]
  · have hstarted := h.started k hk
    rwa [hsize, broker_turned, hbroker] at hstarted

/-- After a step in which a worker is hired one less is still to come. -/
theorem Grows.of_hire {next : List Action}
    (hturn : turn = ⟨s.broker.hire u x, next, none, some s.broker.workers.size⟩)
    (hi : i < s.threads.size)
    (h : (s.turned i turn).Grows i u
      { x with crew := x.crew.publish (x.crew.live ++ [s.broker.workers.size]) } n s') :
    s.Grows i u x (n + 1) s' := by
  have hthreads : (s.turned i turn).threads =
      (s.threads.modify i (·.after turn)).add (.ofWorker s.broker.workers.size) := by
    rw [turned, threadsAfter, hturn]
  have hsize : (s.turned i turn).threads.size = s.threads.size + 1 := by
    rw [hthreads, Table.size_add, Table.size_modify]
  have hbroker : (s.turned i turn).broker = s.broker.hire u x := by rw [broker_turned, hturn]
  have hworkers : (s.broker.hire u x).workers.size = s.broker.workers.size + 1 := Table.size_add _ _
  refine ⟨.hire (hbroker ▸ h.broker), fun j hj hlt => ?_, by rw [h.size, hsize]; omega,
    fun k hk => ?_⟩
  · rw [h.others j hj (hsize ▸ Nat.lt_succ_of_lt hlt), hthreads,
      Table.getElem?_add_of_lt (by rwa [Table.size_modify]), Table.getElem?_modify_of_ne hj.symm]
  · cases k with
    | zero =>
      rw [Nat.add_zero, Nat.add_zero, h.others _ hi.ne' (hsize ▸ Nat.lt_succ_self _), hthreads,
        Table.getElem?_add, Table.size_modify, if_pos rfl]
    | succ k =>
      have hstarted := h.started k (Nat.lt_of_succ_lt_succ hk)
      rwa [hsize, hbroker, hworkers, Nat.add_right_comm, Nat.add_right_comm _ 1 k] at hstarted

/-! ### The steps of a look -/

/-- A look that ends here, without anybody hired. -/
theorem grows_of_end (hth : s.threads[i]? = some th) (ha : th.agenda = .crew st :: rest)
    (hx : s.broker.units[u]? = some x) (hcrew : x.crew.publish x.crew.live = x.crew)
    (hrun : st.run (th.caller i) (ch 0) s.broker = Turn.go s.broker.leaveCrews []) :
    ∃ s', Finishes i rest ch s s' ∧ s.Grows i u x 0 s' := by
  have hruns := runs_of_run hth ha (a := .crew st) hrun
  refine ⟨_, .step hth ha (.done hruns.thread_after (Thread.agenda_after ha)), ?_⟩
  · rw [hruns.turned]
    refine Grows.of_step none ⟨?_, fun _ _ _ => rfl, rfl, ?_⟩ rfl rfl
    · exact .zero (b := s.broker.leaveCrews) hx hcrew
    · exact fun k hk => absurd hk (Nat.not_lt_zero k)

/-- A look that goes on. -/
theorem grows_of_next (lock : Option ThreadId) (st' : CrewStep) (hth : s.threads[i]? = some th)
    (ha : th.agenda = .crew st :: rest) (hrun : st.run (th.caller i) (ch 0) s.broker =
      Turn.go { s.broker with crewLock := lock } [.crew st'])
    (h : ∀ s₁ : System, s₁.broker = { s.broker with crewLock := lock } →
      (∃ th', s₁.threads[i]? = some th' ∧ th'.agenda = .crew st' :: rest) →
      ∃ s', Finishes i rest (fun k => ch (k + 1)) s₁ s' ∧ s₁.Grows i u x n s') :
    ∃ s', Finishes i rest ch s s' ∧ s.Grows i u x n s' := by
  have hruns := runs_of_run hth ha (a := .crew st) hrun
  obtain ⟨s', hfinishes, hgrows⟩ := h _ (congrArg broker hruns.turned)
    ⟨_, hruns.thread_after, Thread.agenda_after ha⟩
  rw [hruns.turned] at hgrows
  exact ⟨s', .step hth ha hfinishes, hgrows.of_step lock rfl rfl⟩

/-- Whether one more worker is hired, with the crew at so many, for a number that there should be. -/
def Hiring (s : System) (c : Choices) (len d : Nat) : Prop :=
  len < d ∧ s.broker.exiting = false ∧ c.spawnError = none

/-- Workers are hired one after the other until one is not. -/
theorem grows_of_hire (hth : s.threads[i]? = some th) (ha : th.agenda = .crew (.hire u d) :: rest)
    (hx : s.broker.units[u]? = some x) (hcrew : x.crew.publish x.crew.live = x.crew)
    (hgo : ∀ k < n, s.Hiring (ch k) (x.crew.live.length + k) d)
    (hstop : ¬ s.Hiring (ch n) (x.crew.live.length + n) d) :
    ∃ s', Finishes i rest ch s s' ∧ s.Grows i u x n s' := by
  induction n generalizing s x th ch with
  | zero =>
    refine grows_of_end hth ha hx hcrew ?_
    rw [CrewStep.run, hx]
    refine if_neg fun h => hstop ?_
    simpa [Hiring, and_assoc] using h
  | succ n ih =>
    have hnow := hgo 0 n.succ_pos
    have hrun : (CrewStep.hire u d).run (th.caller i) (ch 0) s.broker =
        some ⟨s.broker.hire u x, [.crew (.hire u d)], none, some s.broker.workers.size⟩ := by
      rw [CrewStep.run, hx]
      exact if_pos (by simpa [Hiring, and_assoc] using hnow)
    have hruns := runs_of_run hth ha (a := .crew _) hrun
    have hunit : (s.move (.step i (ch 0))).broker.units[u]? = some
        { x with crew := x.crew.publish (x.crew.live ++ [s.broker.workers.size]) } := by
      rw [hruns.turned]
      exact Table.getElem?_modify_self hx _
    have hlength : (x.crew.publish (x.crew.live ++ [s.broker.workers.size])).live.length =
        x.crew.live.length + 1 := List.length_append
    have hexiting : (s.move (.step i (ch 0))).broker.exiting = s.broker.exiting := by
      rw [hruns.turned]
      rfl
    have hiring (k : Nat) : (s.move (.step i (ch 0))).Hiring (ch (k + 1))
        ((x.crew.publish (x.crew.live ++ [s.broker.workers.size])).live.length + k) d ↔
        s.Hiring (ch (k + 1)) (x.crew.live.length + (k + 1)) d := by
      rw [Hiring, hlength, hexiting, Nat.add_right_comm]
      rfl
    have hrest : ∃ s', Finishes i rest (fun k => ch (k + 1)) (s.move (.step i (ch 0))) s' ∧
        (s.move (.step i (ch 0))).Grows i u
          { x with crew := x.crew.publish (x.crew.live ++ [s.broker.workers.size]) } n s' :=
      ih hruns.thread_after (Thread.agenda_after ha) hunit (by simp [Crew.publish])
        (fun k hk => (hiring k).2 (hgo (k + 1) (Nat.succ_lt_succ hk)))
        fun hlast => hstop ((hiring n).1 hlast)
    obtain ⟨s', hfinishes, hgrows⟩ := hrest
    exact ⟨s', .step hth ha hfinishes,
      .of_hire rfl (Table.lt_size_of_getElem? hth) (hruns.turned ▸ hgrows)⟩

/-! ### The whole look -/

/-- A thread is about to look whether the crew of a unit should be larger, and nobody hires. -/
structure Poised (s : System) (i : ThreadId) (rest : List Action) (u : UnitId) (x : TierUnit) :
    Prop where
  /-- This is the thread. -/
  thread : ∃ th, s.threads[i]? = some th ∧ th.agenda = .crew (.grow u) :: rest
  /-- This is the unit. -/
  unit : s.broker.units[u]? = some x
  /-- The configuration of its tier is valid. -/
  valid : x.config.fault? = none
  /-- The number of its workers is published. -/
  published : x.crew.publish x.crew.live = x.crew
  /-- Nobody holds the lock of the crews. -/
  free : s.broker.crewLock = none
  /-- The length of its queue is a number of the machine. -/
  bounded : x.queue.size < 2 ^ 64

/-- The number of workers that a unit should have now. -/
def goal (s : System) (x : TierUnit) : Nat :=
  x.goal x.queue.size s.broker.freeMemory.toNat
    (s.broker.cache.unallocated x.config.blobKind).toNat

/-- What a look comes to, if nobody else moves until it is over. -/
structure Growing (s : System) (i : ThreadId) (rest : List Action) (u : UnitId) (x : TierUnit) :
    Prop where
  /-- The goal is computed without a division by zero. -/
  divisors : x.config.tasksPerThread ≠ 0 ∧ x.config.memoryBudget ≠ 0 ∧ x.config.codeBudget ≠ 0
  /-- A broker that is disabled or shut down hires nobody. -/
  exiting : s.broker.exiting = true → ∀ ch, ∃ s', Finishes i rest ch s s' ∧ s.Grows i u x 0 s'
  /-- Otherwise the crew reaches its goal, if every thread can be started. -/
  full : s.broker.exiting = false → ∀ ch : Nat → Choices, (∀ k, (ch k).spawnError = none) →
    ∃ n s', Finishes i rest ch s s' ∧ s.Grows i u x n s' ∧
      x.crew.live.length + n = max x.crew.live.length (s.goal x)
  /-- The first thread that cannot be started is the end: just the workers before it are hired. -/
  cut : s.broker.exiting = false → ∀ (ch : Nat → Choices) (k : Nat),
    x.crew.live.length + k < s.goal x → (∀ j < k, (ch (j + 4)).spawnError = none) →
    (ch (k + 4)).spawnError ≠ none → ∃ s', Finishes i rest ch s s' ∧ s.Grows i u x k s'

/-- Who is about to look hires as many workers as the steps of hiring allow. -/
theorem Poised.grows (h : s.Poised i rest u x)
    (hgo : ∀ k < n, s.Hiring (ch (k + 4)) (x.crew.live.length + k) (s.goal x))
    (hstop : ¬ s.Hiring (ch (n + 4)) (x.crew.live.length + n) (s.goal x)) :
    ∃ s', Finishes i rest ch s s' ∧ s.Grows i u x n s' := by
  obtain ⟨⟨th, hth, ha⟩, hx, -, hcrew, hfree, hbounded⟩ := h
  have hcount : x.crew.count = x.crew.live.length := by rw [← hcrew]; rfl
  have hsame : { s.broker with crewLock := none } = s.broker := by rw [← hfree]
  -- A crew that has reached its goal is not to grow, wherever that is found.
  have enough (hle : s.goal x ≤ x.crew.live.length) : n = 0 := by
    by_contra hne
    have hnow := (hgo 0 (Nat.pos_of_ne_zero hne)).1
    omega
  have ended {s₁ : System} {st : CrewStep} {c : Nat → Choices} (hs₁ : s₁.broker = s.broker)
      (hth : ∃ th, s₁.threads[i]? = some th ∧ th.agenda = .crew st :: rest)
      (hle : s.goal x ≤ x.crew.live.length)
      (hrun : ∀ me, st.run me (c 0) s.broker = Turn.go s.broker []) :
      ∃ s', Finishes i rest c s₁ s' ∧ s₁.Grows i u x n s' := by
    obtain ⟨th, hth, ha⟩ := hth
    rw [enough hle]
    refine grows_of_end hth ha (hs₁ ▸ hx) hcrew ?_
    rw [hs₁, hrun, Broker.leaveCrews, hsame]
  by_cases hmax : x.config.maxWorkers.toNat ≤ x.crew.count
  · refine ended rfl ⟨th, hth, ha⟩ ((x.goal_le _ _ _).trans (hcount ▸ hmax)) fun me => ?_
    rw [CrewStep.run, hx]
    exact if_pos hmax
  refine grows_of_next none (.depth u x.crew.count) hth ha ?_ fun s₁ hs₁ hth₁ => ?_
  · rw [CrewStep.run, hx, hsame]
    exact if_neg hmax
  rw [hsame] at hs₁
  obtain ⟨th₁, hth₁, ha₁⟩ := hth₁
  refine grows_of_next none (.weigh u x.crew.count (UInt64.ofNat x.queue.size)) hth₁ ha₁ ?_
    fun s₂ hs₂ hth₂ => ?_
  · rw [hs₁, CrewStep.run, hx, hsame]
    rfl
  rw [hs₁, hsame] at hs₂
  have hgoal : (x.desiredWorkers (UInt64.ofNat x.queue.size) s.broker.freeMemory
      (s.broker.cache.unallocated x.config.blobKind)).toNat = s.goal x := by
    rw [TierUnit.toNat_desiredWorkers, UInt64.toNat_ofNat_of_lt' hbounded, goal]
  by_cases hless : s.goal x ≤ x.crew.count
  · refine ended hs₂ hth₂ (hcount ▸ hless) fun me => ?_
    simp only [CrewStep.run, hx, hgoal]
    exact if_pos hless
  obtain ⟨th₂, hth₂, ha₂⟩ := hth₂
  refine grows_of_next none (.expand u (s.goal x)) hth₂ ha₂ ?_ fun s₃ hs₃ hth₃ => ?_
  · simp only [hs₂, CrewStep.run, hx, hgoal, hsame]
    exact if_neg hless
  rw [hs₂, hsame] at hs₃
  obtain ⟨th₃, hth₃, ha₃⟩ := hth₃
  refine grows_of_next (some i) (.hire u (s.goal x)) hth₃ ha₃ ?_ fun s₄ hs₄ hth₄ => ?_
  · rw [hs₃, CrewStep.run, hfree]
    rfl
  obtain ⟨th₄, hth₄, ha₄⟩ := hth₄
  have hiring (c : Choices) (len : Nat) :
      s₄.Hiring c len (s.goal x) ↔ s.Hiring c len (s.goal x) := by
    rw [Hiring, hs₄, hs₃]
    rfl
  refine grows_of_hire hth₄ ha₄ ?_ hcrew (fun k hk => (hiring _ _).2 (hgo k hk))
    fun hlast => hstop ((hiring _ _).1 hlast)
  rw [hs₄, hs₃]
  exact hx

/-- Who is about to look hires just the workers that are missing to the goal. -/
theorem growing_of_poised (h : s.Poised i rest u x) : s.Growing i rest u x where
  divisors := TierConfig.divisors_of_fault_eq_none h.valid
  exiting hexiting ch := by
    refine h.grows (fun k hk => absurd hk (Nat.not_lt_zero k)) fun hnow => ?_
    cases hexiting.symm.trans hnow.2.1
  full hexiting ch hspawns := by
    have hgrows : ∃ s', Finishes i rest ch s s' ∧
        s.Grows i u x (s.goal x - x.crew.live.length) s' :=
      h.grows (fun k hk => ⟨by omega, hexiting, hspawns _⟩) fun hlast => absurd hlast.1 (by omega)
    obtain ⟨s', hfinishes, hgrows⟩ := hgrows
    exact ⟨_, s', hfinishes, hgrows, by omega⟩
  cut hexiting ch k hk hbefore herror := by
    refine h.grows (fun j hj => ⟨by omega, hexiting, hbefore j hj⟩) fun hlast => ?_
    exact herror hlast.2.2

/-! ### Every run -/

/-- In every state a worker that looks while nobody else moves makes the crew just as large as it
should be; and in every run of a broker, whoever is about to look while nobody hires is in such a
state. -/
theorem growth_of_run {config : Config} {parts : Broker.Parts} {b : Broker}
    (hb : Broker.assemble config parts = .ok b) (ms : List Move) :
    (∀ (s : System) (i : ThreadId) (rest : List Action) (u : UnitId) (x : TierUnit),
      s.Poised i rest u x → s.Growing i rest u x) ∧
    ∀ (i : ThreadId) (th : Thread) (rest : List Action) (u : UnitId) (x : TierUnit),
      (ms.foldl move (launch b)).threads[i]? = some th →
      th.agenda = .crew (.grow u) :: rest →
      (ms.foldl move (launch b)).broker.units[u]? = some x →
      (ms.foldl move (launch b)).broker.crewLock = none → x.queue.size < 2 ^ 64 →
      (ms.foldl move (launch b)).Poised i rest u x := by
  refine ⟨fun s i rest u x h => growing_of_poised h,
    fun i th rest u x hth ha hx hfree hbounded => ?_⟩
  have hr : Reachable (launch b) (ms.foldl move (launch b)) := reachable_iff_foldl.2 ⟨ms, rfl⟩
  have hvalid : x.config.fault? = none := by
    refine Broker.fault_of_assemble hb _ ?_
    rw [← show (ms.foldl move (launch b)).broker.unitConfigs = b.unitConfigs from hr.unitConfigs,
      Table.mem_toList_iff]
    exact ⟨u, by rw [Broker.unitConfigs, Table.getElem?_map, hx]; rfl⟩
  have hcrew : x.crew.publish x.crew.live = x.crew := by
    obtain ⟨hcount, hpeak⟩ := (hr.mustered hb).count hx
    rw [Crew.publish, ← hcount, Nat.max_eq_left (hcount ▸ hpeak)]
  exact ⟨⟨th, hth, ha⟩, hx, hvalid, hcrew, hfree, hbounded⟩

/-- Of four tasks one is finished, and there is memory for more workers than there may be, when the
only worker looks. -/
def elasticLooks : List Move :=
  soloStart ++ [.operate (.addMethod { name := "g", className := "C" }),
      .operate (.addMethod { name := "h", className := "C" }),
      .operate (.addMethod { name := "k", className := "C" }), .operate (.setMemory 9)]
    ++ soloRequest 2 0 ++ times 1 11 ++ soloRequest 3 1 ++ soloRequest 4 2 ++ soloRequest 5 3
    ++ [.step 1 { move := some .finish }] ++ times 1 12

/-- It hires the two workers that are missing, or just one if the second one cannot be started. -/
theorem growth_of_elasticLooks : ∃ x rest,
    (elasticLooks.foldl move (launch .elastic)).Growing 1 rest 0 x ∧
      (elasticLooks.foldl move (launch .elastic)).broker.exiting = false ∧
      x.crew.live = [0] ∧ (elasticLooks.foldl move (launch .elastic)).goal x = 3 ∧
      ((elasticLooks ++ times 1 7).foldl move (launch .elastic)).broker.units.toList.map
        (fun x => x.crew) = [⟨[0, 1, 2], 3, 3⟩] ∧
      ((elasticLooks ++ times 1 5 ++ [Move.step 1 { spawnError := some "no threads" }]).foldl move
        (launch .elastic)).broker.units.toList.map (fun x => x.crew) = [⟨[0, 1], 2, 2⟩] := by
  obtain ⟨general, run⟩ := growth_of_run Broker.assemble_elastic elasticLooks
  have hlook : (elasticLooks.foldl move (launch .elastic)).threads[1]?.map (Thread.looks 0) =
      some true := by decide +kernel
  obtain ⟨th, hth, hlooks⟩ := Option.map_eq_some_iff.1 hlook
  obtain ⟨rest, ha⟩ := Thread.exists_of_looks hlooks
  have hunit : (elasticLooks.foldl move (launch .elastic)).broker.units[0]?.map (fun x =>
      (x.crew.live, x.queue.size, (elasticLooks.foldl move (launch .elastic)).goal x)) =
      some ([0], 3, 3) := by decide +kernel
  obtain ⟨x, hx, hfields⟩ := Option.map_eq_some_iff.1 hunit
  obtain ⟨hlive, hsize, hgoal⟩ : x.crew.live = [0] ∧ x.queue.size = 3 ∧
      (elasticLooks.foldl move (launch .elastic)).goal x = 3 := by simpa using hfields
  have hpoised := run 1 th rest 0 x hth ha hx (by decide +kernel) (by omega)
  exact ⟨x, rest, general _ _ _ _ _ hpoised, by decide +kernel, hlive, hgoal, by decide +kernel,
    by decide +kernel⟩

end System

end JitBroker
