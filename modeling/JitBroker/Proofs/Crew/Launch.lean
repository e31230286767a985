import JitBroker.Proofs.Config.Registry
import JitBroker.Proofs.Crew.Muster

/-!
# How a broker is started

The thread that starts a broker starts the crews of its units one after the other, and opens the
broker then. Nothing keeps it from that, as long as threads can be started: the lock of the crews is
only taken to enlarge a crew otherwise, which a worker does when it has finished a task, and before
the broker is open there are no tasks (`System.Early`). So each of its steps is possible, after so
many steps it is done (`System.Launching`), and at that time each crew has the workers that it is to
start with.

* `System.Launching.move_of_other`: nobody else is in the way;
* `System.Launching.move_of_own`: each step of the thread leaves one step less;
* `System.initialized_of_valid`: what is accepted is what is valid, and it can be started.
-/

namespace JitBroker

/-! ### Before the broker is open -/

/-- Whether a crew is enlarged, or is to be by a worker that has finished a task. -/
def Action.enlarges : Action → Bool
  | .crew s => s.isPrompt
  | .worker _ .settle => true
  | _ => false

variable {me : Caller} {ch : Choices} {b b₀ : Broker} {turn : Turn}

namespace WorkerStep

variable {w : WorkerId} {worker : Worker} {unit : TierUnit} {s : WorkerStep} {c : CompileRun}

theorem obey_enlarges {task : Task} {move : BackendMove}
    (h : obey b w c task unit move = some turn) : turn.next.all (!·.enlarges) = true := by
  cases move with
  | call call =>
    obtain rfl := Option.some.inj h
    cases call <;> rfl
  | _ =>
    rw [obey] at h
    repeat' split at h
    all_goals
      obtain rfl := Option.some.inj h
      rfl

/-- A worker is done with a task after it has written the result, and enlarges the crew then. -/
theorem run_enlarges (h : s.run me ch b w worker unit = some turn) (hpublish : ∀ f, s ≠ .publish f)
    (hsettle : s ≠ .settle) : turn.next.all (!·.enlarges) = true := by
  cases s with
  | publish f => exact absurd rfl (hpublish f)
  | settle => exact absurd rfl hsettle
  | compile c =>
    rw [run] at h
    split at h
    · obtain rfl := Option.some.inj h
      rfl
    · cases h
    · exact obey_enlarges h
  | choose =>
    have stale (ts : List TaskId) : (ts.flatMap Action.stale).all (!·.enlarges) = true := by
      refine List.all_eq_true.2 fun a ha => ?_
      obtain ⟨t, -, ha⟩ := List.mem_flatMap.1 ha
      obtain ⟨s, -, rfl⟩ := List.mem_map.1 ha
      rfl
    rw [run] at h
    repeat' split at h
    all_goals
      obtain rfl := Option.some.inj h
      first
        | rfl
        | (rw [List.all_append, stale]
           rfl)
  | judge c =>
    obtain rfl := Option.some.inj h
    cases c.report.cacheFull <;> rfl
  | _ =>
    rw [run] at h
    (try simp only at h)
    repeat' split at h
    all_goals first
      | (obtain rfl := Option.some.inj h
         rfl)
      | cases h

end WorkerStep

/-- Who starts crews does not enlarge them. -/
theorem CrewStep.run_enlarges {s : CrewStep} (h : s.run me ch b = some turn)
    (hs : s.isPrompt = false) : turn.next.all (!·.enlarges) = true := by
  rcases s with u | ⟨u, n⟩ | ⟨u, n, k⟩ | ⟨u, n⟩ | ⟨u, n⟩ | (_ | ⟨u, us⟩) | ⟨u, _ | n, us⟩ | _
  iterate 5 exact absurd hs.symm Bool.false_ne_true
  all_goals
    rw [run] at h
    repeat' split at h
    all_goals first
      | (obtain rfl := Option.some.inj h
         rfl)
      | cases h

/-- A step that enlarges a crew comes from such a step, or from a worker with a result. -/
theorem Action.enlarges_of_next {a a' : Action} (h : a.run me ch b = some turn)
    (ha' : a' ∈ turn.next) (henlarges : a'.enlarges = true) :
    a.enlarges = true ∨ ∃ w f, a = .worker w (.publish f) := by
  have none (hall : turn.next.all (!·.enlarges) = true) : False := by
    have hnot := List.all_eq_true.1 hall a' ha'
    rw [henlarges] at hnot
    cases hnot
  have hkind : a'.kind = .crew ∨ a'.kind = .settle := by
    cases a' with
    | crew s => exact .inl rfl
    | worker w s =>
      cases s with
      | settle => exact .inr rfl
      | _ => cases henlarges
    | _ => cases henlarges
  have hbrings := Action.brings_of_run h a' ha'
  cases a with
  | worker w s =>
    by_cases hsettle : s = .settle
    · exact .inl (hsettle ▸ rfl)
    by_cases hpublish : ∃ f, s = .publish f
    · obtain ⟨f, rfl⟩ := hpublish
      exact .inr ⟨w, f, rfl⟩
    · rw [not_exists] at hpublish
      rw [run] at h
      repeat' split at h
      · exact (none (Option.some.inj h ▸ rfl)).elim
      · exact (none (Option.some.inj h ▸ rfl)).elim
      · exact (none (WorkerStep.run_enlarges h hpublish hsettle)).elim
  | crew s =>
    cases hs : s.isPrompt with
    | true => exact .inl hs
    | false => exact (none (CrewStep.run_enlarges h hs)).elim
  | request s => rcases hkind with hk | hk <;> rw [hk] at hbrings <;> cases s <;> cases hbrings
  | task s =>
    rcases Action.kind_task s with hs | hs <;> rcases hkind with hk | hk <;>
      rw [hs, hk] at hbrings <;> cases hbrings
  | control s => rcases hkind with hk | hk <;> rw [hk] at hbrings <;> cases s <;> cases hbrings
  | _ => rcases hkind with hk | hk <;> rw [hk] at hbrings <;> cases hbrings

namespace System

variable {s : System} {m : Move} {i : ThreadId} {th : Thread} {a a' : Action} {u : UnitId}
  {x : TierUnit} {k : Nat} {config : Config} {parts : Broker.Parts} {ms : List Move}

/-- A broker is opened by one step. -/
theorem ran_of_initialized (hs : s.Lawful) (ho : s.Ordered)
    (hclosed : s.broker.initialized = false) (hopen : (s.move m).broker.initialized = true) :
    s.ran m = some (.crew .open) := by
  have same (h : (s.move m).broker.initialized = s.broker.initialized) : False :=
    Bool.false_ne_true (hclosed.symm.trans (h.symm.trans hopen))
  cases hran : s.ran m with
  | some a =>
    obtain ⟨i, ch, th, rest, turn, hruns⟩ := exists_runs hran
    have hready := fun d hd => hs.ready d (mem_duties.2 ⟨a, hruns.mem_pending, hd⟩)
    rcases (Action.alert hs.sound hready (ho.unit a hruns.mem_pending) hruns.run).initialized with
      heq | ⟨rfl, -⟩
    · exact (same (by rw [hruns.turned, broker_turned, heq])).elim
    · rfl
  | none =>
    cases m with
    | step i ch => exact (same (by rw [move_step_of_ran hran])).elim
    | call c n => exact (same rfl).elim
    | operate o => exact (same (s.broker.stirs_operate o).initialized).elim

/-- Before the broker is open, no crew is enlarged. -/
def Early (s : System) : Prop := ∀ a ∈ s.pending, a.enlarges = true → s.broker.initialized = true

theorem Early.move (h : s.Early) (hs : s.Lawful) (ho : s.Ordered) (hstarted : s.Started)
    (m : Move) : (s.move m).Early := by
  intro a' ha' henlarges
  have stay : s.broker.initialized = true → (s.move m).broker.initialized = true :=
    initialized_move hs ho m
  obtain ⟨others, new, hnew, hbefore, hafter⟩ := s.exists_pending_move m
  rw [hafter, Multiset.mem_add] at ha'
  rcases ha' with hold | ha'
  · exact stay (h a' (hbefore ▸ Multiset.mem_add.2 (.inl hold)) henlarges)
  cases hnew with
  | call hm =>
    have hkind := Call.kind_of_mem (Multiset.mem_coe.1 ha')
    cases a' with
    | worker w st => cases st <;> simp [Action.kind] at hkind
    | crew st => simp [Action.kind] at hkind
    | _ => cases henlarges
  | nothing _ => exact absurd ha' (Multiset.notMem_zero a')
  | @step i ch th a rest turn hruns =>
    rcases List.mem_append.1 (Multiset.mem_coe.1 ha') with hnext | hhired
    · rcases Action.enlarges_of_next hruns.run hnext henlarges with hold | ⟨w, f, rfl⟩
      · exact stay (h a hruns.mem_pending hold)
      · -- A worker with a result has a task, and there are none before the broker is open.
        have hknown := hs.known _ (mem_duties.2 ⟨_, hruns.mem_pending, rfl⟩)
        exact stay (hstarted.tasks (Nat.zero_lt_of_lt (hknown.2 f.task rfl)))
    · obtain ⟨w, -, rfl⟩ := List.mem_map.1 hhired
      cases henlarges

theorem Reachable.early (hb : Broker.assemble config parts = .ok b) (h : Reachable (launch b) s) :
    s.Early := by
  have hfresh := Broker.fresh_assemble hb
  induction h with
  | first =>
    intro a ha henlarges
    rw [mem_pending_launch ha] at henlarges
    cases henlarges
  | move m hr ih => exact ih.move (hr.lawful hfresh) (hr.ordered hfresh) (hr.started hb) m

end System

/-! ### The steps of a start -/

namespace Broker

/-- How many workers a unit starts with. -/
def crewSize (b : Broker) (u : UnitId) : Nat := (b.units[u]?.map b.initialWorkers).getD 0

/-- How many steps it takes to start the crews of these units, and to open the broker then. -/
def startSteps (b : Broker) (us : List UnitId) : Nat := (us.map fun u => b.crewSize u + 2).sum + 2

theorem startSteps_cons (b : Broker) (u : UnitId) (us : List UnitId) :
    b.startSteps (u :: us) = b.crewSize u + 2 + b.startSteps us := by
  rw [startSteps, startSteps, List.map_cons, List.sum_cons, Nat.add_assoc]

end Broker

namespace CrewStep

/-- How many workers a unit still lacks when a step of the start is to come. -/
def lacking (b : Broker) (u : UnitId) : CrewStep → Nat
  | .launch us => if u ∈ us then b.crewSize u else 0
  | .staff v n us => if u = v then n else if u ∈ us then b.crewSize u else 0
  | _ => 0

/-- How many steps are left with it. -/
def stepsLeft (b : Broker) : CrewStep → Nat
  | .launch us => b.startSteps us
  | .staff _ n us => n + 1 + b.startSteps us
  | .open => 1
  | _ => 0

end CrewStep

/-- The crews have the workers that they start with, but for those that they still lack when a step
of the start is to come. -/
def Broker.Staffed (b b₀ : Broker) (st : CrewStep) : Prop :=
  ∀ {u : UnitId} {x : TierUnit}, b₀.units[u]? = some x →
    x.crew.live.length + st.lacking b u = b.crewSize u

namespace CrewStep

variable {st : CrewStep}

/-- Each step of a start opens the broker, or leads to the next one. -/
theorem start_run (h : st.run me ch b₀ = some turn) (hst : st.isPrompt = false)
    (hspawn : ch.spawnError = none) (hunits : ∀ u ∈ (Action.crew st).units, u < b₀.units.size)
    (hplans : (Action.crew st).Plans b₀)
    (hsize : ∀ {u : UnitId} {x : TierUnit}, b₀.units[u]? = some x →
      b₀.initialWorkers x = b.crewSize u) (hcrews : b.Staffed b₀ st) :
    st = .open ∧ turn = { broker := { b₀ with initialized := true }, reply := some .done } ∨
      ∃ st', turn.next = [.crew st'] ∧ turn.reply = none ∧ st'.isPrompt = false ∧
        turn.broker.initialized = b₀.initialized ∧ st.stepsLeft b = st'.stepsLeft b + 1 ∧
        b.Staffed turn.broker st' := by
  cases st with
  | launch us =>
    right
    cases us with
    | nil =>
      obtain rfl := Option.some.inj h
      exact ⟨.open, rfl, rfl, rfl, rfl, rfl, hcrews⟩
    | cons v us =>
      obtain ⟨unit, hv⟩ := Table.exists_getElem? (hunits v List.mem_cons_self)
      have hvs : v ∉ us := (List.nodup_cons.1 hplans.1).1
      rw [run, hv] at h
      simp only at h
      split at h
      · cases h
      · obtain rfl := Option.some.inj h
        refine ⟨_, rfl, rfl, rfl, rfl, ?_, fun {u x} hx => ?_⟩
        · rw [stepsLeft, stepsLeft, Broker.startSteps_cons, hsize hv]
          omega
        · rw [← hcrews hx, lacking, lacking, hsize hv]
          by_cases huv : u = v
          · subst huv
            simp
          · simp [huv]
  | staff v n us =>
    right
    have hvs : v ∉ us := (List.nodup_cons.1 hplans.1).1
    cases n with
    | zero =>
      obtain rfl := Option.some.inj h
      refine ⟨_, rfl, rfl, rfl, rfl, ?_, fun {u x} hx => ?_⟩
      · rw [stepsLeft, stepsLeft]
        omega
      · rw [← hcrews hx, lacking, lacking]
        by_cases huv : u = v
        · subst huv
          simp [hvs]
        · simp [huv]
    | succ n =>
      obtain ⟨unit, hv⟩ := Table.exists_getElem? (hunits v List.mem_cons_self)
      rw [run, hv, hspawn] at h
      obtain rfl := Option.some.inj h
      refine ⟨_, rfl, rfl, rfl, rfl, ?_, fun {u x} hx => ?_⟩
      · rw [stepsLeft, stepsLeft]
        omega
      · obtain ⟨y, hy, ⟨hvu, rfl⟩ | ⟨rfl, rfl⟩⟩ := Table.exists_of_modify hx
        · rw [← hcrews hy, lacking, lacking, if_neg (Ne.symm hvu), if_neg (Ne.symm hvu)]
        · have hlength := hcrews hy
          rw [lacking, if_pos rfl] at hlength ⊢
          change (y.crew.live ++ [b₀.workers.size]).length + n = b.crewSize v
          rw [List.length_append, List.length_singleton, ← hlength]
          omega
  | «open» =>
    left
    exact ⟨rfl, (Option.some.inj h).symm⟩
  | _ => cases hst

/-- No step of a start is held up while the lock of the crews is free. -/
theorem exists_start_run (hst : st.isPrompt = false) (me : Caller) (ch : Choices)
    (hlock : st.isLocked = false → b₀.crewLock = none) : ∃ turn, st.run me ch b₀ = some turn := by
  cases st with
  | launch us =>
    cases us with
    | nil => exact ⟨_, rfl⟩
    | cons u us =>
      rw [run, hlock rfl]
      split <;> exact ⟨_, rfl⟩
  | staff u n us =>
    cases n with
    | zero => exact ⟨_, rfl⟩
    | succ n =>
      rw [run]
      repeat' split
      all_goals exact ⟨_, rfl⟩
  | «open» => exact ⟨_, rfl⟩
  | _ => cases hst

end CrewStep

namespace System

variable {s : System} {m : Move} {i j : ThreadId} {th th' : Thread} {a a' : Action} {u : UnitId}
  {x : TierUnit} {k : Nat} {config : Config} {parts : Broker.Parts} {ms : List Move}
  {rest : List Action} {st : CrewStep}

/-! ### The thread that starts the broker -/

/-- One thread is to start the broker. -/
theorem Planned.eq_of_starts (h : s.Planned) (hi : s.threads[i]? = some th) (ha : a ∈ th.agenda)
    (hstarts : a.starts = true) (hj : s.threads[j]? = some th') (ha' : a' ∈ th'.agenda)
    (hstarts' : a'.starts = true) : i = j := by
  by_contra hne
  have hpark : s.pending = ↑th.agenda + (s.park i []).pending :=
    pending_park hi (List.append_nil _).symm
  have hj' : (s.park i []).threads[j]? = some th' := by
    rw [park, Table.getElem?_modify_of_ne hne]
    exact hj
  have hone : 0 < (↑th.agenda : Multiset Action).countP (·.starts) :=
    Multiset.countP_pos.2 ⟨a, ha, hstarts⟩
  have htwo : 0 < (s.park i []).pending.countP (·.starts) :=
    Multiset.countP_pos.2 ⟨a', mem_pending.2 ⟨j, th', hj', ha'⟩, hstarts'⟩
  have halone := h.alone
  rw [hpark, Multiset.countP_add] at halone
  omega

/-- How far the start of a broker has come: so many steps are left. -/
inductive Launching (b : Broker) (s : System) : Nat → Prop where
  /-- The thread that starts the broker is to take a step. -/
  | underWay {th : Thread} {st : CrewStep} (hth : s.threads[0]? = some th)
    (hagenda : th.agenda = [.crew st]) (hreply : th.reply = none) (hst : st.isPrompt = false)
    (hclosed : s.broker.initialized = false) (hcrews : b.Staffed s.broker st) :
    Launching b s (st.stepsLeft b)
  /-- It is done, and the broker is open. -/
  | finished {th : Thread} (hth : s.threads[0]? = some th) (hagenda : th.agenda = [])
    (hreply : th.reply = some .done) (hopen : s.broker.initialized = true) : Launching b s 0

/-- Units start with as many workers as at first. -/
theorem Reachable.initialWorkers (hr : Reachable (launch b) s) (hx : s.broker.units[u]? = some x) :
    s.broker.initialWorkers x = b.crewSize u := by
  have hconfig : s.broker.config = b.config := hr.config
  have hunits := congrArg (·[u]?) hr.unitConfigs
  simp only [Broker.unitConfigs, Table.getElem?_map, hx, Option.map_some] at hunits
  obtain ⟨y, hy, heq⟩ := Option.map_eq_some_iff.1 hunits.symm
  have hy : b.units[u]? = some y := hy
  rw [Broker.crewSize, hy, Option.map_some, Option.getD_some, Broker.initialWorkers,
    Broker.initialWorkers, hconfig, heq]

namespace Launching

/-- While the broker is started, no crew is changed but by the thread that starts it. -/
theorem crew_move (hb : Broker.assemble config parts = .ok b) (hr : Reachable (launch b) s)
    (hclosed : s.broker.initialized = false) (hran : ∀ a, s.ran m = some a → a.starts = false)
    (hcrews : b.Staffed s.broker st) {x' : TierUnit}
    (hx' : (s.move m).broker.units[u]? = some x') :
    ∃ x, s.broker.units[u]? = some x ∧ x'.crew = x.crew := by
  have hs := hr.lawful (Broker.fresh_assemble hb)
  obtain ⟨x, hx, -, -, hcrew⟩ := crew_change hs m hx'
  refine ⟨x, hx, ?_⟩
  generalize x'.crew = crew at hcrew ⊢
  cases hcrew with
  | stay => rfl
  | join hhires =>
    cases hhires with
    | grow hhire _ =>
      obtain ⟨i, ch, th, rest, turn, hruns⟩ := exists_runs hhire
      exact absurd (hclosed.symm.trans (hr.early hb _ hruns.mem_pending rfl)) Bool.false_ne_true
    | staff hstaff => cases hran _ hstaff
  | leave _ _ hmin hdynamic =>
    -- A crew that may shrink starts with one worker, and the last one does not retire.
    have hone := (hr.initialWorkers hx).symm.trans (Broker.initialWorkers_of_dynamic hdynamic)
    have hlength := hcrews hx
    omega

/-- Nobody else is in the way. -/
theorem move_of_other (h : Launching b s k) (hb : Broker.assemble config parts = .ok b)
    (hr : Reachable (launch b) s) (hran : s.ranBy 0 m = none) : Launching b (s.move m) k := by
  have hs := hr.lawful (Broker.fresh_assemble hb)
  have ho := hr.ordered (Broker.fresh_assemble hb)
  cases h with
  | finished hth hagenda hreply hopen =>
    exact .finished (thread_of_ranBy hth hran) hagenda hreply (initialized_move hs ho m hopen)
  | @underWay th st hth hagenda hreply hst hclosed hcrews =>
    have hothers (a : Action) (ha : s.ran m = some a) : a.starts = false := by
      obtain ⟨i, ch, th', rest, turn, hruns⟩ := exists_runs ha
      by_contra hstarts
      rw [Bool.not_eq_false] at hstarts
      have hmine : (Action.crew st).starts = true := by rw [Action.starts, hst, Bool.not_false]
      have hzero := (hr.mustered hb).planned.eq_of_starts hth (hagenda ▸ List.mem_singleton_self _)
        hmine hruns.thread (hruns.agenda ▸ List.mem_cons_self) hstarts
      have hself := hruns.ranBy_self
      rw [← hzero, hran] at hself
      cases hself
    refine .underWay (thread_of_ranBy hth hran) hagenda hreply hst ?_ fun {u x'} hx' => ?_
    · by_contra hopen
      cases hothers _ (ran_of_initialized hs ho hclosed (by simpa using hopen))
    · obtain ⟨x, hx, hcrew⟩ := crew_move hb hr hclosed hothers hcrews hx'
      rw [hcrew, hcrews hx]

/-- Each step of the thread leaves one step less. -/
theorem move_of_own (h : Launching b s k) (hb : Broker.assemble config parts = .ok b)
    (hr : Reachable (launch b) s) {ch : Choices} (hran : s.ranBy 0 (.step 0 ch) = some a)
    (hspawn : ch.spawnError = none) :
    ∃ k', k = k' + 1 ∧ Launching b (s.move (.step 0 ch)) k' := by
  cases h with
  | finished hth hagenda _ _ =>
    obtain ⟨ch', rest, turn, hruns⟩ := exists_runs_of_ranBy hran hth
    cases hagenda.symm.trans hruns.agenda
  | @underWay th st hth hagenda hreply hst hclosed hcrews =>
    obtain ⟨ch', rest, turn, hruns⟩ := exists_runs_of_ranBy hran hth
    obtain ⟨-, rfl⟩ := Move.step.inj hruns.move
    obtain ⟨rfl, rfl⟩ := List.cons.inj (hagenda.symm.trans hruns.agenda)
    have hunits := (hr.ordered (Broker.fresh_assemble hb)).unit _ hruns.mem_pending
    have hplans := (hr.mustered hb).planned.plans _ hruns.mem_pending
    have hafter := hruns.thread_after
    have hbroker : (s.move (.step 0 ch)).broker = turn.broker := by rw [hruns.turned, broker_turned]
    rcases CrewStep.start_run hruns.run hst hspawn hunits hplans hr.initialWorkers hcrews with
      ⟨rfl, rfl⟩ | ⟨st', hnext, hanswer, hst', hinit, hsteps, hstaffed⟩
    · exact ⟨0, rfl, .finished hafter (by rw [Thread.agenda_after hruns.agenda]; rfl) rfl
        (by rw [hbroker])⟩
    · refine ⟨st'.stepsLeft b, hsteps, .underWay hafter ?_ ?_ hst' ?_ (hbroker ▸ hstaffed)⟩
      · rw [Thread.agenda_after hruns.agenda, hnext]
        rfl
      · rw [Thread.after, hanswer]
        exact hreply
      · rw [hbroker, hinit, hclosed]

/-- The thread can go on as long as steps are left. -/
theorem exists_step (h : Launching b s (k + 1)) (hb : Broker.assemble config parts = .ok b)
    (hr : Reachable (launch b) s) (ch : Choices) : ∃ s', s.step 0 ch = some s' := by
  generalize hk : k + 1 = n at h
  cases h with
  | finished => cases hk
  | @underWay th st hth hagenda hreply hst hclosed hcrews =>
    have hmine : (Action.crew st).starts = true := by rw [Action.starts, hst, Bool.not_false]
    have hlock (hfree : st.isLocked = false) : s.broker.crewLock = none := by
      -- Who has the lock would enlarge a crew, or start one.
      by_contra hlocked
      obtain ⟨c, hc, hcl⟩ := (hr.alert hb).crewLock (Option.isSome_iff_ne_none.2 hlocked)
      cases hprompt : c.isPrompt with
      | true =>
        exact Bool.false_ne_true (hclosed.symm.trans (hr.early hb _ hc hprompt))
      | false =>
        obtain ⟨i, th', hth', hc⟩ := mem_pending.1 hc
        have hzero := (hr.mustered hb).planned.eq_of_starts hth
          (hagenda ▸ List.mem_singleton_self _) hmine hth' hc
          (by rw [Action.starts, hprompt, Bool.not_false])
        subst hzero
        obtain rfl := Option.some.inj (hth.symm.trans hth')
        rw [hagenda, List.mem_singleton] at hc
        obtain rfl := Action.crew.inj hc
        exact Bool.false_ne_true (hfree.symm.trans hcl)
    obtain ⟨turn, hrun⟩ := CrewStep.exists_start_run hst (th.caller 0) ch hlock
    exact ⟨_, step_eq_some_iff.2 ⟨th, _, [], turn, hth, hagenda, hrun, rfl⟩⟩

end Launching

/-- How many steps a thread takes in a run. -/
def steps (s : System) (i : ThreadId) (ms : List Move) : Nat := (s.gather (ranBy i) ms).length

theorem launching_launch (hb : Broker.assemble config parts = .ok b) :
    Launching b (launch b) (b.startSteps b.unitIds) := by
  have hsteps : (CrewStep.launch b.unitIds).stepsLeft b = b.startSteps b.unitIds := rfl
  refine hsteps ▸ .underWay rfl rfl rfl rfl ?_ fun {u x} hx => ?_
  · obtain ⟨units, -, rfl⟩ := Broker.exists_of_assemble hb
    rfl
  · have hmem : u ∈ b.unitIds := List.mem_range.2 (Table.lt_size_of_getElem? hx)
    obtain ⟨t, -, kind, rfl⟩ := Broker.unit_of_assemble hb x (Table.mem_toList_iff.2 ⟨u, hx⟩)
    rw [CrewStep.lacking, if_pos hmem]
    exact Nat.zero_add _

/-- The steps that the thread has taken and those that are left are all there are. -/
theorem launching_of_run (hb : Broker.assemble config parts = .ok b) (ms : List Move)
    (hspawn : ∀ ch, .step 0 ch ∈ ms → ch.spawnError = none) :
    ∃ k, Launching b (ms.foldl move (launch b)) k ∧
      (launch b).steps 0 ms + k = b.startSteps b.unitIds := by
  induction ms using List.reverseRecOn with
  | nil => exact ⟨_, launching_launch hb, Nat.zero_add _⟩
  | append_singleton ms m ih =>
    obtain ⟨k, h, hsum⟩ := ih fun ch hch => hspawn ch (List.mem_append_left _ hch)
    have hr : Reachable (launch b) (ms.foldl move (launch b)) := reachable_iff_foldl.2 ⟨ms, rfl⟩
    rw [steps, gather_concat, List.length_append, List.foldl_append]
    cases hran : ranBy 0 (ms.foldl move (launch b)) m with
    | none => exact ⟨k, h.move_of_other hb hr hran, hsum⟩
    | some a =>
      obtain ⟨ch, rfl⟩ : ∃ ch, m = .step 0 ch := by
        cases m with
        | step i ch =>
          rw [ranBy] at hran
          split at hran
          · rename_i hi
            exact ⟨ch, hi ▸ rfl⟩
          · cases hran
        | _ => cases hran
      have hok := hspawn ch (List.mem_append_right _ (List.mem_singleton_self _))
      obtain ⟨k', rfl, h'⟩ := h.move_of_own hb hr hran hok
      exact ⟨k', h', by rw [← hsum, steps, Option.toList_some, List.length_singleton]; omega⟩

/-! ### Every start -/

/-- How the start of a broker goes in a run. -/
structure Starts (b : Broker) (ms : List Move) : Prop where
  /-- The units are those that were assembled, -/
  configs : (ms.foldl move (launch b)).broker.unitConfigs = b.unitConfigs
  /-- and they are looked up as before. -/
  unitOf : ∀ tier, (ms.foldl move (launch b)).broker.unitOf? tier = b.unitOf? tier
  /-- The thread that starts the broker takes no more than so many steps. -/
  bounded : (launch b).steps 0 ms ≤ b.startSteps b.unitIds
  /-- Before it has taken them, the next one is possible, whatever others are at. -/
  goesOn : (launch b).steps 0 ms < b.startSteps b.unitIds →
    ∀ ch, ∃ s', (ms.foldl move (launch b)).step 0 ch = some s'
  /-- When it has, the start is over without an error, and the broker is open. -/
  finished : (launch b).steps 0 ms = b.startSteps b.unitIds →
    (ms.foldl move (launch b)).broker.initialized = true ∧
      ∃ th : Thread, (ms.foldl move (launch b)).threads[0]? = some th ∧ th.agenda = [] ∧
        th.reply = some .done
  /-- In the moment in which it is opened, each crew has the workers that it is to start with. -/
  crews : (ms.foldl move (launch b)).broker.initialized = false →
    ∀ m, ((ms.foldl move (launch b)).move m).broker.initialized = true →
      ∀ {u : UnitId} {x : TierUnit},
        ((ms.foldl move (launch b)).move m).broker.units[u]? = some x →
          x.crew.live.length = if b.config.dynamicPool then 1 else x.config.maxWorkers.toNat

/-- When no steps are left, the start is over. -/
theorem Launching.open_of_eq_zero (h : Launching b s k) (hk : k = 0) :
    s.broker.initialized = true ∧
      ∃ th : Thread, s.threads[0]? = some th ∧ th.agenda = [] ∧ th.reply = some .done := by
  cases h with
  | finished hth hagenda hreply hopen => exact ⟨hopen, _, hth, hagenda, hreply⟩
  | @underWay th st _ _ _ hst _ _ =>
    cases st with
    | launch us | staff u n us =>
      rw [CrewStep.stepsLeft, Broker.startSteps] at hk
      omega
    | «open» => cases hk
    | _ => cases hst

/-- The crews are complete when the broker is opened. -/
theorem Launching.crews (h : Launching b s k) (hb : Broker.assemble config parts = .ok b)
    (hr : Reachable (launch b) s) (hclosed : s.broker.initialized = false)
    (hopen : (s.move m).broker.initialized = true) (hx : (s.move m).broker.units[u]? = some x) :
    x.crew.live.length = if b.config.dynamicPool then 1 else x.config.maxWorkers.toNat := by
  have hs := hr.lawful (Broker.fresh_assemble hb)
  have hran := ran_of_initialized hs (hr.ordered (Broker.fresh_assemble hb)) hclosed hopen
  obtain ⟨i, ch, th', rest, turn, hruns⟩ := exists_runs hran
  cases h with
  | finished _ _ _ hopen' => exact absurd (hclosed.symm.trans hopen') Bool.false_ne_true
  | @underWay th st hth hagenda hreply hst _ hcrews =>
    obtain rfl := (hr.mustered hb).planned.eq_of_starts hth (hagenda ▸ List.mem_singleton_self _)
      (by rw [Action.starts, hst, Bool.not_false]) hruns.thread
      (hruns.agenda ▸ List.mem_cons_self) rfl
    obtain rfl := Option.some.inj (hth.symm.trans hruns.thread)
    obtain ⟨hst', -⟩ := List.cons.inj (hagenda.symm.trans hruns.agenda)
    obtain rfl := Action.crew.inj hst'
    have hrun := hruns.run
    obtain rfl := Option.some.inj hrun
    rw [hruns.turned, broker_turned] at hx
    have hconfig : s.broker.config = b.config := hr.config
    have hlength := (hcrews hx).trans (hr.initialWorkers hx).symm
    rwa [Broker.initialWorkers, hconfig] at hlength

theorem starts_of_run (hb : Broker.assemble config parts = .ok b) (ms : List Move)
    (hspawn : ∀ ch, .step 0 ch ∈ ms → ch.spawnError = none) : Starts b ms := by
  have hr : Reachable (launch b) (ms.foldl move (launch b)) := reachable_iff_foldl.2 ⟨ms, rfl⟩
  obtain ⟨k, h, hsum⟩ := launching_of_run hb ms hspawn
  have hconfigs : (ms.foldl move (launch b)).broker.unitConfigs = b.unitConfigs := hr.unitConfigs
  refine ⟨hconfigs, fun tier => ?_, by omega, fun hlt ch => ?_, fun heq => ?_,
    fun hclosed m hopen => h.crews hb hr hclosed hopen⟩
  · rw [Broker.unitOf_eq, Broker.unitOf_eq, Broker.tiers_eq, hconfigs, ← Broker.tiers_eq]
  · obtain ⟨k', rfl⟩ := Nat.exists_eq_succ_of_ne_zero (show k ≠ 0 by omega)
    exact h.exists_step hb hr ch
  · exact h.open_of_eq_zero (by omega)

/-- Just the valid configurations are accepted. With a back-end for each enabled tier, the broker
for a valid configuration is assembled, and, as long as threads can be started, it starts. -/
theorem initialized_of_valid (config : Config) (parts : Broker.Parts) :
    (config.validate = .ok () ↔ config.Valid) ∧
      (config.Valid → (∀ t ∈ config.tiers, t.enabled = true →
          ∃ kind, parts.backends.lookup t.level = some kind) →
        ((∀ t ∈ config.tiers, t.level.bit ≠ 0#32) ∧
          config.tiers.Pairwise (·.level.bit ≠ ·.level.bit)) ∧
        ∃ b, Broker.assemble config parts = .ok b ∧ b.Registers config parts ∧
          ∀ ms, (∀ ch, .step 0 ch ∈ ms → ch.spawnError = none) → Starts b ms) := by
  refine ⟨config.validate_eq_ok_iff, fun hvalid hbackends => ⟨hvalid.bits, ?_⟩⟩
  obtain ⟨b, hb, hregisters⟩ := Broker.exists_assemble hvalid hbackends
  exact ⟨b, hb, hregisters, starts_of_run hb⟩

end System

/-- Three tiers in no order, of which one is not enabled. -/
def Config.mixed : Config where
  dynamicPool := false
  tiers := [{ TierConfig.solo with level := 4, maxWorkers := 2 },
    { TierConfig.solo with level := 2, enabled := false }, .solo]

namespace Broker

/-- Back-ends for two of them. -/
def Parts.mixed : Parts where
  backends := [(1, .c1), (4, .c2)]
  freeMemory := 1

/-- The broker with these tiers. -/
def mixed : Broker := (assemble .mixed .mixed).toOption.getD default

theorem assemble_mixed : assemble .mixed .mixed = .ok mixed := rfl

end Broker

namespace System

/-- Its thread starts three workers in nine steps. -/
theorem initialized_of_mixed : Config.mixed.Valid ∧ Broker.mixed.Registers .mixed .mixed ∧
    Broker.mixed.tiers = [1, 4] ∧ Starts .mixed (times 0 9) ∧
      (launch .mixed).steps 0 (times 0 9) = Broker.mixed.startSteps Broker.mixed.unitIds ∧
        ((times 0 9).foldl move (launch .mixed)).broker.workers.size = 3 := by
  have hbackends : ∀ t ∈ Config.mixed.tiers, t.enabled = true →
      (Broker.Parts.mixed.backends.lookup t.level).isSome = true := by decide
  obtain ⟨hvalidate, hstart⟩ := initialized_of_valid .mixed .mixed
  have hvalid : Config.mixed.Valid := hvalidate.1 rfl
  obtain ⟨-, b, hb, hregisters, hstarts⟩ := hstart hvalid fun t ht henabled =>
    Option.isSome_iff_exists.1 (hbackends t ht henabled)
  obtain rfl := Except.ok.inj (hb.symm.trans Broker.assemble_mixed)
  refine ⟨hvalid, hregisters, by decide +kernel, hstarts _ fun ch hch => ?_, by decide +kernel,
    by decide +kernel⟩
  obtain rfl := (Move.step.inj (List.eq_of_mem_replicate hch)).2
  rfl

end System

end JitBroker
