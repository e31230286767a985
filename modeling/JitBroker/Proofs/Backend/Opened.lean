import JitBroker.Proofs.Fittings
import JitBroker.Proofs.Rest.Start
import JitBroker.Proofs.Shutdown.Closing

/-!
# The start of back-ends

The first worker of a unit that comes to it starts the back-end. Other workers of the unit wait until
it has started, and go to work then; or it has failed to start, and then every worker of the unit
disables compilation and leaves. How far the start has come is written down in the unit.

* `System.opens_move`: nobody else changes that;
* `System.Reachable.opened`: a back-end is started by one worker at a time, whoever is at work has one
  that has started, and where one failed to start, compilation is disabled or is about to be.
-/

namespace JitBroker

variable {me : Caller} {ch : Choices} {b : Broker} {turn : Turn}

/-! ### Steps -/

/-- How far the start of a back-end has come by its answer. -/
def InitState.ofResult : Except String Unit → InitState
  | .ok () => .ready
  | .error message => .failed message

/-- Whether a worker is at a step that it only comes to by a back-end that has started. -/
def WorkerStep.isOpen : WorkerStep → Bool
  | .start | .starting | .quit => false
  | _ => true

/-- Whether a worker is inside of the call that starts its back-end. -/
def Action.isStarting : Action → Bool
  | .worker _ .starting => true
  | _ => false

namespace WorkerStep

variable {w : WorkerId} {worker : Worker} {unit : TierUnit} {c : CompileRun}

/-- A worker that has called the start of the back-end goes by its answer. -/
theorem starting_run (h : starting.run me ch b w worker unit = some turn) :
    ∃ r, ch.started = some r ∧
      turn.broker = (b.modifyUnit worker.unit fun x => { x with init := .ofResult r }) ∧
      turn.next = match r with
        | .ok () => [.worker w .round]
        | .error _ => [.control .disable, .worker w .quit] := by
  rw [run] at h
  split at h
  · cases h
  all_goals
    rename_i hr
    obtain rfl := Option.some.inj h
    exact ⟨_, hr, rfl, rfl⟩

/-- What a back-end does is not to start a back-end. -/
theorem obey_all {task : Task} {move : BackendMove} (h : obey b w c task unit move = some turn) :
    turn.next.all (!·.isStarting) = true := by
  cases move with
  | call call =>
    obtain rfl := Option.some.inj h
    cases call <;> rfl
  | _ =>
    rw [obey] at h
    repeat' split at h
    all_goals
      obtain rfl := Option.some.inj h
      rfl

/-- No step but one is followed by the start of a back-end. -/
theorem run_all {s : WorkerStep} (h : s.run me ch b w worker unit = some turn) (hs : s ≠ .start) :
    turn.next.all (!·.isStarting) = true := by
  have stale (ts : List TaskId) : (ts.flatMap Action.stale).all (!·.isStarting) = true := by
    refine List.all_eq_true.2 fun a ha => ?_
    obtain ⟨t, -, ha⟩ := List.mem_flatMap.1 ha
    obtain ⟨s, -, rfl⟩ := List.mem_map.1 ha
    rfl
  cases s with
  | start => exact absurd rfl hs
  | compile c =>
    rw [run] at h
    split at h
    · obtain rfl := Option.some.inj h
      rfl
    · cases h
    · exact obey_all h
  | choose =>
    rw [run] at h
    repeat' split at h
    all_goals
      obtain rfl := Option.some.inj h
      first
        | rfl
        | (rw [List.all_append, stale]
           rfl)
  | judge c =>
    obtain rfl := Option.some.inj h
    cases c.report.cacheFull <;> rfl
  | settle =>
    obtain rfl := Option.some.inj h
    dsimp only
    split <;> rfl
  | _ =>
    rw [run] at h
    (try simp only at h)
    repeat' split at h
    all_goals first
      | (obtain rfl := Option.some.inj h
         rfl)
      | cases h

/-- A worker only comes to an open step from another one, or by a back-end that has started. -/
theorem isOpen_run {s s' : WorkerStep} (h : s.run me ch b w worker unit = some turn) {w' : WorkerId}
    (hnext : .worker w' s' ∈ turn.next) (hopen : s'.isOpen = true) :
    s.isOpen = true ∨ s = .start ∧ unit.init = .ready ∨
      s = .starting ∧ ch.started = some (.ok ()) := by
  cases s with
  | start =>
    rw [run] at h
    split at h
    · obtain rfl := Option.some.inj h
      cases List.mem_singleton.1 hnext
      cases hopen
    · cases h
    · exact .inr (.inl ⟨rfl, ‹_›⟩)
    · obtain rfl := Option.some.inj h
      simp only [List.mem_cons, List.not_mem_nil, or_false, reduceCtorEq, false_or] at hnext
      obtain ⟨-, rfl⟩ := Action.worker.inj hnext
      cases hopen
  | starting =>
    obtain ⟨_ | _, hr, -, heq⟩ := starting_run h
    · rw [heq] at hnext
      simp only [List.mem_cons, List.not_mem_nil, or_false, reduceCtorEq, false_or] at hnext
      obtain ⟨-, rfl⟩ := Action.worker.inj hnext
      cases hopen
    · exact .inr (.inr ⟨rfl, hr⟩)
  | quit =>
    obtain rfl := Option.some.inj h
    exact absurd hnext List.not_mem_nil
  | _ => exact .inl rfl

end WorkerStep

/-- No action but the two of the start of a back-end changes how far a start has come. -/
theorem Action.init_run {a : Action} {u : UnitId} {x : TierUnit} (hsound : b.ledger.Sound)
    (hready : ∀ d ∈ a.duty?, Duty.Ready b.ledger d) (hunits : ∀ u ∈ a.units, u < b.units.size)
    (h : a.run me ch b = some turn) (hstart : ∀ w, a ≠ .worker w .start)
    (hstarting : ∀ w, a ≠ .worker w .starting) (hx : b.units[u]? = some x) :
    ∃ x', turn.broker.units[u]? = some x' ∧ x'.init = x.init := by
  have of_stirs {b' : Broker} (hb : b.Stirs b') : ∃ x', b'.units[u]? = some x' ∧ x'.init = x.init := by
    obtain ⟨x', hx', -, hinit⟩ := hb.unit hx
    exact ⟨x', hx', hinit⟩
  cases a with
  | request s => exact of_stirs (RequestStep.stirs h)
  | task s => exact of_stirs (TaskStep.stirs h)
  | control s => exact of_stirs (ControlStep.stirs hsound h)
  | gate s => exact of_stirs (GateStep.stirs h).1
  | worker w s =>
    obtain ⟨worker, unit, -, hu, h⟩ := worker_run hsound (hready _ rfl).1 h
    refine of_stirs (WorkerStep.stirs hu hsound h ?_ ?_).1
    · rintro rfl
      exact hstart w rfl
    · rintro rfl
      exact hstarting w rfl
  | crew s =>
    obtain ⟨x', hx', -, hinit⟩ := (CrewStep.stirs hunits h).1.unit hx
    exact ⟨x', hx', hinit⟩
  | answer r => exact of_stirs (.of_some h (.refl b))
  | fault => cases h

namespace System

variable {s first : System} {m : Move} {i : ThreadId} {u : UnitId} {w : WorkerId} {x : TierUnit}
  {ms : List Move} {message : String}

/-! ### Moves -/

/-- The unit of a worker. -/
def home (s : System) (w : WorkerId) : Option UnitId := s.broker.workers[w]?.map (·.unit)

/-- A worker stays with its unit. -/
theorem home_move (hs : s.Lawful) (m : Move) (h : s.home w = some u) : (s.move m).home w = some u := by
  obtain ⟨worker, hw, rfl⟩ := Option.map_eq_some_iff.1 h
  have hpost : s.ledger.posts[w]? = some worker.post := by simp [ledger, hw]
  obtain ⟨post', hpost', hunit⟩ := (hs.extends_move m).post hpost
  obtain ⟨worker', hw', rfl⟩ : ∃ worker', (s.move m).broker.workers[w]? = some worker' ∧
      worker'.post = post' := by simpa [ledger] using hpost'
  rw [home, hw']
  exact congrArg some hunit

/-- The unit whose back-end a move begins to start. -/
def begins? (s : System) (m : Move) : Option UnitId :=
  match s.ran m with
  | some (.worker w .start) => (s.home w).filter fun u =>
    s.broker.units[u]?.any fun x => x.init = .pending
  | _ => none

/-- The unit whose back-end answers in a move whether it has started, and the answer. -/
def returns? (s : System) : Move → Option (UnitId × Except String Unit)
  | .step i ch =>
    match s.ran (.step i ch), ch.started with
    | some (.worker w .starting), some r => (s.home w).map (·, r)
    | _, _ => none
  | .call _ _ | .operate _ => none

/-- What a move makes of how far the start of a back-end has come. -/
inductive Opens (s : System) (m : Move) (u : UnitId) : InitState → InitState → Prop where
  /-- Nothing. -/
  | stay {init : InitState} (hbegins : s.begins? m ≠ some u)
    (hreturns : ∀ r, s.returns? m ≠ some (u, r)) : Opens s m u init init
  /-- It begins. -/
  | begin {w : WorkerId} (hran : s.ran m = some (.worker w .start)) (hw : s.home w = some u)
    (hbegins : s.begins? m = some u) (hreturns : s.returns? m = none) :
    Opens s m u .pending .running
  /-- It ends. -/
  | «return» {w : WorkerId} {init : InitState} {r : Except String Unit}
    (hran : s.ran m = some (.worker w .starting)) (hw : s.home w = some u)
    (hbegins : s.begins? m = none) (hreturns : s.returns? m = some (u, r)) :
    Opens s m u init (.ofResult r)

theorem begins_of_start {worker : Worker} {unit : TierUnit} (hran : s.ran m = some (.worker w .start))
    (hw : s.broker.workers[w]? = some worker) (hu : s.broker.units[worker.unit]? = some unit) :
    s.begins? m = if unit.init = .pending then some worker.unit else none := by
  simp [begins?, hran, home, hw, hu, Option.filter]

theorem begins_of_ne (h : ∀ w, s.ran m ≠ some (.worker w .start)) : s.begins? m = none := by
  unfold begins?
  split
  · exact absurd ‹_› (h _)
  · rfl

theorem returns_of_ne (h : ∀ w, s.ran m ≠ some (.worker w .starting)) : s.returns? m = none := by
  cases m with
  | step i ch =>
    rw [returns?]
    split
    · exact absurd ‹_› (h _)
    · rfl
  | call c n => rfl
  | operate o => rfl

/-- A worker that comes to its back-end begins to start it, or finds that another one has. -/
theorem Runs.opens_of_start {ch : Choices} {th : Thread} {rest : List Action} {turn : Turn}
    (h : s.Runs m i ch th (.worker w .start) rest turn) (hs : s.Lawful)
    (hx : s.broker.units[u]? = some x) :
    ∃ x', turn.broker.units[u]? = some x' ∧ s.Opens m u x.init x'.init := by
  have hready := hs.ready _ (mem_duties.2 ⟨_, h.mem_pending, rfl⟩)
  obtain ⟨worker, unit, hw, hu, hrun⟩ := Action.worker_run hs.sound hready.1 h.run
  have hbegins := begins_of_start h.ran hw hu
  have hreturns : s.returns? m = none := returns_of_ne (by simp [h.ran])
  have keep (hne : unit.init ≠ .pending) (hb : turn.broker = s.broker) :
      ∃ x', turn.broker.units[u]? = some x' ∧ s.Opens m u x.init x'.init := by
    refine ⟨x, hb ▸ hx, .stay ?_ (by simp [hreturns])⟩
    rw [hbegins, if_neg hne]
    exact nofun
  rw [WorkerStep.run] at hrun
  split at hrun
  · rename_i hpending
    obtain rfl := Option.some.inj hrun
    rw [if_pos hpending] at hbegins
    by_cases huu : worker.unit = u
    · subst huu
      obtain rfl := Option.some.inj (hx.symm.trans hu)
      refine ⟨_, Table.getElem?_modify_self hx _, ?_⟩
      rw [hpending]
      exact .begin h.ran (congrArg (Option.map _) hw) hbegins hreturns
    · refine ⟨x, (Table.getElem?_modify_of_ne huu _).trans hx, .stay ?_ (by simp [hreturns])⟩
      rwa [hbegins, Ne, Option.some_inj]
  · cases hrun
  all_goals
    rename_i hne
    exact keep (by simp [hne]) (Option.some.inj hrun ▸ rfl)

/-- A worker that has called the start of its back-end notes the answer, and goes by it. -/
theorem Runs.starting_returns {ch : Choices} {th : Thread} {rest : List Action} {turn : Turn}
    (h : s.Runs m i ch th (.worker w .starting) rest turn) (hs : s.Lawful) :
    ∃ u r, s.home w = some u ∧ ch.started = some r ∧ s.returns? m = some (u, r) ∧
      turn.broker = (s.broker.modifyUnit u fun x => { x with init := .ofResult r }) ∧
        turn.next = match r with
          | .ok () => [.worker w .round]
          | .error _ => [.control .disable, .worker w .quit] := by
  have hready := hs.ready _ (mem_duties.2 ⟨_, h.mem_pending, rfl⟩)
  obtain ⟨worker, unit, hw, hu, hrun⟩ := Action.worker_run hs.sound hready.1 h.run
  obtain ⟨r, hr, hb, hnext⟩ := WorkerStep.starting_run hrun
  have hhome : s.home w = some worker.unit := congrArg (Option.map _) hw
  refine ⟨worker.unit, r, hhome, hr, ?_, hb, hnext⟩
  have hran := h.ran
  rw [h.move] at hran ⊢
  rw [returns?, hran, hr]
  exact congrArg (Option.map (·, r)) hhome

theorem Runs.opens_of_starting {ch : Choices} {th : Thread} {rest : List Action} {turn : Turn}
    (h : s.Runs m i ch th (.worker w .starting) rest turn) (hs : s.Lawful)
    (hx : s.broker.units[u]? = some x) :
    ∃ x', turn.broker.units[u]? = some x' ∧ s.Opens m u x.init x'.init := by
  obtain ⟨v, r, hhome, -, hreturns, hb, -⟩ := h.starting_returns hs
  have hran := h.ran
  have hbegins : s.begins? m = none := begins_of_ne (by simp [hran])
  rw [hb]
  by_cases hvu : v = u
  · subst hvu
    exact ⟨_, Table.getElem?_modify_self hx _, .return hran hhome hbegins hreturns⟩
  · refine ⟨x, (Table.getElem?_modify_of_ne hvu _).trans hx, .stay (by simp [hbegins]) fun r' heq => ?_⟩
    exact hvu (congrArg Prod.fst (Option.some.inj (hreturns.symm.trans heq)))

/-- How far a start has come is changed where a back-end is started, and nowhere else. -/
theorem opens_move (hs : s.Lawful) (ho : s.Ordered) (m : Move) {x' : TierUnit}
    (hx' : (s.move m).broker.units[u]? = some x') :
    ∃ x, s.broker.units[u]? = some x ∧ s.Opens m u x.init x'.init := by
  obtain ⟨x, hx⟩ : ∃ x, s.broker.units[u]? = some x := by
    refine Table.exists_getElem? ?_
    rw [← Broker.size_units_of_steady (s.unitConfigs_move m)]
    exact Table.lt_size_of_getElem? hx'
  suffices ∃ x', (s.move m).broker.units[u]? = some x' ∧ s.Opens m u x.init x'.init by
    obtain ⟨y, hy, hopens⟩ := this
    obtain rfl := Option.some.inj (hx'.symm.trans hy)
    exact ⟨x, hx, hopens⟩
  have stay (hstart : ∀ w, s.ran m ≠ some (.worker w .start))
      (hstarting : ∀ w, s.ran m ≠ some (.worker w .starting))
      (h : ∃ x', (s.move m).broker.units[u]? = some x' ∧ x'.init = x.init) :
      ∃ x', (s.move m).broker.units[u]? = some x' ∧ s.Opens m u x.init x'.init := by
    obtain ⟨x', hx', hinit⟩ := h
    refine ⟨x', hx', hinit ▸ .stay ?_ ?_⟩
    · simp [begins_of_ne hstart]
    · simp [returns_of_ne hstarting]
  cases hran : s.ran m with
  | none =>
    refine stay (by simp [hran]) (by simp [hran]) ?_
    cases m with
    | step i ch =>
      rw [move_step_of_ran hran]
      exact ⟨x, hx, rfl⟩
    | call c n => exact ⟨x, hx, rfl⟩
    | operate o =>
      obtain ⟨x', hx', -, hinit⟩ := (s.broker.stirs_operate o).unit hx
      exact ⟨x', hx', hinit⟩
  | some a =>
    obtain ⟨i, ch, th, rest, turn, hruns⟩ := exists_runs hran
    have hready := fun d hd => hs.ready d (mem_duties.2 ⟨a, hruns.mem_pending, hd⟩)
    by_cases hstart : ∃ w, a = .worker w .start
    · obtain ⟨w, rfl⟩ := hstart
      rw [hruns.turned]
      exact hruns.opens_of_start hs hx
    by_cases hstarting : ∃ w, a = .worker w .starting
    · obtain ⟨w, rfl⟩ := hstarting
      rw [hruns.turned]
      exact hruns.opens_of_starting hs hx
    rw [not_exists] at hstart hstarting
    refine stay (by simpa [hran] using hstart) (by simpa [hran] using hstarting) ?_
    rw [hruns.turned]
    exact Action.init_run hs.sound hready (ho.unit a hruns.mem_pending) hruns.run hstart hstarting hx

/-! ### Every state -/

/-- Each worker has a unit. -/
theorem exists_home (hs : s.Lawful) {st : WorkerStep} (h : .worker w st ∈ s.pending) :
    ∃ u x, s.home w = some u ∧ s.broker.units[u]? = some x := by
  obtain ⟨hw, -⟩ := hs.known _ (mem_duties.2 ⟨_, h, rfl⟩)
  obtain ⟨post, hpost⟩ := Table.exists_getElem? hw
  have hunit := hs.sound.unit hpost
  obtain ⟨worker, hw, rfl⟩ : ∃ worker, s.broker.workers[w]? = some worker ∧ worker.post = post := by
    simpa [ledger] using hpost
  obtain ⟨x, hx⟩ := Table.exists_getElem? (t := s.broker.units) (by simpa [ledger] using hunit)
  exact ⟨worker.unit, x, congrArg (Option.map _) hw, hx⟩

theorem home_of_move (hs : s.Lawful) {st : WorkerStep} (h : .worker w st ∈ s.pending)
    (hu : (s.move m).home w = some u) : s.home w = some u := by
  obtain ⟨v, -, hv, -⟩ := exists_home hs h
  rwa [Option.some.inj ((home_move hs m hv).symm.trans hu)] at hv

/-- Only a step of a worker puts a step of that worker in its place. -/
theorem Runs.exists_of_worker_next {ch : Choices} {th : Thread} {a : Action} {rest : List Action}
    {turn : Turn} {st : WorkerStep} (h : s.Runs m i ch th a rest turn) (hs : s.Lawful)
    (ho : s.Ordered) (hnext : .worker w st ∈ turn.next) : ∃ st₀, a = .worker w st₀ := by
  have hready := fun d hd => hs.ready d (mem_duties.2 ⟨a, h.mem_pending, hd⟩)
  have hturn := Action.ordered hs.sound hready (ho.unit a h.mem_pending) h.run
  rcases (hturn.succeeds _ hnext).worker with hnone | hsame
  · cases hnone
  · cases a with
    | worker w₀ st₀ =>
      obtain rfl : w = w₀ := Option.some.inj hsame
      exact ⟨st₀, rfl⟩
    | _ => cases hsame

/-- A step of a worker that is brought by a move is its first one, or comes of the step that is run. -/
theorem Brings.worker {new : List Action} {st : WorkerStep} (h : s.Brings m new) (hs : s.Lawful)
    (ho : s.Ordered) (hmem : .worker w st ∈ new) : st = .start ∨
      ∃ i ch th st₀ rest turn, s.Runs m i ch th (.worker w st₀) rest turn ∧
        .worker w st ∈ turn.next := by
  cases h with
  | call hm =>
    have hnone := (Call.none_of_mem hmem).2.2.1
    cases hnone
  | @step i ch th a rest turn hruns =>
    rcases List.mem_append.1 hmem with hnext | hhired
    · obtain ⟨st₀, rfl⟩ := hruns.exists_of_worker_next hs ho hnext
      exact .inr ⟨i, ch, th, st₀, rest, turn, hruns, hnext⟩
    · obtain ⟨w₀, -, heq⟩ := List.mem_map.1 hhired
      exact .inl (Action.worker.inj heq).2.symm
  | nothing h => exact absurd hmem List.not_mem_nil

/-- A worker that takes a step has no other one before it. -/
theorem not_mem_of_posted {others : Multiset Action} {st st' : WorkerStep}
    (hp : Posted s.ledger s.duties) (h : s.pending = others + {.worker w st}) :
    .worker w st' ∉ others := by
  intro hmem
  obtain ⟨rest, rfl⟩ := Multiset.exists_cons_of_mem hmem
  have honce := hp.once w
  have hduties : s.duties =
      .post w st'.phase ::ₘ .post w st.phase ::ₘ rest.filterMap Action.duty? := by
    rw [duties, h, add_comm, Multiset.singleton_add, Multiset.cons_swap,
      Multiset.filterMap_cons_some Action.duty? _ _ rfl,
      Multiset.filterMap_cons_some Action.duty? _ _ rfl]
  rw [hduties, Multiset.countP_cons_of_pos _ (by simp), Multiset.countP_cons_of_pos _ (by simp)] at honce
  omega

/-- A worker of a unit has found that the back-end failed to start, and is about to disable
compilation and to leave. -/
def Quits (s : System) (u : UnitId) : Prop :=
  ∃ (i : ThreadId) (th : Thread) (w : WorkerId) (rest : List Action),
    s.threads[i]? = some th ∧ s.home w = some u ∧
      th.agenda = .control .disable :: .worker w .quit :: rest

/-- How far the start of a back-end has come agrees with what the workers are at. -/
structure Opened (s : System) : Prop where
  /-- The back-end that a worker starts is starting. -/
  starting : ∀ {w : WorkerId} {u : UnitId} {x : TierUnit}, .worker w .starting ∈ s.pending →
    s.home w = some u → s.broker.units[u]? = some x → x.init = .running
  /-- One worker at a time starts it. -/
  once : ∀ {w w' : WorkerId} {u : UnitId}, .worker w .starting ∈ s.pending →
    .worker w' .starting ∈ s.pending → s.home w = some u → s.home w' = some u → w = w'
  /-- Whoever is at work has a back-end that has started. -/
  isOpen : ∀ {w : WorkerId} {st : WorkerStep} {u : UnitId} {x : TierUnit},
    .worker w st ∈ s.pending → st.isOpen = true → s.home w = some u →
      s.broker.units[u]? = some x → x.init = .ready
  /-- If it failed to start, compilation is disabled, or is about to be. -/
  failed : ∀ {u : UnitId} {x : TierUnit} {message : String}, s.broker.units[u]? = some x →
    x.init = .failed message → s.broker.disabled = true ∨ s.Quits u

theorem Quits.move (h : s.Quits u) (hs : s.Lawful) (m : Move) :
    (s.move m).broker.disabled = true ∨ (s.move m).Quits u := by
  obtain ⟨i, th, w, rest, hth, hw, ha⟩ := h
  cases hran : s.ranBy i m with
  | none => exact .inr ⟨i, th, w, rest, thread_of_ranBy hth hran, home_move hs m hw, ha⟩
  | some a =>
    obtain ⟨ch, rest', turn, hruns⟩ := exists_runs_of_ranBy hran hth
    obtain ⟨rfl, -⟩ := List.cons.inj (hruns.agenda.symm.trans ha)
    have hregular := regular_of_ran hruns.ran
    exact .inl (hregular.disabled.trans (Bool.or_true _))

/-- Who comes to start a back-end has found that nobody has. -/
theorem Runs.begins_of_next {ch : Choices} {th : Thread} {st : WorkerStep} {rest : List Action}
    {turn : Turn} (h : s.Runs m i ch th (.worker w st) rest turn) (hs : s.Lawful)
    (hnext : .worker w .starting ∈ turn.next) :
    st = .start ∧ ∃ u, s.home w = some u ∧ s.begins? m = some u := by
  have hready := hs.ready _ (mem_duties.2 ⟨_, h.mem_pending, rfl⟩)
  obtain ⟨worker, unit, hw, hu, hrun⟩ := Action.worker_run hs.sound hready.1 h.run
  obtain rfl : st = .start := by
    by_contra hne
    have hall := List.all_eq_true.1 (WorkerStep.run_all hrun hne) _ hnext
    cases hall
  refine ⟨rfl, worker.unit, congrArg (Option.map _) hw, ?_⟩
  rw [begins_of_start h.ran hw hu]
  rw [WorkerStep.run] at hrun
  split at hrun
  · exact if_pos ‹_›
  · cases hrun
  all_goals
    obtain rfl := Option.some.inj hrun
    simp at hnext

namespace Opened

/-- A back-end that has answered is not started once more. -/
theorem init_move (h : s.Opened) (hs : s.Lawful) (ho : s.Ordered) {x' : TierUnit}
    (hx : s.broker.units[u]? = some x) (hx' : (s.move m).broker.units[u]? = some x')
    (hpending : x.init ≠ .pending) (hrunning : x.init ≠ .running) : x'.init = x.init := by
  obtain ⟨y, hy, hopens⟩ := opens_move hs ho m hx'
  obtain rfl := Option.some.inj (hx.symm.trans hy)
  generalize hinit : x.init = init at hopens hpending
  generalize x'.init = init' at hopens
  cases hopens with
  | stay _ _ => rfl
  | begin _ _ _ _ => exact absurd rfl hpending
  | «return» hran hw _ _ =>
    obtain ⟨i, ch, th, rest, turn, hruns⟩ := exists_runs hran
    exact absurd (h.starting hruns.mem_pending hw hx) hrunning

/-- A back-end that has started stays so. -/
theorem ready_move (h : s.Opened) (hs : s.Lawful) (ho : s.Ordered) {x' : TierUnit}
    (hx : s.broker.units[u]? = some x) (hready : x.init = .ready)
    (hx' : (s.move m).broker.units[u]? = some x') : x'.init = .ready :=
  (h.init_move hs ho hx hx' (by simp [hready]) (by simp [hready])).trans hready

/-- Every move leaves starts and workers in agreement. -/
theorem move (h : s.Opened) (hs : s.Orderly) (ho : s.Ordered) (m : Move) : (s.move m).Opened := by
  have hl := hs.lawful
  obtain ⟨others, new, hnew, hbefore, hafter⟩ := s.exists_pending_move m
  have old {a : Action} (ha : a ∈ others) : a ∈ s.pending := hbefore ▸ Multiset.mem_add.2 (.inl ha)
  have cases {a : Action} (ha : a ∈ (s.move m).pending) : a ∈ others ∨ a ∈ new := by
    simpa [hafter] using ha
  -- Whoever starts a back-end, and is not at it now, has it starting still.
  have still {w : WorkerId} {u : UnitId} {x' : TierUnit} (hmem : .worker w .starting ∈ others)
      (hw : s.home w = some u) (hx' : (s.move m).broker.units[u]? = some x') :
      x'.init = .running ∧ s.begins? m ≠ some u := by
    obtain ⟨x, hx, hopens⟩ := opens_move hl ho m hx'
    have hrunning := h.starting (old hmem) hw hx
    rw [hrunning] at hopens
    generalize x'.init = init at hopens
    cases hopens with
    | stay hbegins _ => exact ⟨rfl, hbegins⟩
    | @«return» w₀ _ r hran hw₀ hbegins _ =>
      have hpending : s.pending = others + {.worker w₀ .starting} := by rw [hbefore, hran]; rfl
      obtain rfl := h.once (old hmem) (hpending ▸ by simp) hw hw₀
      exact absurd hmem (not_mem_of_posted hs.posted hpending)
  have begun {w : WorkerId} (hmem : .worker w .starting ∈ new) :
      ∃ u, s.home w = some u ∧ s.begins? m = some u ∧ s.ran m = some (.worker w .start) := by
    rcases hnew.worker hl ho hmem with hstart | ⟨i, ch, th, st₀, rest, turn, hruns, hnext⟩
    · cases hstart
    · obtain ⟨rfl, u, hw, hbegins⟩ := hruns.begins_of_next hl hnext
      exact ⟨u, hw, hbegins, hruns.ran⟩
  -- Who begins to start a back-end is at its own, and no other one is.
  have alone {w : WorkerId} {u : UnitId} (hmem : .worker w .starting ∈ (s.move m).pending)
      (hw : (s.move m).home w = some u) {x' : TierUnit}
      (hx' : (s.move m).broker.units[u]? = some x') :
      .worker w .starting ∈ others ∧ s.home w = some u ∧ s.begins? m ≠ some u ∨
        s.begins? m = some u ∧ s.ran m = some (.worker w .start) := by
    rcases cases hmem with hmem | hmem
    · have hw := home_of_move hl (old hmem) hw
      exact .inl ⟨hmem, hw, (still hmem hw hx').2⟩
    · obtain ⟨v, hv, hbegins, hran⟩ := begun hmem
      obtain rfl := Option.some.inj (hw.symm.trans (home_move hl m hv))
      exact .inr ⟨hbegins, hran⟩
  constructor
  case starting =>
    intro w u x' hmem hw hx'
    rcases alone hmem hw hx' with ⟨hmem, hw, -⟩ | ⟨hbegins, -⟩
    · exact (still hmem hw hx').1
    · obtain ⟨x, hx, hopens⟩ := opens_move hl ho m hx'
      generalize x.init = init at hopens
      generalize x'.init = init' at hopens
      cases hopens with
      | stay hnot _ => exact absurd hbegins hnot
      | begin _ _ _ _ => rfl
      | «return» _ _ hnone _ => cases hbegins.symm.trans hnone
  case once =>
    intro w w' u hmem hmem' hw hw'
    obtain ⟨v, x', hv, hx'⟩ := exists_home (hl.move m) hmem
    obtain rfl := Option.some.inj (hw.symm.trans hv)
    rcases alone hmem hw hx' with ⟨hold, hw, hnot⟩ | ⟨hbegins, hran⟩
    · rcases alone hmem' hw' hx' with ⟨hold', hw', -⟩ | ⟨hbegins, -⟩
      · exact h.once (old hold) (old hold') hw hw'
      · exact absurd hbegins hnot
    · rcases alone hmem' hw' hx' with ⟨-, -, hnot⟩ | ⟨-, hran'⟩
      · exact absurd hbegins hnot
      · exact (Action.worker.inj (Option.some.inj (hran.symm.trans hran'))).1
  case isOpen =>
    intro w st u x' hmem hopen hw hx'
    have of_old {st : WorkerStep} (hmem : .worker w st ∈ s.pending) (hopen : st.isOpen = true) :
        x'.init = .ready := by
      obtain ⟨x, hx, -⟩ := opens_move hl ho m hx'
      exact h.ready_move hl ho hx (h.isOpen hmem hopen (home_of_move hl hmem hw) hx) hx'
    rcases cases hmem with hmem | hmem
    · exact of_old (old hmem) hopen
    rcases hnew.worker hl ho hmem with rfl | ⟨i, ch, th, st₀, rest, turn, hruns, hnext⟩
    · cases hopen
    have hpost := hl.ready _ (mem_duties.2 ⟨_, hruns.mem_pending, rfl⟩)
    obtain ⟨worker, unit, hworker, hu, hrun⟩ := Action.worker_run hl.sound hpost.1 hruns.run
    have hhome : s.home w = some worker.unit := congrArg (Option.map _) hworker
    rcases WorkerStep.isOpen_run hrun hnext hopen with hopen | ⟨rfl, hready⟩ | ⟨rfl, hok⟩
    · exact of_old hruns.mem_pending hopen
    · obtain rfl := Option.some.inj (hw.symm.trans (home_move hl m hhome))
      exact h.ready_move hl ho hu hready hx'
    · obtain rfl := Option.some.inj (hw.symm.trans (home_move hl m hhome))
      obtain ⟨v, r, hv, hr, hreturns, -, -⟩ := hruns.starting_returns hl
      obtain rfl := Option.some.inj (hhome.symm.trans hv)
      obtain rfl := Option.some.inj (hok.symm.trans hr)
      obtain ⟨x, hx, hopens⟩ := opens_move hl ho m hx'
      generalize x.init = init at hopens
      generalize x'.init = init' at hopens
      cases hopens with
      | stay _ hnot => exact absurd hreturns (hnot _)
      | begin hran _ _ _ => cases hran.symm.trans hruns.ran
      | «return» _ _ _ hreturns' =>
        obtain rfl := (Prod.mk.inj (Option.some.inj (hreturns.symm.trans hreturns'))).2
        rfl
  case failed =>
    intro u x' message hx' hfailed
    obtain ⟨x, hx, hopens⟩ := opens_move hl ho m hx'
    generalize hinit : x.init = init at hopens
    generalize hinit' : x'.init = init' at hopens
    cases hopens with
    | stay _ _ =>
      rcases h.failed hx (hinit.trans (hinit'.symm.trans hfailed)) with hdisabled | hquits
      · exact .inl ((hl.extends_move m).disabled hdisabled)
      · exact hquits.move hl m
    | begin _ _ _ _ => cases hinit'.symm.trans hfailed
    | @«return» w _ r hran hw _ hreturns =>
      obtain ⟨i, ch, th, rest, turn, hruns⟩ := exists_runs hran
      obtain ⟨v, r', hv, -, hreturns', -, hnext⟩ := hruns.starting_returns hl
      obtain rfl := (Prod.mk.inj (Option.some.inj (hreturns.symm.trans hreturns'))).2
      cases r with
      | ok _ => cases hinit'.symm.trans hfailed
      | error message =>
        refine .inr ⟨i, _, w, rest, hruns.thread_after, home_move hl m hw, ?_⟩
        rw [Thread.agenda_after hruns.agenda, hnext]
        rfl

end Opened

/-- At first no back-end is started. -/
theorem opened_launch {config : Config} {parts : Broker.Parts} {b : Broker}
    (hb : Broker.assemble config parts = .ok b) : (launch b).Opened := by
  have none {w : WorkerId} {st : WorkerStep} (h : .worker w st ∈ (launch b).pending) : False := by
    cases mem_pending_launch h
  refine ⟨fun h => (none h).elim, fun h => (none h).elim, fun h => (none h).elim,
    fun {u x message} hx hfailed => ?_⟩
  obtain ⟨t, -, kind, rfl⟩ := Broker.unit_of_assemble hb x (Table.mem_toList_iff.2 ⟨u, hx⟩)
  cases hfailed

theorem Reachable.opened {config : Config} {parts : Broker.Parts} {b : Broker}
    (hb : Broker.assemble config parts = .ok b) (h : Reachable (launch b) s) : s.Opened := by
  have hfresh := Broker.fresh_assemble hb
  induction h with
  | first => exact opened_launch hb
  | move m hr ih => exact ih.move (hr.orderly hfresh) (hr.ordered hfresh) m

end System

end JitBroker
