import JitBroker.Proofs.Rest.Crews
import JitBroker.Proofs.Rest.Judged
import JitBroker.Proofs.Rest.Standstill
import JitBroker.Proofs.Rest.Start
import JitBroker.Proofs.Shutdown.Drain
import JitBroker.Proofs.Task.Place

/-!
# No stranded work

A system may come to rest with tasks in its queues and requesters that wait for them. This is as it
should be only if something that the broker does not control is to happen first: a back-end is to
return, or a guard of the pause gate is to be dropped. A worker that waits for one of these is
*engaged* (`System.Engaged`). Among those inside a back-end are the workers that wait for the start
of the back-end of their unit, which one of them runs for all.

* `System.Resting`: what is known of a system at rest, and `System.Resting.engaged`, which is what
  becomes of a worker then;
* `System.Resting.exists_place`: a task that is not complete is in a queue, or with a worker that is
  engaged;
* `System.unstranded_of_run`: in every state at rest that a broker can get into, no worker sleeps
  beside a task, and no requester waits for a task that nobody is at.
-/

namespace JitBroker

/-! ### Duties that nobody has at rest -/

/-- Whether a duty is held up by nothing but locks. -/
def Duty.prompt : Duty → Bool
  | .unmark _ | .spoil _ | .scrap _ | .finish _ | .wake _ | .drain _ | .rouse | .nudge _ => true
  | _ => false

theorem Action.urgency_of_prompt {a : Action} {d : Duty} (ha : a.duty? = some d)
    (hd : d.prompt = true) : a.urgency = .prompt := by
  cases a with
  | request s => cases s <;> cases ha <;> cases hd
  | task s => rfl
  | control s => cases s <;> cases ha <;> rfl
  | worker w s =>
    cases ha
    cases hd
  | _ => cases ha

theorem Action.isLocked_of_bring {a : Action} {u : UnitId} {m : MethodId} {t : TaskId}
    (ha : a.duty? = some (.bring u m t)) : a.isLocked = true := by
  cases a with
  | request s => cases s <;> cases ha <;> rfl
  | task s =>
    cases s with
    | complete t who => cases who <;> cases ha
    | _ => cases ha
  | control s => cases s <;> cases ha
  | _ => cases ha

/-! ### Where workers are at rest -/

/-- The thread of a worker is inside a call of its back-end. -/
inductive Thread.InBackend (s : System) (w : WorkerId) (th : Thread) : Prop where
  /-- The one that starts the back-end. -/
  | starts (h : .worker w .starting ∈ th.agenda)
  /-- The same, while another worker of the unit starts the back-end. -/
  | joins {w' : WorkerId} {x x' : Worker} (h : .worker w .start ∈ th.agenda)
    (hstart : .worker w' .starting ∈ s.pending) (hx : s.broker.workers[w]? = some x)
    (hx' : s.broker.workers[w']? = some x') (hunit : x'.unit = x.unit)
  /-- One that compiles. -/
  | compiles {c : CompileRun} (h : .worker w (.compile c) ∈ th.agenda)

/-- The thread is parked, and there is a guard. -/
def Thread.Parked (b : Broker) (th : Thread) : Prop :=
  th.agenda.head? = some (.gate (.parked b.gate.bell)) ∧ 0 < b.gate.guards

namespace System

variable {s : System} {w : WorkerId} {t : TaskId} {x : Task}

/-- A worker is inside its back-end, or parked. -/
def Engaged (s : System) (w : WorkerId) : Prop :=
  ∃ (i : ThreadId) (th : Thread), s.threads[i]? = some th ∧ th.worker = some w ∧
    (th.InBackend s w ∨ th.Parked s.broker)

/-- No work is stranded. -/
structure Unstranded (s : System) : Prop where
  /-- A unit with a task in its queue has workers, and each of them is inside its back-end, or
  parked. -/
  work : ∀ {u : UnitId} {x : TierUnit}, s.broker.units[u]? = some x → x.queue.list.toList ≠ [] →
    x.crew.live ≠ [] ∧ ∀ w ∈ x.crew.live, s.Engaged w
  /-- A requester that waits for a task waits for one that is not complete, and that is in a queue,
  or in the hands of such a worker; and the broker is neither disabled nor shut down. -/
  wait : ∀ {i : ThreadId} {th : Thread} {q : Inquiry} {t : TaskId} {bell : Nat}
    {watch : Option Watch}, s.threads[i]? = some th →
    th.agenda.head? = some (.request (.asleep q t bell watch)) →
      s.broker.exiting = false ∧ (∃ x, s.broker.tasks[t]? = some x ∧ x.complete = false) ∧
        ((∃ u, s.At t (.queue u)) ∨ ∃ w, s.At t (.worker w) ∧ s.Engaged w)

/-- What is known of a state at rest. -/
structure Resting (s : System) : Prop where
  /-- It is at rest. -/
  rest : s.AtRest
  /-- What holds in every state. -/
  orderly : s.Orderly
  /-- Agendas are in order. -/
  ordered : s.Ordered
  /-- Whoever waits waits for something. -/
  alert : s.Alert
  /-- Crews are manned. -/
  manned : s.Manned
  /-- The broker is started, or has no tasks. -/
  started : s.Started
  /-- Requesters of judged tasks are woken. -/
  judged : s.Judged
  /-- Tasks are with units of their tiers. -/
  tiered : s.Tiered

namespace Resting

theorem unlocked (h : s.Resting) : s.broker.Unlocked :=
  h.rest.unlocked h.ordered h.orderly.guarded h.alert

/-- Nothing prompt is to be done. -/
theorem notMem_of_prompt (h : s.Resting) {a : Action} (ha : a.urgency = .prompt) : a ∉ s.pending :=
  fun hmem => h.rest.urgency_ne h.ordered h.unlocked hmem ha

theorem duty_notMem (h : s.Resting) {d : Duty} (hd : d.prompt = true) : d ∉ s.duties := by
  intro hmem
  obtain ⟨a, ha, hduty⟩ := mem_duties.1 hmem
  exact h.notMem_of_prompt (Action.urgency_of_prompt hduty hd) ha

/-- If somebody is to disable compilation, it is disabled. -/
theorem disabled_of_stopping (h : s.Resting) (hstop : s.Stopping) : s.broker.disabled = true :=
  hstop.resolve_right (h.notMem_of_prompt rfl)

/-- If compilation is disabled, the queues are empty. -/
theorem toList_eq_nil (h : s.Resting) (hdis : s.broker.disabled = true) {u : UnitId} {x : TierUnit}
    (hx : s.broker.units[u]? = some x) : x.queue.list.toList = [] := by
  have hstock : s.ledger.stocks[u]? = some x.queue.stock := by simp [ledger, hx]
  exact ((h.orderly.closing.drained hdis hstock).resolve_left (h.duty_notMem rfl)).1

/-- A worker with a step to make is engaged, or sleeps on a queue without tasks. -/
theorem engaged (h : s.Resting) {step : WorkerStep} (hw : .worker w step ∈ s.pending) :
    s.Engaged w ∨ step.phase.task? = none ∧ ∃ worker x, s.broker.workers[w]? = some worker ∧
      s.broker.units[worker.unit]? = some x ∧ x.queue.list.toList = [] := by
  obtain ⟨i, th, hth, hworker, hmem, hwaits | ⟨hparked, -⟩⟩ :=
    h.rest.exists_worker h.ordered h.unlocked hw
  · cases step with
    | starting => exact .inl ⟨i, th, hth, hworker, .inl (.starts hmem)⟩
    | compile c => exact .inl ⟨i, th, hth, hworker, .inl (.compiles hmem)⟩
    | start =>
      obtain ⟨worker, x, hrecord, hx, hinit⟩ := hwaits
      obtain ⟨w', p, hstart, hp, hunit⟩ := h.alert.init hx hinit
      obtain ⟨worker', hrecord', rfl⟩ : ∃ worker', s.broker.workers[w']? = some worker' ∧
          worker'.post = p := by simpa [ledger] using hp
      exact .inl ⟨i, th, hth, hworker, .inl (.joins hmem hstart hrecord hrecord' hunit)⟩
    | asleep bell due =>
      obtain ⟨worker, x, hrecord, hx, hbell⟩ := hwaits
      have hpost : s.ledger.posts[w]? = some worker.post := by simp [ledger, hrecord]
      exact .inr ⟨rfl, worker, x, hrecord, hx, (h.alert.asleep hw hpost hx).2 hbell.symm⟩
    | _ => cases hwaits
  · have hpending : .gate (.parked s.broker.gate.bell) ∈ s.pending :=
      mem_pending.2 ⟨i, th, hth, List.mem_of_head? hparked⟩
    exact .inl ⟨i, th, hth, hworker, .inr ⟨hparked, (h.alert.parked hpending).2 rfl⟩⟩

/-- A unit with a task in its queue has workers that are engaged. -/
theorem work (h : s.Resting) {u : UnitId} {x : TierUnit} (hx : s.broker.units[u]? = some x)
    (hqueue : x.queue.list.toList ≠ []) : x.crew.live ≠ [] ∧ ∀ w ∈ x.crew.live, s.Engaged w := by
  obtain ⟨t, ht⟩ := List.exists_mem_of_ne_nil _ hqueue
  refine ⟨h.started.live_of_queued h.orderly.lawful hx ht, fun w hw => ?_⟩
  have hcrew : s.ledger.crews[u]? = some x.crew.live := by simp [ledger, hx]
  rcases h.manned.live hcrew hw with hstop | ⟨step, hstep, -⟩
  · exact absurd (h.toList_eq_nil (h.disabled_of_stopping hstop) hx) hqueue
  · refine (h.engaged hstep).resolve_right ?_
    -- The worker is of this unit.
    rintro ⟨-, worker, y, hworker, hy, hempty⟩
    obtain ⟨p, hp, hunit⟩ := h.manned.crewed.unit hcrew w hw
    obtain rfl : worker.post = p := by simpa [ledger, hworker] using hp
    rw [show worker.unit = u from hunit, hx] at hy
    exact hqueue (Option.some.inj hy ▸ hempty)

/-- A task that is not complete is not stale, since nobody is to complete it as such. -/
theorem stale_eq_false (h : s.Resting) (hx : s.broker.tasks[t]? = some x)
    (hopen : x.complete = false) : x.stale = false := by
  by_contra hstale
  have hscrap := (h.orderly.lawful.custody t x hx).scrap
  simp only [Bool.not_eq_false] at hstale
  rw [hstale, hopen] at hscrap
  obtain ⟨d, hd, hpart⟩ := share_pos_iff.1 (Nat.lt_of_lt_of_eq Nat.one_pos hscrap.symm)
  obtain rfl := Duty.part_eq_scrap.1 hpart
  exact h.duty_notMem rfl hd

/-- Nobody is on the way to a queue with a task, which takes its lock. -/
theorem share_bring (h : s.Resting) (t : TaskId) : share s.duties t .bring = 0 := by
  by_contra hbring
  obtain ⟨d, hd, hpart⟩ := share_pos_iff.1 (Nat.pos_of_ne_zero hbring)
  obtain ⟨u, m, rfl⟩ : ∃ u m, d = .bring u m t := by
    cases d <;> simp [Duty.part?] at hpart
    exact ⟨_, _, by rw [hpart]⟩
  obtain ⟨a, ha, hduty⟩ := mem_duties.1 hd
  exact Bool.false_ne_true
    ((h.rest.isLocked_eq_false h.ordered ha).symm.trans (Action.isLocked_of_bring hduty))

/-- A worker that has a task is at its back-end, or has its reports before it. -/
theorem step_of_task (h : s.Resting) {step : WorkerStep} (hw : .worker w step ∈ s.pending)
    (ht : step.phase.task? = some t) :
    ∃ c : CompileRun, c.task = t ∧ (step = .compile c ∨ step = .judge c) := by
  obtain ⟨i, th, hth, hworker, hmem, hwaits | ⟨hparked, hafter⟩⟩ :=
    h.rest.exists_worker h.ordered h.unlocked hw
  · cases step <;> first | cases hwaits; done | cases ht
    exact ⟨_, rfl, .inl rfl⟩
  · cases step <;> first | cases hafter; done | cases ht
    · exact ⟨_, rfl, .inl rfl⟩
    · exact ⟨_, rfl, .inr rfl⟩

/-- A task that is not complete is in a queue, or at a back-end, or the reports are to be judged. -/
theorem exists_place (h : s.Resting) (hx : s.broker.tasks[t]? = some x)
    (hopen : x.complete = false) :
    (∃ u, s.At t (.queue u)) ∨ ∃ w step, .worker w step ∈ s.pending ∧
      ((∃ c : CompileRun, c.task = t ∧ (step = .compile c ∨ step = .judge c)) ∧ s.Engaged w) := by
  have hkeeper := (h.orderly.lawful.custody t x hx).keeper
  rw [hopen, h.stale_eq_false hx hopen, h.share_bring, Nat.zero_add] at hkeeper
  simp only [Bool.or_self, Bool.false_eq_true, if_false] at hkeeper
  rcases Nat.eq_zero_or_pos (share s.duties t .work) with hwork | hwork
  · rw [hwork, Nat.zero_add] at hkeeper
    obtain ⟨u, hu, -⟩ := place_of_queued h.tiered hx hkeeper
    exact .inl ⟨u, hu⟩
  · obtain ⟨d, hd, hpart⟩ := share_pos_iff.1 hwork
    right
    cases d with
    | finish t' => exact absurd hd (h.duty_notMem rfl)
    | post w p =>
      have ht : p.task? = some t := by simpa [Duty.part?] using hpart
      obtain ⟨a, ha, hduty⟩ := mem_duties.1 hd
      obtain ⟨step, rfl, rfl⟩ := Action.worker_of_duty hduty
      -- A worker that sleeps on an empty queue has no task.
      have hengaged : s.Engaged w := (h.engaged ha).resolve_right fun hidle => by
        rw [hidle.1] at ht
        cases ht
      exact ⟨w, step, ha, h.step_of_task ha ht, hengaged⟩
    | _ => simp [Duty.part?] at hpart

/-- If compilation is disabled, a requester that has heard all bells is not to be woken. -/
theorem not_roused (h : s.Resting) (hx : s.broker.tasks[t]? = some x)
    (hsleep : .sleep t x.bell ∈ s.duties) : ¬Roused s.ledger s.duties w t := by
  rintro (hrouse | hnudge | hwake | hn)
  · exact h.duty_notMem rfl hrouse
  · exact h.duty_notMem rfl hnudge
  · exact h.duty_notMem rfl hwake
  · exact Nat.lt_irrefl _ (hn hsleep hx)

/-- A requester that waits for a task waits for one that somebody is at. -/
theorem wait (h : s.Resting) {i : ThreadId} {th : Thread} {q : Inquiry} {bell : Nat}
    {watch : Option Watch} (hth : s.threads[i]? = some th)
    (hhead : th.agenda.head? = some (.request (.asleep q t bell watch))) :
    s.broker.exiting = false ∧ (∃ x, s.broker.tasks[t]? = some x ∧ x.complete = false) ∧
      ((∃ u, s.At t (.queue u)) ∨ ∃ w, s.At t (.worker w) ∧ s.Engaged w) := by
  obtain ⟨rest, hagenda⟩ := List.head?_eq_some_iff.1 hhead
  obtain ⟨x, hx, rfl⟩ := h.rest.waits h.unlocked hth hagenda
  have hsleep : .sleep t x.bell ∈ s.duties :=
    mem_duties.2 ⟨_, mem_pending.2 ⟨i, th, hth, hagenda ▸ List.mem_cons_self⟩, rfl⟩
  have hopen := h.orderly.heard.incomplete hsleep hx
  have hplace := h.exists_place hx hopen
  refine ⟨?_, ⟨x, hx, hopen⟩, hplace.imp_right ?_⟩
  · by_contra hexit
    have hdis : s.broker.disabled = true := by
      simp only [Broker.exiting, Bool.not_eq_false, Bool.or_eq_true, beq_iff_eq] at hexit
      exact hexit.elim id fun hshut => h.disabled_of_stopping (h.manned.shut hshut)
    rcases hplace with ⟨u, y, hy, ht⟩ | ⟨w, step, hstep, ⟨c, rfl, rfl | rfl⟩, -⟩
    · exact absurd (h.toList_eq_nil hdis hy ▸ ht) List.not_mem_nil
    · exact h.not_roused hx hsleep (h.orderly.closing.woken hdis (mem_duties.2 ⟨_, hstep, rfl⟩))
    · exact h.not_roused hx hsleep (h.judged hdis hstep)
  · rintro ⟨w, step, hstep, ⟨c, rfl, hc⟩, hengaged⟩
    refine ⟨w, (at_worker_iff h.orderly.lawful h.orderly.posted).2 ⟨step.phase, ?_, ?_⟩, hengaged⟩
    · exact mem_duties.2 ⟨_, hstep, rfl⟩
    · rcases hc with rfl | rfl <;> rfl

end Resting

/-- In every state that a broker can get into, by whatever requesters, workers and others do and in
whatever order: when no thread can make a step unless time runs out, a guard is dropped or a
back-end does something, no work is stranded. -/
theorem unstranded_of_run {config : Config} {parts : Broker.Parts} {b : Broker}
    (h : Broker.assemble config parts = .ok b) (moves : List Move)
    (hrest : (moves.foldl move (launch b)).AtRest) : (moves.foldl move (launch b)).Unstranded := by
  have hb := Broker.fresh_assemble h
  have hr : Reachable (launch b) (moves.foldl move (launch b)) := reachable_iff_foldl.2 ⟨moves, rfl⟩
  have hresting : (moves.foldl move (launch b)).Resting :=
    ⟨hrest, hr.orderly hb, hr.ordered hb, hr.alert h, hr.manned h, hr.started h, hr.judged hb,
      hr.tiered hb⟩
  exact ⟨hresting.work, hresting.wait⟩

/-- A small broker comes to rest with its worker at the back-end, a requester that waits for the
task there, and another task in the queue. -/
theorem unstranded_of_soloBusy :
    (soloBusy.foldl move (launch .solo)).AtRest ∧
      ((soloBusy.foldl move (launch .solo)).broker.units[0]?.map (·.queue.list.toList)) = some [1] ∧
      (soloBusy.foldl move (launch .solo)).pending.countP (·.waitsFor 0 = true) = 1 ∧
      (soloBusy.foldl move (launch .solo)).Unstranded :=
  have hrest : (soloBusy.foldl move (launch .solo)).AtRest := by decide +kernel
  ⟨hrest, by decide +kernel, by decide +kernel,
    unstranded_of_run Broker.assemble_solo soloBusy hrest⟩

end System

end JitBroker
