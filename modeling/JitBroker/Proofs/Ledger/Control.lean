import JitBroker.Proofs.Ledger.Event

/-!
# The events of ending tasks and of control

A task is ended by three events, each in one step (`TaskStep.event`). Of the steps of control only
those of disabling are events that matter: it drains the queues one by one and wakes requesters
(`ControlStep.event`). The steps at the pause gate, and those that start and enlarge crews, do
nothing but hire workers (`GateStep.event`, `CrewStep.event`).
-/

namespace JitBroker

variable {me : Caller} {ch : Choices} {b : Broker} {turn : Turn}

/-- What a step that ends a task does. -/
theorem TaskStep.event {s : TaskStep} (hready : ∀ d ∈ s.duty?, Duty.Ready b.ledger d)
    (h : s.run b = some turn) :
    Event b.ledger s.duty? (duties turn.next) turn.hired turn.broker.ledger := by
  cases s with
  | unmark t =>
    obtain ⟨x, hx⟩ := Table.exists_getElem? (hready _ rfl)
    rw [run, show b.tasks[t]? = some x from hx] at h
    obtain rfl := Option.some.inj h
    exact Event.cast (.unmark hx) (b.ledger_modifyMethod_queued _ _)
  | spoil t =>
    obtain rfl := Option.some.inj h
    exact .spoil
  | count => exact .of_go h rfl rfl
  | complete t who =>
    obtain ⟨d, hd, hend⟩ : ∃ d, (TaskStep.complete t who).duty? = some d ∧
        (d = .scrap t ∨ d = .finish t) := by
      cases who with
      | stale => exact ⟨_, rfl, .inl rfl⟩
      | worker => exact ⟨_, rfl, .inr rfl⟩
      | requester => exact ⟨_, rfl, .inr rfl⟩
    obtain ⟨x, hx, hopen⟩ : ∃ x, b.ledger.tasks[t]? = some x ∧ x.complete = false := by
      rcases hend with rfl | rfl <;> exact hready _ hd
    rw [run, show b.tasks[t]? = some x from hx] at h
    simp only [hopen, Bool.false_eq_true, if_false] at h
    rw [hd]
    split at h
    · rename_i hawaited
      obtain rfl := Option.some.inj h
      exact .ring hend hx hawaited
    · rename_i hawaited
      obtain rfl := Option.some.inj h
      exact .close hend hx (by simpa using hawaited)
  | free t who =>
    obtain ⟨x, hx, hcomplete, hfreed⟩ := hready _ rfl
    rw [run, show b.tasks[t]? = some x from hx] at h
    simp only [hcomplete, hfreed, Bool.not_true, Bool.or_self, Bool.false_eq_true, if_false] at h
    obtain rfl := Option.some.inj h
    exact .free who
  | wake t =>
    obtain rfl := Option.some.inj h
    exact .wake

theorem Broker.ledger_moveJobs (b : Broker) (old new : JobState) :
    (b.moveJobs old new).ledger = b.ledger := by
  unfold moveJobs
  split <;> rfl

theorem Broker.ledger_detach (b : Broker) (d : Decompilation) :
    (b.detach d).2.ledger = b.ledger := by
  unfold detach
  split
  · exact b.ledger_modifyMethod (fun x => x.queued_detach _ _) _
  · rfl

/-- Draining takes every task off the queue of a unit. -/
theorem ControlStep.drain_event {u : UnitId} (hsound : b.ledger.Sound)
    (hready : Duty.Ready b.ledger (.drain u)) (h : (ControlStep.drain u).run me b = some turn) :
    Event b.ledger (some (.drain u)) (duties turn.next) turn.hired turn.broker.ledger := by
  obtain ⟨unit, hunit⟩ := Table.exists_getElem? (t := b.units) (by simpa [Duty.Ready] using hready)
  have hstock : b.ledger.stocks[u]? = some unit.queue.stock := by simp [hunit]
  rw [run, hunit] at h
  simp only at h
  split at h
  · rename_i hfree
    obtain ⟨ts, b', hdrain, list, tasks, hsheds, hempty, htasks, hledger⟩ :=
      b.exists_drain u unit.queue (hsound.list hstock)
    rw [hdrain] at h
    obtain rfl := Option.some.inj h
    rw [duties_stale]
    exact Event.cast (.drain hstock (by simp [hfree]) hsheds hempty htasks) hledger
  · exact absurd h (by simp)

theorem duties_disable (us : List UnitId) :
    duties ((us.flatMap (fun u => [ControlStep.drain u, .ring u]) ++
      [ControlStep.rouse]).map .control) =
      us.map Duty.drain ++ [Duty.rouse] := by
  induction us with
  | nil => rfl
  | cons u us ih => exact congrArg (Duty.drain u :: ·) ih

/-- What a step of control does. -/
theorem ControlStep.event {s : ControlStep} (hsound : b.ledger.Sound)
    (hready : ∀ d ∈ s.duty?, Duty.Ready b.ledger d) (h : s.run me b = some turn) :
    Event b.ledger s.duty? (duties turn.next) turn.hired turn.broker.ledger := by
  cases s with
  | drain u => exact drain_event hsound (hready _ rfl) h
  | disable =>
    rw [run] at h
    split at h
    · exact .of_go h rfl rfl
    · rename_i hopen
      obtain rfl := Option.some.inj h
      rw [duties_disable]
      have hevent := Event.disable (l := b.ledger) (by simpa using hopen)
      rw [b.size_stocks] at hevent
      exact hevent
  | rouse =>
    rw [run] at h
    split at h
    · exact absurd h (by simp)
    · obtain rfl := Option.some.inj h
      have hduties : duties ((b.liveWorkers.map ControlStep.nudge).map .control) =
          b.ledger.crews.toList.flatten.map .nudge := by
        rw [Broker.ledger, Table.toList_map, ← List.flatMap_def, ← Broker.liveWorkers]
        induction b.liveWorkers with
        | nil => rfl
        | cons w ws ih => exact congrArg (Duty.nudge w :: ·) ih
      exact hduties ▸ .rouse
  | nudge w =>
    obtain ⟨worker, hworker⟩ :=
      Table.exists_getElem? (t := b.workers) (by simpa [Duty.Ready] using hready _ rfl)
    rw [run, hworker] at h
    obtain rfl := Option.some.inj h
    have hevent : Event b.ledger (some (.nudge w)) (worker.current.toList.map .wake) none b.ledger :=
      .nudge (p := worker.post) (by simp [hworker])
    cases hc : worker.current with
    | none =>
      rw [hc] at hevent
      exact hevent
    | some t =>
      rw [hc] at hevent
      exact hevent
  | restart u =>
    rw [run] at h
    split at h <;> exact .of_go h rfl rfl
  | room u =>
    rw [run] at h
    split at h
    · exact .of_go h rfl rfl
    · split at h <;> exact .of_go h rfl rfl
  | resume =>
    rw [run] at h
    split at h <;> exact .of_go h rfl rfl
  | countRestart => exact .of_go h rfl rfl
  | full kind => exact .of_go h rfl rfl
  | react =>
    rw [run] at h
    split at h
    · split at h <;> exact .of_go h rfl rfl
    · exact .of_go h rfl rfl
  | countStop => exact .of_go h rfl rfl
  | ring u =>
    rw [run] at h
    split at h
    · exact .of_go h rfl rfl
    · split at h
      · exact .of_go h (b.ledger_ring u) rfl
      · exact absurd h (by simp)
  | shutdown =>
    rw [run] at h
    split at h
    · exact .of_go h rfl rfl
    · refine .of_go h rfl (duties_eq_nil fun a ha => ?_)
      obtain ⟨s, hs, rfl⟩ := List.mem_map.1 ha
      rcases List.mem_append.1 hs with hs | hs
      · rcases List.mem_cons.1 hs with rfl | hs
        · rfl
        · obtain ⟨u, -, rfl⟩ := List.mem_map.1 hs
          rfl
      · split at hs
        · cases hs
        · rw [List.mem_singleton.1 hs]
          rfl
  | joinAll =>
    rw [run] at h
    split at h
    · exact absurd h (by simp)
    · refine .of_go h rfl (duties_eq_nil fun a ha => ?_)
      obtain ⟨s, hs, rfl⟩ := List.mem_map.1 ha
      obtain ⟨w, -, rfl⟩ := List.mem_map.1 hs
      rfl
  | join w =>
    rw [run] at h
    split at h
    · exact .of_go h rfl rfl
    · split at h
      · exact .of_go h rfl rfl
      · exact absurd h (by simp)
  | accept on =>
    refine .of_go h ?_ rfl
    cases on <;> exact b.ledger_moveJobs _ _
  | detach d =>
    rw [run] at h
    split at h
    · rename_i code b' hdetach
      have hledger : b'.ledger = b.ledger := by
        rw [← b.ledger_detach d, hdetach]
      refine .of_go h hledger (duties_eq_nil fun a ha => ?_)
      simp only [List.mem_append, List.mem_cons, List.mem_map, List.not_mem_nil, or_false] at ha
      obtain ((rfl | rfl) | ⟨u, -, rfl⟩) | rfl := ha <;> rfl
    · rename_i b' hdetach
      have hledger : b'.ledger = b.ledger := by
        rw [← b.ledger_detach d, hdetach]
      obtain rfl := Option.some.inj h
      exact .of_eq hledger rfl
  | release d region => exact .of_go h rfl rfl
  | record d => exact .of_go h rfl rfl
  | replay =>
    rw [run] at h
    split at h
    · obtain rfl := Option.some.inj h
      exact .plain none
    · split at h
      · obtain rfl := Option.some.inj h
        exact .plain none
      · exact .of_go h rfl rfl
  | again rest summary =>
    cases rest with
    | nil =>
      obtain rfl := Option.some.inj h
      exact .plain none
    | cons d rest =>
      rw [run] at h
      split at h
      · exact .of_go h rfl rfl
      · split at h <;> exact .of_go h rfl rfl
  | tally rest summary =>
    rw [run] at h
    split at h <;> exact .of_go h rfl rfl

/-- What a step at the pause gate does. -/
theorem GateStep.event {s : GateStep} (h : s.run b = some turn) :
    Event b.ledger none (duties turn.next) turn.hired turn.broker.ledger := by
  cases s with
  | poll =>
    refine .of_go h rfl ?_
    split <;> rfl
  | park =>
    rw [run] at h
    split at h <;> exact .of_go h rfl rfl
  | parked bell =>
    rw [run] at h
    split at h
    · exact absurd h (by simp)
    · split at h <;> exact .of_go h rfl rfl

/-- Hiring adds a worker to the records and to the crew. -/
theorem CrewStep.enlist_event {u : UnitId} {unit : TierUnit} {s : CrewStep}
    (hunit : b.units[u]? = some unit) (h : enlist b u unit s = some turn) :
    Event b.ledger none (duties turn.next) turn.hired turn.broker.ledger := by
  obtain rfl := Option.some.inj h
  have hledger := b.ledger_publish u (fun c => c.live ++ [b.workers.size]) hunit
  have hposts : (b.workers.add (b.newWorker u unit)).map Worker.post =
      b.ledger.posts.add ⟨u, none⟩ := Table.map_add _ _ _
  have hcrew : b.ledger.crews[u]? = some unit.crew.live := by simp [hunit]
  have hevent := Event.hire hcrew
  rw [b.size_posts] at hevent
  exact hevent.cast (.trans
    (congrArg (fun l : Ledger => { l with posts := (b.workers.add (b.newWorker u unit)).map Worker.post })
      hledger)
    (congrArg (fun posts => { Ledger.setCrew _ _ _ with posts := posts }) hposts))

/-- What a step that starts or enlarges a crew does. -/
theorem CrewStep.event {s : CrewStep} (h : s.run me ch b = some turn) :
    Event b.ledger none (duties turn.next) turn.hired turn.broker.ledger := by
  cases s with
  | grow u =>
    rw [run] at h
    split at h
    · exact .of_go h rfl rfl
    · split at h <;> exact .of_go h rfl rfl
  | depth u current =>
    rw [run] at h
    split at h <;> exact .of_go h rfl rfl
  | weigh u current queued =>
    rw [run] at h
    split at h
    · exact .of_go h rfl rfl
    · simp only at h
      split at h <;> exact .of_go h rfl rfl
  | expand u desired =>
    rw [run] at h
    split at h <;> exact .of_go h rfl rfl
  | hire u desired =>
    rw [run] at h
    split at h
    · exact .of_go h rfl rfl
    · rename_i unit hunit
      split at h
      · exact enlist_event hunit h
      · exact .of_go h rfl rfl
  | launch us =>
    cases us with
    | nil => exact .of_go h rfl rfl
    | cons u rest =>
      rw [run] at h
      split at h
      · exact .of_go h rfl rfl
      · split at h
        · exact absurd h (by simp)
        · exact .of_go h rfl rfl
  | staff u count rest =>
    cases count with
    | zero => exact .of_go h rfl rfl
    | succ count =>
      rw [run] at h
      split at h
      · exact .of_go h rfl rfl
      · rename_i unit hunit
        split at h
        · exact enlist_event hunit h
        · exact .of_go h rfl rfl
  | «open» =>
    obtain rfl := Option.some.inj h
    exact .plain none

end JitBroker
