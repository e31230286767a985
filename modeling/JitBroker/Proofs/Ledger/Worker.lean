import JitBroker.Proofs.Ledger.Event

/-!
# The events of a worker

A worker changes the ledger when it takes or leaves the lock of its queue, when it takes tasks off,
when it begins and ends to show a task, when it gives the claim back, and with the result
(`WorkerStep.event`). What a back-end does in between is not seen (`WorkerStep.obey_event`): its calls
to the broker begin without a duty.
-/

namespace JitBroker.WorkerStep

variable {me : Caller} {ch : Choices} {b : Broker} {turn : Turn} {w : WorkerId} {worker : Worker}
  {unit : TierUnit}

/-- What a back-end does is not seen, before it returns. -/
theorem obey_event {c : CompileRun} {task : Task} {move : BackendMove}
    (h : obey b w c task unit move = some turn) :
    Event b.ledger (some (.post w (.inside c.task))) (duties turn.next) turn.hired
      turn.broker.ledger := by
  cases move with
  | install total instructions =>
    rw [obey] at h
    split at h
    · exact .of_go h rfl rfl
    · obtain rfl := Option.some.inj h
      exact .plain _
  | call c' =>
    refine .of_go h rfl ?_
    rw [duties_append, duties_call]
    rfl
  | operate o =>
    obtain rfl := Option.some.inj h
    rcases b.ledger_operate o with hl | hl
    · exact .of_eq hl rfl
    · exact Event.cast (.know _) hl
  | finish =>
    rw [obey] at h
    split at h
    · obtain rfl := Option.some.inj h
      exact .judge (.inr rfl)
    · exact .of_go h rfl rfl
  | _ => exact .of_go h rfl rfl

/-- Choosing takes tasks off the queue. -/
theorem choose_event (hw : b.workers[w]? = some worker) (hu : b.units[worker.unit]? = some unit)
    (hsound : b.ledger.Sound) (h : run me ch b w worker unit .choose = some turn) :
    Event b.ledger (some (.post w .pick)) (duties turn.next) turn.hired turn.broker.ledger := by
  have hpost : b.ledger.posts[w]? = some worker.post := by simp [hw]
  have hstock : b.ledger.stocks[worker.post.unit]? = some unit.queue.stock := by
    simp [Worker.post, hu]
  rw [run] at h
  split at h
  · obtain rfl := Option.some.inj h
    exact Event.cast (.lookOut hpost (.inr rfl) (.inl rfl)) (b.ledger_giveBack _)
  · obtain ⟨chosen, stale, b', hselect, list, tasks, hsheds, htasks, hledger⟩ :=
      b.exists_select worker.unit unit (hsound.list hstock)
    have hunlock : (b'.modifyQueue worker.unit CompileQueue.giveBack).ledger =
        { b.ledger.setStock worker.unit ⟨list, unit.queue.added, false⟩ with tasks := tasks } := by
      rw [b'.ledger_giveBack, hledger]
      exact congrArg (fun l : Ledger => { l with tasks := tasks }) (Ledger.lock_setStock _ _ _ _)
    rw [hselect] at h
    simp only at h
    split at h
    · rename_i hstale
      obtain rfl := List.isEmpty_iff.1 hstale
      cases chosen with
      | some t =>
        obtain rfl := Option.some.inj h
        exact Event.cast (.fetch hpost hstock hsheds htasks) hunlock
      | none =>
        obtain rfl := Option.some.inj h
        exact Event.cast (.clean hpost hstock hsheds htasks (.inr ⟨rfl, rfl⟩)) hledger
    · cases chosen with
      | some t =>
        obtain rfl := Option.some.inj h
        rw [duties_append, duties_stale]
        exact Event.cast (.fetch hpost hstock hsheds htasks) hunlock
      | none =>
        obtain rfl := Option.some.inj h
        rw [duties_append, duties_stale]
        rw [Option.toList_none, List.append_nil] at hsheds
        exact Event.cast (.clean hpost hstock hsheds htasks (.inl ⟨rfl, rfl⟩)) hunlock

/-- A step that goes on with the next one of its worker. -/
theorem next_event {b' : Broker} {l' : Ledger} {d : Option Duty} {s : WorkerStep}
    (h : next b' w s = some turn) (hl : b'.ledger = l')
    (hevent : Event b.ledger d [.post w s.phase] none l') :
    Event b.ledger d (duties turn.next) turn.hired turn.broker.ledger := by
  obtain rfl := Option.some.inj h
  exact hevent.cast hl

theorem ledger_retireLast {u : UnitId} (hu : b.units[u]? = some unit) :
    (b.retireLast u w).ledger = b.ledger.setCrew u unit.crew.live.dropLast :=
  b.ledger_publish u (·.live.dropLast) hu

/-- The steps between two tasks are about the lock of the queue, and about leaving. -/
theorem idle_event {s : WorkerStep} (hw : b.workers[w]? = some worker)
    (hu : b.units[worker.unit]? = some unit)
    (hs : s.phase = .idle ∨ s.phase = .search ∨ s.phase = .away)
    (h : run me ch b w worker unit s = some turn) :
    Event b.ledger (some (.post w s.phase)) (duties turn.next) turn.hired turn.broker.ledger := by
  have hpost : b.ledger.posts[w]? = some worker.post := by simp [hw]
  have hstock : b.ledger.stocks[worker.post.unit]? = some unit.queue.stock := by
    simp [Worker.post, hu]
  have hinit (init : InitState) :
      (b.modifyUnit worker.unit fun x => { x with init := init }).ledger = b.ledger :=
    b.ledger_modifyUnit (fun _ => by rfl) (fun _ => by rfl) _
  have lookIn (hfree : unit.queue.isFree = true) :
      Event b.ledger (some (.post w .idle)) [.post w .search] none
        (b.ledger.lock worker.unit true) := .lookIn hpost hstock (by simp [hfree])
  have lookOut {a : Phase} (ha : a = .idle ∨ a = .away) :
      Event b.ledger (some (.post w .search)) [.post w a] none
        (b.ledger.lock worker.unit false) := .lookOut hpost (.inl rfl) ha
  cases s with
  | start =>
    rw [run] at h
    split at h
    · exact .of_go h (hinit _) rfl
    · exact absurd h (by simp)
    · exact .of_go h rfl rfl
    · obtain rfl := Option.some.inj h
      exact .desert
  | starting =>
    rw [run] at h
    split at h
    · exact absurd h (by simp)
    · exact .of_go h (hinit _) rfl
    · obtain rfl := Option.some.inj h
      exact Event.cast .desert (hinit _)
  | round => exact .of_go h rfl rfl
  | fetch =>
    rw [run] at h
    split at h
    · rename_i hfree
      exact next_event h (b.ledger_take _ _) (lookIn hfree)
    · exact absurd h (by simp)
  | staying =>
    rw [run] at h
    split at h
    · exact next_event h (b.ledger_giveBack _) (lookOut (.inr rfl))
    · rename_i hstay
      refine next_event h rfl (.stay ?_)
      simp only [Broker.exiting, Bool.or_eq_true, not_or, Bool.not_eq_true] at hstay
      exact hstay.1
  | rest => exact .of_go h (b.ledger_modifyWorker (fun _ => by rfl) _) rfl
  | look =>
    rw [run] at h
    split at h
    · rename_i hfree
      exact next_event h (b.ledger_take _ _) (lookIn hfree)
    · exact absurd h (by simp)
  | lookStaying =>
    rw [run] at h
    split at h
    · exact next_event h (b.ledger_giveBack _) (lookOut (.inr rfl))
    · exact .of_go h rfl rfl
  | lookEmpty =>
    rw [run] at h
    split at h
    · exact next_event h (b.ledger_giveBack _) (lookOut (.inl rfl))
    · exact .of_go h rfl rfl
  | asleep bell due =>
    rw [run] at h
    split at h
    · exact absurd h (by simp)
    · rename_i hfree
      have hfree : unit.queue.isFree = true := by simpa using hfree
      split at h
      · exact next_event h (b.ledger_take _ _) (lookIn hfree)
      · split at h
        · exact next_event h (b.ledger_take _ _) (lookIn hfree)
        · exact absurd h (by simp)
  | overdue =>
    rw [run] at h
    split at h
    · exact next_event h (b.ledger_giveBack _) (lookOut (.inl rfl))
    · exact .of_go h rfl rfl
  | retire =>
    rw [run] at h
    split at h
    · split at h
      · exact absurd h (by simp)
      · split at h
        · rename_i hmay
          simp only [Broker.mayRetire, Bool.and_eq_true, beq_iff_eq] at hmay
          refine next_event h (ledger_retireLast hu) (.retire hpost ?_)
          simp [Worker.post, hu, List.dropLast_append_getLast? w hmay.1.2]
        · exact .of_go h rfl rfl
    · exact .of_go h rfl rfl
  | retired =>
    rw [run] at h
    split at h
    · exact .of_go h rfl rfl
    · exact absurd h (by simp)
  | quit =>
    obtain rfl := Option.some.inj h
    exact Event.cast .quit (b.ledger_modifyWorker (fun _ => by rfl) _)
  | settle =>
    refine .of_go h (b.ledger_modifyWorker (fun _ => by rfl) _) ?_
    split <;> rfl
  | _ => rcases hs with hs | hs | hs <;> cases hs

/-- The steps of working on a task. -/
theorem task_event {s : WorkerStep} {t : TaskId} {task : Task}
    (hs : s.phase.task? = some t) (ht : b.tasks[t]? = some task)
    (hm : task.method < b.methods.size) (h : run me ch b w worker unit s = some turn) :
    Event b.ledger (some (.post w s.phase)) (duties turn.next) turn.hired turn.broker.ledger := by
  obtain ⟨m, hm⟩ := Table.exists_getElem? hm
  have hlog {f : Worker → Worker} (hf : ∀ x, (f x).post = x.post) (logged : Bool) :
      (if logged then b.modifyWorker w f else b).ledger = b.ledger := by
    cases logged with
    | false => rfl
    | true => exact b.ledger_modifyWorker hf w
  cases s with
  | leave t =>
    rw [run] at h
    split at h
    · exact .of_go h rfl rfl
    · exact absurd h (by simp)
  | adopt t => exact .of_go h (b.ledger_modifyWorker (fun _ => by rfl) _) rfl
  | take t => exact next_event h (b.ledger_modifyWorker_current _ _) .take
  | consult t =>
    cases hs
    rw [run, ht] at h
    simp only [hm] at h
    exact .of_go h rfl rfl
  | begin c =>
    cases hs
    rw [run, ht] at h
    simp only [hm] at h
    exact .of_go h (hlog (fun _ => by rfl) _) rfl
  | examine c =>
    cases hs
    rw [run, ht] at h
    simp only [hm] at h
    split at h
    · exact next_event h rfl (.judge (.inl rfl))
    · exact .of_go h rfl rfl
  | clear c =>
    rw [run] at h
    split at h
    · rename_i hopen
      refine next_event h rfl (.compile ?_)
      simp only [Broker.accepting, Bool.and_eq_true, Bool.not_eq_true'] at hopen
      exact hopen.2
    · exact .of_go h rfl rfl
  | giveUp c =>
    cases hs
    rw [run, ht] at h
    exact next_event h (b.ledger_modifyMethod_queued _ _) (.giveUp ht)
  | compile c =>
    cases hs
    rw [run, ht] at h
    cases hmove : ch.move with
    | none =>
      rw [hmove] at h
      exact absurd h (by simp)
    | some move =>
      rw [hmove] at h
      exact obey_event h
  | attach c code =>
    cases hs
    rw [run, ht] at h
    obtain rfl := Option.some.inj h
    exact .of_eq (b.ledger_modifyMethod (fun x => x.queued_install _) _) rfl
  | judge c =>
    refine .of_go h rfl ?_
    cases c.report.cacheFull <;> rfl
  | rule f =>
    cases hs
    rw [run, ht] at h
    simp only [hm] at h
    split at h
    · exact .of_go h (b.ledger_modifyMethod (fun x => x.queued_afterFailure _ _ _) _) rfl
    · exact .of_go h (b.ledger_modifyUnit (fun _ => by rfl) (fun _ => by rfl) _) rfl
  | count f =>
    cases hs
    rw [run, ht] at h
    simp only [hm] at h
    exact .of_go h rfl rfl
  | announce f =>
    cases hs
    rw [run, ht] at h
    exact .of_go h rfl rfl
  | close f =>
    cases hs
    rw [run, ht] at h
    simp only [hm] at h
    exact .of_go h (hlog (fun _ => by rfl) _) rfl
  | drop f => exact next_event h (b.ledger_modifyWorker_current _ _) .drop
  | unmark f =>
    cases hs
    rw [run, ht] at h
    exact next_event h (b.ledger_modifyMethod_queued _ _) (.release ht)
  | publish f =>
    obtain rfl := Option.some.inj h
    exact .publish f.result
  | _ => cases hs

/-- What a step of a worker does. -/
theorem event {s : WorkerStep} (hw : b.workers[w]? = some worker)
    (hu : b.units[worker.unit]? = some unit) (hsound : b.ledger.Sound)
    (hready : Duty.Ready b.ledger (.post w s.phase))
    (h : run me ch b w worker unit s = some turn) :
    Event b.ledger (some (.post w s.phase)) (duties turn.next) turn.hired turn.broker.ledger := by
  cases ht : s.phase.task? with
  | some t =>
    obtain ⟨task, htask⟩ := Table.exists_getElem? (hready.2 t ht)
    have hm := hsound.method htask
    rw [Broker.size_claims] at hm
    exact task_event ht htask hm h
  | none =>
    by_cases hpick : s.phase = .pick
    · cases s with
      | choose => exact choose_event hw hu hsound h
      | _ => cases hpick
    · refine idle_event hw hu ?_ h
      cases s <;> first | exact .inl rfl | exact .inr (.inl rfl) | exact .inr (.inr rfl) | skip
      all_goals first | exact absurd rfl hpick | cases ht

end JitBroker.WorkerStep
