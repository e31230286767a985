import JitBroker.Proofs.Books.Accounts
import JitBroker.Proofs.Numbers.Event
import JitBroker.Proofs.Pause.Hush

/-!
# What gets past a pause

A worker that refuses to compile a task, since its method has breakpoints or since jobs are not taken
any more, does not poll the pause gate again before it has posted the event and completed the task.
One that finds obsolete tasks in its queue completes them without polling it either. If every worker
is at ease when a pause begins, nothing else gets past it (`System.paused_of_run`): each event that is
posted is that of a compile which was refused since, and each task that is completed was refused
since, or is stale.
-/

namespace JitBroker

/-! ### Compiles that are refused -/

/-- The task whose event an action is still to post, without another look at the gate. -/
def Action.owes? : Action → Option TaskId
  | .worker _ (.giveUp c) => some c.task
  | .worker _ (.rule f) | .worker _ (.count f) | .worker _ (.announce f) => some f.task
  | _ => none

namespace System

variable {s : System} {m : Move} {ms : List Move} {t : TaskId} {i : ThreadId} {ch : Choices}
  {th : Thread} {a a' : Action} {rest : List Action} {turn : Turn}

/-- A worker is to post the event of a task in its next steps. -/
def Owes (s : System) (t : TaskId) : Prop :=
  ∃ (i : ThreadId) (th : Thread) (a : Action) (rest : List Action),
    s.threads[i]? = some th ∧ th.agenda = a :: rest ∧ a.owes? = some t

theorem Runs.owes_next (h : s.Runs m i ch th a rest turn) (hnext : turn.next = [a'])
    (ha' : a'.owes? = some t) : (s.move m).Owes t :=
  ⟨i, _, a', rest, h.thread_after, by rw [Thread.agenda_after h.agenda, hnext]; rfl, ha'⟩

/-- Who refuses a compile is to post its event. -/
theorem Runs.owes_of_refused (hs : s.Lawful) (h : s.Runs m i ch th a rest turn)
    (ha : a.refused? s.broker = some t) : (s.move m).Owes t := by
  unfold Action.refused? at ha
  split at ha
  · rename_i w c
    split at ha
    · rename_i hstops
      obtain rfl := Option.some.inj ha
      obtain ⟨worker, unit, x, n, hx, hn, hrun⟩ := h.exists_task hs rfl
      rw [Broker.stopsAt, hx, Option.bind_some, hn, Option.map_some, Option.getD_some] at hstops
      simp only [WorkerStep.run, hx, hn, hstops, if_true] at hrun
      exact h.owes_next (by rw [← Option.some.inj hrun]) rfl
    · cases ha
  · rename_i w c
    split at ha
    · cases ha
    · rename_i hnot
      obtain rfl := Option.some.inj ha
      obtain ⟨worker, unit, x, n, hx, hn, hrun⟩ := h.exists_task hs rfl
      rw [WorkerStep.run, if_neg hnot] at hrun
      exact h.owes_next (by rw [← Option.some.inj hrun]) rfl
  · cases ha

/-- Who is to post an event comes nearer to it in each step, and then posts it. -/
theorem Runs.owes (hs : s.Lawful) (h : s.Runs m i ch th a rest turn) (ha : a.owes? = some t) :
    s.announced? m = some t ∨ (s.move m).Owes t := by
  unfold Action.owes? at ha
  split at ha
  · obtain rfl := Option.some.inj ha
    obtain ⟨worker, unit, x, n, hx, hn, hrun⟩ := h.exists_task hs rfl
    simp only [WorkerStep.run, hx] at hrun
    exact .inr (h.owes_next (by rw [← Option.some.inj hrun]) rfl)
  · rename_i w f
    obtain rfl := Option.some.inj ha
    obtain ⟨worker, unit, x, n, hx, hn, hrun⟩ := h.exists_task hs rfl
    simp only [WorkerStep.run, hx, hn] at hrun
    split at hrun <;> exact .inr (h.owes_next (by rw [← Option.some.inj hrun]) rfl)
  · obtain rfl := Option.some.inj ha
    obtain ⟨worker, unit, x, n, hx, hn, hrun⟩ := h.exists_task hs rfl
    simp only [WorkerStep.run, hx, hn] at hrun
    exact .inr (h.owes_next (by rw [← Option.some.inj hrun]) rfl)
  · rename_i w f
    obtain rfl := Option.some.inj ha
    exact .inl (announced_eq_some_iff.2 ⟨w, f, h.ran, rfl⟩)
  · cases ha

/-- A pause does not keep a worker from posting an event of a compile that it has refused. -/
theorem Owes.move (h : s.Owes t) (hs : s.Lawful) (m : Move) :
    s.announced? m = some t ∨ (s.move m).Owes t := by
  obtain ⟨i, th, a, rest, hth, ha, howes⟩ := h
  cases hran : s.ranBy i m with
  | none => exact .inr ⟨i, th, a, rest, thread_of_ranBy hth hran, ha, howes⟩
  | some a' =>
    obtain ⟨ch, rest', turn, hruns⟩ := exists_runs_of_ranBy hran hth
    obtain ⟨rfl, -⟩ := List.cons.inj (ha.symm.trans hruns.agenda)
    exact hruns.owes hs howes

theorem owes_foldl (hs : s.Lawful) (ms : List Move) : ∀ t ∈ s.gather refused? ms,
    t ∈ s.gather announced? ms ∨ (ms.foldl System.move s).Owes t := by
  induction ms using List.reverseRecOn with
  | nil => exact fun t ht => absurd ht List.not_mem_nil
  | append_singleton ms m ih =>
    have hlawful := hs.foldl ms
    rw [List.foldl_concat, gather_concat, gather_concat]
    intro t ht
    rcases List.mem_append.1 ht with ht | ht
    · rcases ih t ht with hdone | howes
      · exact .inl (List.mem_append_left _ hdone)
      · exact (howes.move hlawful m).imp_left fun hnow =>
          List.mem_append_right _ (Option.mem_toList.2 hnow)
    · obtain ⟨a, hran, hrefused⟩ := Option.bind_eq_some_iff.1 (Option.mem_toList.1 ht)
      obtain ⟨i, ch, th, rest, turn, hruns⟩ := exists_runs hran
      exact .inr (hruns.owes_of_refused hlawful hrefused)

/-! ### Every pause -/

/-- The task that is completed in a move, or given back by its worker. -/
def ended? (s : System) (m : Move) : Option TaskId :=
  match s.ran m with
  | some (.task (.complete t _)) | some (.task (.free t .worker)) => some t
  | _ => none

/-- What gets past a pause. -/
structure Paused (s : System) (ms : List Move) (s' : System) : Prop where
  /-- No worker comes past the gate with what its back-end has returned. -/
  judged : ∀ a ∈ s.trace ms, a.judges = false
  /-- Each event that is posted is that of a compile that was refused since the pause began. -/
  announced : ∀ t ∈ s.gather announced? ms, t ∈ s.gather refused? ms
  /-- If none was refused, there are no other events than before. -/
  events : s.gather refused? ms = [] → s'.broker.stats.events = s.broker.stats.events
  /-- Each task that is completed, or given back by its worker, is that of such a compile, or stale. -/
  ended : ∀ t ∈ s.gather ended? ms, t ∈ s.gather refused? ms ∨
    ∃ x, s'.broker.tasks[t]? = some x ∧ x.stale = true
  /-- The event of each such compile is posted, or its worker is to post it in its next steps. -/
  refused : ∀ t ∈ s.gather refused? ms, t ∈ s.gather announced? ms ∨ s'.Owes t

theorem result_of_announced (h : s.announced? m = some t) :
    ∃ a, s.ran m = some a ∧ a.result? = some t := by
  obtain ⟨w, f, hran, rfl⟩ := announced_eq_some_iff.1 h
  exact ⟨_, hran, rfl⟩

/-- A task that is completed as stale is stale. -/
theorem Lawful.stale_of_scrap (hs : s.Lawful) (h : .task (.complete t .stale) ∈ s.pending) :
    ∃ x, s.broker.tasks[t]? = some x ∧ x.stale = true := by
  have hduty : .scrap t ∈ s.duties := mem_duties.2 ⟨_, h, rfl⟩
  obtain ⟨x, hx, -⟩ := hs.ready _ hduty
  refine ⟨x, hx, ?_⟩
  have hscrap := (hs.custody t x hx).scrap
  have hpos : 0 < share s.duties t .scrap := share_pos_iff.2 ⟨_, hduty, Duty.part_eq_scrap.2 rfl⟩
  by_contra hfresh
  rw [Bool.eq_false_of_not_eq_true hfresh] at hscrap
  simp at hscrap
  omega

/-- A move that ends a task has its result, or the task is stale. -/
theorem result_of_ended (hs : s.Lawful) (h : s.ended? m = some t) :
    (∃ a, s.ran m = some a ∧ a.result? = some t) ∨
      ∃ x, s.broker.tasks[t]? = some x ∧ x.stale = true := by
  unfold ended? at h
  split at h
  · rename_i t' who hran
    obtain rfl := Option.some.inj h
    cases who with
    | stale =>
      obtain ⟨i, ch, th, rest, turn, hruns⟩ := exists_runs hran
      exact .inr (hs.stale_of_scrap hruns.mem_pending)
    | _ => exact .inl ⟨_, hran, rfl⟩
  · rename_i t' hran
    obtain rfl := Option.some.inj h
    exact .inl ⟨_, hran, rfl⟩
  · cases h

/-- If no event is posted in a run, there are no other events than before. -/
theorem events_of_announced (hs : s.Lawful) (h : s.gather announced? ms = []) :
    (ms.foldl System.move s).broker.stats.events = s.broker.stats.events := by
  induction ms generalizing s with
  | nil => rfl
  | cons m ms ih =>
    rw [gather, List.append_eq_nil_iff] at h
    rw [List.foldl_cons, ih (hs.move m) h.2]
    rcases events_move hs m with ⟨-, hsame⟩ | ⟨t, x, e, hsome, -⟩
    · exact hsame
    · rw [hsome] at h
      cases h.1

/-- Where each thread is at the gate, or has no result, nothing gets past a pause but what becomes of
compiles that are refused and of tasks that are stale. -/
theorem Paused.of_hushed (hs : s.Lawful) (hgate : s.broker.gate.Consistent) (h : ∀ R, s.Hushed R)
    (hpaused : s.staysPaused ms = true) : Paused s ms (ms.foldl System.move s) := by
  have hannounced : ∀ t ∈ s.gather announced? ms, t ∈ s.gather refused? ms := by
    intro t ht
    obtain ⟨ms₁, m, ms₂, rfl, hsome⟩ := exists_of_mem_gather ht
    obtain ⟨a, hran, hresult⟩ := result_of_announced hsome
    exact (hushed_of_ran hs hgate h hpaused hran).2 t hresult
  refine ⟨fun a ha => ?_, hannounced, fun hnone => events_of_announced hs ?_, fun t ht => ?_,
    owes_foldl hs ms⟩
  · rw [trace_eq_gather] at ha
    obtain ⟨ms₁, m, ms₂, rfl, hran⟩ := exists_of_mem_gather ha
    exact (hushed_of_ran hs hgate h hpaused hran).1
  · exact List.eq_nil_iff_forall_not_mem.2 fun t ht =>
      absurd (hnone ▸ hannounced t ht) List.not_mem_nil
  · obtain ⟨ms₁, m, ms₂, rfl, hsome⟩ := exists_of_mem_gather ht
    have hs₁ := hs.foldl ms₁
    rcases result_of_ended hs₁ hsome with ⟨a, hran, hresult⟩ | ⟨x, hx, hstale⟩
    · exact .inl ((hushed_of_ran hs hgate h hpaused hran).2 t hresult)
    · obtain ⟨x', hx', hev⟩ := (hs₁.extends_foldl (m :: ms₂)).task hx
      rw [List.foldl_append]
      exact .inr ⟨x', hx', hev.stale hstale⟩

/-- In every run, if every worker is at ease when a pause begins, nothing gets past the pause but
what becomes of compiles that are refused and of tasks that are stale. -/
theorem paused_of_run {b : Broker} {config : Config} {parts : Broker.Parts}
    (hb : Broker.assemble config parts = .ok b) (past ms : List Move)
    (hease : (past.foldl move (launch b)).AtEase)
    (hpaused : ((past.foldl move (launch b)).move (.operate .pause)).staysPaused ms = true) :
    Paused ((past.foldl move (launch b)).move (.operate .pause)) ms
      (ms.foldl move ((past.foldl move (launch b)).move (.operate .pause))) := by
  have hfresh := Broker.fresh_assemble hb
  have hgate : (launch b).broker.gate.Consistent := by
    obtain ⟨units, -, rfl⟩ := Broker.exists_of_assemble hb
    rfl
  have hr : Reachable (launch b) (past.foldl move (launch b)) := reachable_iff_foldl.2 ⟨past, rfl⟩
  have hs := hr.lawful hfresh
  have hconsistent := consistent_foldl (lawful_launch hfresh) hgate past
  -- A pause changes no thread.
  have hhushed (R : TaskId → Prop) :
      ((past.foldl move (launch b)).move (.operate .pause)).Hushed R :=
    hease.hushed (hr.ordered hfresh) (hr.rounded hfresh)
  exact .of_hushed (hs.move _) (consistent_move hs hconsistent _) hhushed hpaused

/-! ### A pause of the small broker -/

/-- The worker of the small broker has gone to sleep. -/
def soloAsleep : List Move := soloStart ++ times 1 9

/-- A pause of the small broker while its worker sleeps. -/
def soloPaused : System := (soloAsleep.foldl move (launch .solo)).move (.operate .pause)

/-- A method is requested, and the back-end returns. -/
def soloReturn : List Move :=
  soloRequest 2 0 ++ times 1 11 ++ [.step 1 { move := some .finish }] ++ times 1 20

/-- A method gets breakpoints and is requested, and the worker refuses to compile it. -/
def soloRefusal : List Move :=
  .operate (.breakpoints 0 true) :: soloRequest 2 0 ++ times 1 30

/-- There the worker parks with the result of its back-end, but posts the event of a compile that it
has refused. -/
theorem paused_of_soloPaused :
    Paused soloPaused soloReturn (soloReturn.foldl move soloPaused) ∧
      (soloReturn.foldl move soloPaused).broker.gate.parked = 1 ∧
      (soloReturn.foldl move soloPaused).broker.stats.events.size = 0 ∧
    Paused soloPaused soloRefusal (soloRefusal.foldl move soloPaused) ∧
      soloPaused.gather refused? soloRefusal = [0] ∧
      (soloRefusal.foldl move soloPaused).broker.stats.events.size = 1 := by
  have hease : (soloAsleep.foldl move (launch .solo)).AtEase := by decide +kernel
  exact ⟨paused_of_run Broker.assemble_solo soloAsleep soloReturn hease (by decide +kernel),
    by decide +kernel, by decide +kernel,
    paused_of_run Broker.assemble_solo soloAsleep soloRefusal hease (by decide +kernel),
    by decide +kernel, by decide +kernel⟩

end System

end JitBroker
