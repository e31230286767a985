import JitBroker.Proofs.Numbers.Bearer
import JitBroker.Proofs.Shutdown.Hold

/-!
# The numbers of events

A worker posts the event of a task near the end of its work on it, and what is left to do then only
leads to the completion of the task. So no event is posted twice for a task
(`System.announced_nodup`), and the events that were posted tell of different tasks
(`System.tells_announced`).
-/

namespace JitBroker

/-- The number that an event tells. -/
def Broker.numberOf (b : Broker) (e : CompileEvent) : Number := (b.kindOf e.method e.osr, e.compileId)

/-- An event tells of a task. -/
structure CompileEvent.Tells (e : CompileEvent) (x : Task) : Prop where
  /-- It has the number of the task. -/
  compileId : e.compileId = x.compileId
  /-- And its method. -/
  method : e.method = x.method
  /-- And its kind of entry. -/
  osr : e.osr = x.isOsr

/-- Whether a worker has posted the event of a task, and is to complete the task. -/
def Action.reports (t : TaskId) : Action → Bool
  | .worker _ (.close f) | .worker _ (.drop f) | .worker _ (.unmark f) | .worker _ (.publish f) =>
    f.task == t
  | .task (.complete t' .worker) => t' == t
  | _ => false

theorem Action.serves_of_reports {a : Action} {t : TaskId} (h : a.reports t = true) :
    a.serves t = true := by
  unfold reports at h
  split at h
  all_goals first
    | cases h
    | (obtain rfl := beq_iff_eq.1 h
       simp [serves, Duty.serves, duty?, WorkerStep.phase, TaskStep.duty?, Duty.part?, Phase.task?])

namespace System

variable {s first : System} {m : Move} {ms : List Move} {i : ThreadId} {ch : Choices} {th : Thread}
  {a : Action} {rest : List Action} {turn : Turn} {t : TaskId}

/-- The task whose event a move posts. -/
def announced? (s : System) (m : Move) : Option TaskId :=
  match s.ran m with
  | some (.worker _ (.announce f)) => some f.task
  | _ => none

/-- The event of a task is posted: the task is complete, or a worker is to complete it. -/
def Reported (s : System) (t : TaskId) : Prop :=
  (∃ x, s.broker.tasks[t]? = some x ∧ x.complete = true) ∨ ∃ a ∈ s.pending, a.reports t = true

/-- What a worker is at with a task finds the task and its method. -/
theorem Runs.exists_task {w : WorkerId} {st : WorkerStep} (hs : s.Lawful)
    (h : s.Runs m i ch th (.worker w st) rest turn) (ht : st.phase.task? = some t) :
    ∃ worker unit x n, s.broker.tasks[t]? = some x ∧ s.broker.methods[x.method]? = some n ∧
      st.run (th.caller i) ch s.broker w worker unit = some turn := by
  have hknown := hs.known _ (mem_duties.2 ⟨_, h.mem_pending, rfl⟩)
  obtain ⟨worker, unit, -, -, hrun⟩ := Action.worker_run hs.sound hknown.1 h.run
  obtain ⟨x, hx⟩ := Table.exists_getElem? (hknown.2 t ht)
  obtain ⟨n, hn⟩ := hs.sound.exists_method hx
  exact ⟨worker, unit, x, n, hx, hn, hrun⟩

/-- A worker that has posted the event of a task goes on to complete it. -/
theorem Runs.reported (hs : s.Lawful) (h : s.Runs m i ch th a rest turn) (ha : a.reports t = true) :
    (s.move m).Reported t := by
  have next {a' : Action} (ha' : a' ∈ turn.next) (hreports : a'.reports t = true) :
      (s.move m).Reported t := by
    rw [h.turned]
    exact .inr ⟨a', mem_turned_of_next h.thread ha', hreports⟩
  cases a with
  | worker w st =>
    cases st with
    | close f | drop f | unmark f | publish f =>
      obtain ⟨worker, unit, x, n, hx, hn, hrun⟩ := h.exists_task hs rfl
      simp only [WorkerStep.run, hx, hn] at hrun
      obtain rfl := Option.some.inj hrun
      exact next List.mem_cons_self ha
    | _ => cases ha
  | task st =>
    cases st with
    | complete t' who =>
      cases who with
      | worker =>
        obtain rfl := beq_iff_eq.1 ha
        obtain ⟨x, hx, hopen⟩ := hs.ready (.finish t') (mem_duties.2 ⟨_, h.mem_pending, rfl⟩)
        have hrun := h.run
        rw [Action.run, TaskStep.run, show s.broker.tasks[t']? = some x from hx] at hrun
        simp only [hopen, Bool.false_eq_true, if_false] at hrun
        left
        rw [h.turned, broker_turned]
        split at hrun <;> obtain rfl := Option.some.inj hrun <;>
          exact ⟨_, Table.getElem?_modify_self hx _, rfl⟩
      | _ => cases ha
    | _ => cases ha
  | _ => cases ha

/-- The event of a task stays posted. -/
theorem Reported.move (h : s.Reported t) (hs : s.Lawful) (m : Move) : (s.move m).Reported t := by
  rcases h with ⟨x, hx, hcomplete⟩ | ⟨a, ha, hreports⟩
  · obtain ⟨x', hx', hev⟩ := (hs.extends_move m).task hx
    exact .inl ⟨x', hx', hev.complete hcomplete⟩
  · obtain ⟨others, new, -, hpending, hmove⟩ := s.exists_pending_move m
    rcases Multiset.mem_add.1 (hpending ▸ ha) with hother | hran
    · exact .inr ⟨a, hmove ▸ Multiset.mem_add.2 (.inl hother), hreports⟩
    · obtain ⟨i, ch, th, rest, turn, hruns⟩ := exists_runs (Option.mem_toList.1 hran)
      exact hruns.reported hs hreports

theorem announced_eq_some_iff :
    s.announced? m = some t ↔ ∃ w f, s.ran m = some (.worker w (.announce f)) ∧ f.task = t := by
  unfold announced?
  split
  · rename_i w f hran
    simp [hran]
  · rename_i hnot
    exact ⟨nofun, fun ⟨w, f, hran, _⟩ => absurd hran (hnot w f)⟩

theorem announced_eq_none (h : ∀ w f, s.ran m ≠ some (.worker w (.announce f))) :
    s.announced? m = none := by
  unfold announced?
  split
  · exact absurd ‹_› (h _ _)
  · rfl

/-- What a worker does that posts an event. -/
theorem Runs.announce {w : WorkerId} {f : Finished} (hs : s.Lawful)
    (h : s.Runs m i ch th (.worker w (.announce f)) rest turn) :
    ∃ x, s.broker.tasks[f.task]? = some x ∧ turn = {
      broker := { s.broker with stats := s.broker.stats.post (.of x f.result) }
      next := [.worker w (.close f)] } := by
  obtain ⟨worker, unit, x, n, hx, hn, hrun⟩ := h.exists_task hs rfl
  simp only [WorkerStep.run, hx] at hrun
  exact ⟨x, hx, (Option.some.inj hrun).symm⟩

/-- The event of a task is posted by a worker that has not posted it before. -/
theorem not_reported_of_announced (hs : s.Lawful) (h : s.announced? m = some t) : ¬ s.Reported t := by
  obtain ⟨w, f, hran, rfl⟩ := announced_eq_some_iff.1 h
  obtain ⟨i, ch, th, rest, turn, hruns⟩ := exists_runs hran
  have hserves : (Action.worker w (.announce f)).serves f.task = true := by
    simp [Action.serves, Duty.serves, Action.duty?, WorkerStep.phase, Duty.part?, Phase.task?]
  rintro (⟨x, hx, hcomplete⟩ | ⟨a, ha, hreports⟩)
  · have hwork : 0 < share s.duties f.task .work :=
      share_pos_iff.2 ⟨_, mem_duties.2 ⟨_, hruns.mem_pending, rfl⟩, by
        simp [WorkerStep.phase, Duty.part?, Phase.task?]⟩
    have hkeeper := (hs.custody f.task x hx).keeper
    rw [hcomplete, Bool.true_or, if_pos rfl] at hkeeper
    omega
  · have hsplit := pending_park hruns.thread (show th.agenda = [_] ++ rest from hruns.agenda)
    rw [hsplit, Multiset.coe_singleton, Multiset.singleton_add, Multiset.mem_cons] at ha
    rcases ha with rfl | ha
    · cases hreports
    · have hnot := hs.serves_unique hruns.thread hruns.agenda hserves a ha
      rw [Action.serves_of_reports hreports] at hnot
      cases hnot

theorem reported_of_announced (hs : s.Lawful) (h : s.announced? m = some t) :
    (s.move m).Reported t := by
  obtain ⟨w, f, hran, rfl⟩ := announced_eq_some_iff.1 h
  obtain ⟨i, ch, th, rest, turn, hruns⟩ := exists_runs hran
  obtain ⟨x, -, rfl⟩ := hruns.announce hs
  rw [hruns.turned]
  exact .inr ⟨_, mem_turned_of_next hruns.thread List.mem_cons_self, beq_iff_eq.2 rfl⟩

/-- No event is posted twice for a task. -/
theorem announced_nodup (hs : first.Lawful) (ms : List Move) :
    (first.gather announced? ms).Nodup ∧
      ∀ t ∈ first.gather announced? ms, (ms.foldl move first).Reported t := by
  induction ms using List.reverseRecOn with
  | nil => exact ⟨List.nodup_nil, fun t ht => absurd ht List.not_mem_nil⟩
  | append_singleton ms m ih =>
    obtain ⟨hnodup, hreported⟩ := ih
    have hlawful := hs.foldl ms
    have hone : ((ms.foldl move first).announced? m).toList.Nodup := by
      cases (ms.foldl move first).announced? m <;> simp
    rw [gather_concat, List.foldl_concat]
    refine ⟨List.nodup_append.2 ⟨hnodup, hone, ?_⟩, fun t ht => ?_⟩
    · rintro t ht t' ht' rfl
      exact not_reported_of_announced hlawful (Option.mem_toList.1 ht') (hreported t ht)
    · rcases List.mem_append.1 ht with ht | ht
      · exact (hreported t ht).move hlawful m
      · exact reported_of_announced hlawful (Option.mem_toList.1 ht)

/-! ### Events and tasks -/

/-- An event is posted for the task that is announced, and no other one. -/
theorem events_move (hs : s.Lawful) (m : Move) :
    (s.announced? m = none ∧ (s.move m).broker.stats.events = s.broker.stats.events) ∨
      ∃ t x e, s.announced? m = some t ∧ s.broker.tasks[t]? = some x ∧ e.Tells x ∧
        (s.move m).broker.stats.events = s.broker.stats.events.add e := by
  rcases s.move_cases hs m with ⟨o, ho, hb⟩ | ⟨hop, ⟨hran, hb⟩ | ⟨i, ch, th, a, rest, turn, h⟩⟩
  · refine .inl ⟨announced_eq_none fun w f hran => ?_, ?_⟩
    · obtain ⟨i, ch, th, rest, turn, h⟩ := exists_runs hran
      rw [h.move, operation?, ← h.move, hran] at ho
      cases ho
    · rw [hb, (s.broker.operate_operated o).events]
  · exact .inl ⟨by rw [announced?, hran], by rw [hb]⟩
  · by_cases hannounce : ∃ w f, a = .worker w (.announce f)
    · obtain ⟨w, f, rfl⟩ := hannounce
      obtain ⟨x, hx, rfl⟩ := h.announce hs
      exact .inr ⟨f.task, x, _, announced_eq_some_iff.2 ⟨w, f, h.ran, rfl⟩, hx, ⟨rfl, rfl, rfl⟩,
        by rw [h.turned]; rfl⟩
    · refine .inl ⟨announced_eq_none fun w f hran => ?_, ?_⟩
      · exact hannounce ⟨w, f, Option.some.inj (h.ran.symm.trans hran)⟩
      rw [h.turned, broker_turned]
      cases Action.refits h.run with
      | keeps hfit => exact hfit.events
      | announce => exact absurd ⟨_, _, rfl⟩ hannounce
      | operate ho => exact absurd ho (h.not_operate hop)
      | _ => rfl

/-- An event tells of the task it was posted for. -/
def TellsOf (s : System) (e : CompileEvent) (t : TaskId) : Prop :=
  ∃ x, s.broker.tasks[t]? = some x ∧ e.Tells x

theorem TellsOf.move {e : CompileEvent} (h : s.TellsOf e t) (hs : s.Lawful) (m : Move) :
    (s.move m).TellsOf e t := by
  obtain ⟨x, hx, hcompileId, hmethod, hosr⟩ := h
  obtain ⟨x', hx', hev⟩ := (hs.extends_move m).task hx
  refine ⟨x', hx', hcompileId.trans hev.compileId.symm, hmethod.trans hev.method.symm, ?_⟩
  rw [hosr, Task.isOsr, Task.isOsr, hev.entryBci]

/-- Each event tells of the task it was posted for, in order. -/
theorem tells_announced (hs : first.Lawful) (hevents : first.broker.stats.events = .empty)
    (ms : List Move) :
    List.Forall₂ (ms.foldl move first).TellsOf (ms.foldl move first).broker.stats.events.toList
      (first.gather announced? ms) := by
  induction ms using List.reverseRecOn with
  | nil =>
    rw [List.foldl_nil, hevents]
    exact .nil
  | append_singleton ms m ih =>
    have hlawful := hs.foldl ms
    have hmove := ih.imp fun e t h => TellsOf.move h hlawful m
    rw [gather_concat, List.foldl_concat]
    rcases events_move hlawful m with ⟨hnone, hsame⟩ | ⟨t, x, e, hsome, hx, htells, hadd⟩
    · rw [hnone, hsame, Option.toList_none, List.append_nil]
      exact hmove
    · rw [hsome, hadd, Table.toList_add, Option.toList_some]
      exact List.rel_append hmove (.cons (TellsOf.move ⟨x, hx, htells⟩ hlawful m) .nil)

/-- So the numbers of events are those of the tasks they were posted for. -/
theorem TellsOf.number {e : CompileEvent} (h : s.TellsOf e t) :
    s.taskNumbers[t]? = some (s.broker.numberOf e) := by
  obtain ⟨x, hx, hcompileId, hmethod, hosr⟩ := h
  rw [taskNumbers, List.getElem?_map, Table.toList_getElem?, hx, Option.map_some, Broker.number,
    Broker.numberOf, hcompileId, hmethod, hosr]

/-- If no two tasks have the same number, no two events tell the same. -/
theorem numberOf_nodup {es : List CompileEvent} {ts : List TaskId} (h : List.Forall₂ s.TellsOf es ts)
    (hts : ts.Nodup) (hnumbers : s.taskNumbers.Nodup) : (es.map s.broker.numberOf).Nodup := by
  have hmap : (es.map s.broker.numberOf).map some = ts.map fun t => s.taskNumbers[t]? := by
    induction h with
    | nil => rfl
    | cons htells _ ih =>
      rw [List.map_cons, List.map_cons, List.map_cons, htells.number, ih (List.nodup_cons.1 hts).2]
  refine List.Nodup.of_map some ?_
  rw [hmap]
  refine hts.map_on fun t ht t' _ heq => ?_
  have hmem : s.taskNumbers[t]? ∈ (es.map s.broker.numberOf).map some :=
    hmap ▸ List.mem_map_of_mem ht
  obtain ⟨n, -, hn⟩ := List.mem_map.1 hmem
  exact (List.getElem?_inj (List.getElem?_eq_some_iff.1 hn.symm).1 hnumbers).1 heq

end System

end JitBroker
