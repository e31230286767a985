import Mathlib.Data.List.Induction
import JitBroker.Proofs.Code.Verdict
import JitBroker.Proofs.Ledger.Tiers
import JitBroker.Proofs.Marks.Bans
import JitBroker.Proofs.Pause.Results
import JitBroker.Proofs.Rest.Start

/-!
# What the end of a task rules out

A task that has come to its worker ends in one of three ways: the back-end has returned, and its
reports are judged; or the method has breakpoints, or jobs are no longer taken, and the back-end is
not called (`WorkerStep.Over`). From there the worker goes straight to the point where it publishes
the result, and no other way leads to this point (`System.ended_of_ends`). On this way it has just
the ban that the scope of the failure says, whatever other threads do meanwhile
(`System.AtEnd.ruling`): of the tier of the task, for its kind of entry, if the method cannot be
compiled at this tier; of all tiers of the method, if it can never be compiled; and none in all
other cases.
-/

namespace JitBroker

/-! ### The end of a task -/

/-- A worker is to end a task, with the scope of the failure, if there is one with a scope. -/
inductive WorkerStep.Over : WorkerStep → TaskId → Option FailureScope → Prop where
  /-- The back-end has returned. -/
  | returned (c : CompileRun) : Over (.judge c) c.task c.report.scope
  /-- The method has breakpoints. -/
  | broken (c : CompileRun) : Over (.rule (c.refuse .breakpoints)) c.task none
  /-- Jobs are no longer taken. -/
  | stopped (c : CompileRun) : Over (.giveUp c) c.task none

/-- How far a worker has come that is to end a task with a scope: whether it has had its ban. -/
def WorkerStep.Ends (t : TaskId) (scope : Option FailureScope) (ruled : Bool) : WorkerStep → Prop
  | .judge c => c.task = t ∧ c.report.scope = scope ∧ ruled = false
  | .giveUp c => c.task = t ∧ none = scope ∧ ruled = false
  | .rule f => f.task = t ∧ f.scope = scope ∧ (f.scope.isSome → f.result.failure.isSome) ∧
    ruled = false
  | .count f | .announce f | .close f | .drop f | .unmark f | .publish f =>
    f.task = t ∧ f.scope = scope ∧ ruled = true
  | _ => False

/-- The ban that is still to come. -/
def Task.owed (task : Task) (scope : Option FailureScope) (ruled : Bool) : List Ban :=
  if ruled then [] else (task.ban? scope).toList

/-- What a failure says about later compiles of a task does not depend on when it is asked. -/
theorem Task.Evolves.ban {task x : Task} (h : task.Evolves x) (scope : Option FailureScope) :
    x.ban? scope = task.ban? scope := by
  unfold Task.ban? Task.isOsr
  rw [h.method, h.entryBci, h.tier]

/-- The task whose end a worker is at, and the scope of the failure. -/
def WorkerStep.outcome? : WorkerStep → Option (TaskId × Option FailureScope)
  | .judge c => some (c.task, c.report.scope)
  | .giveUp c => some (c.task, none)
  | .rule f | .count f | .announce f | .close f | .drop f | .unmark f | .publish f =>
    some (f.task, f.scope)
  | _ => none

namespace WorkerStep

variable {me : Caller} {ch : Choices} {b : Broker} {turn : Turn} {w : WorkerId} {worker : Worker}
  {unit : TierUnit} {s : WorkerStep} {t : TaskId} {scope : Option FailureScope} {ruled : Bool}
  {task x : Task} {m : Method}

/-- A worker that is to end a task has it. -/
theorem Over.phase (h : s.Over t scope) : s.phase.task? = some t := by
  cases h <;> rfl

theorem Over.ends (h : s.Over t scope) : s.Ends t scope false := by
  cases h with
  | returned c => exact ⟨rfl, rfl, rfl⟩
  | broken c => exact ⟨rfl, rfl, nofun, rfl⟩
  | stopped c => exact ⟨rfl, rfl, rfl⟩

/-- A failure that has a scope is a failure. -/
theorem failure_of_scope (c : CompileRun) (h : c.finished.scope.isSome) :
    c.finished.result.failure.isSome := by
  rw [CompileRun.finished, CompileReport.scope, Option.isSome_map] at h
  obtain ⟨⟨reason, scope⟩, hfailure⟩ := Option.isSome_iff_exists.1 h
  simp [CompileRun.finished, CompileReport.result, CompileReport.verdict, hfailure]

/-- What a step leads to that ends a task: the next such step, after steps that do nothing for the
task, and together with its ban less is owed. -/
structure EndsOn (b : Broker) (ch : Choices) (task : Task) (t : TaskId) (scope : Option FailureScope)
    (w : WorkerId) (ruled : Bool) (s : WorkerStep) (turn : Turn) : Prop where
  /-- The next step, and whether the ban was had then. -/
  next : ∃ pre s' ruled', turn.next = pre ++ [.worker w s'] ∧ pre.all Action.aside = true ∧
    s'.Ends t scope ruled' ∧
    ((Action.worker w s).ban? b ch).toList ++ task.owed scope ruled' = task.owed scope ruled

/-- A step that has no ban. -/
theorem EndsOn.of_some {turn' : Turn} {s' : WorkerStep} (pre : List Action)
    (h : some turn' = some turn) (hnext : turn'.next = pre ++ [.worker w s'])
    (hpre : pre.all Action.aside = true) (hs' : s'.Ends t scope ruled)
    (hban : (Action.worker w s).ban? b ch = none) : EndsOn b ch task t scope w ruled s turn := by
  obtain rfl := Option.some.inj h
  exact ⟨pre, s', ruled, hnext, hpre, hs', by rw [hban]; rfl⟩

/-- Every step that ends a task leads on, until the result is published. -/
theorem run_endsOn (ht : b.tasks[t]? = some x) (hx : task.Evolves x)
    (hm : b.methods[task.method]? = some m) (hends : s.Ends t scope ruled)
    (hpub : s.publishes = false) (h : s.run me ch b w worker unit = some turn) :
    EndsOn b ch task t scope w ruled s turn := by
  have hm : b.methods[x.method]? = some m := hx.method ▸ hm
  cases s with
  | judge c =>
    obtain ⟨rfl, rfl, rfl⟩ := hends
    refine .of_some _ h rfl ?_ ⟨rfl, rfl, failure_of_scope c, rfl⟩ rfl
    cases c.report.cacheFull <;> rfl
  | giveUp c =>
    obtain ⟨rfl, rfl, rfl⟩ := hends
    rw [run, ht] at h
    exact .of_some [] h rfl rfl ⟨rfl, rfl, (fun hsome => by cases hsome), rfl⟩ rfl
  | rule f =>
    obtain ⟨rfl, rfl, hfailure, rfl⟩ := hends
    rw [run, ht] at h
    simp only [hm] at h
    have howed : ((Action.worker w (.rule f)).ban? b ch).toList ++ task.owed f.scope true =
        task.owed f.scope false := by
      rw [Action.ban?, Finished.ban?, ht, Option.bind_some, hx.ban]
      by_cases hsome : f.result.failure.isSome
      · simp [hsome, Task.owed]
      · cases hscope : f.scope with
        | none => simp [Task.owed, Task.ban?]
        | some scope => exact absurd (hfailure (by rw [hscope]; rfl)) hsome
    split at h
    all_goals
      obtain rfl := Option.some.inj h
      exact ⟨[], _, true, rfl, rfl, ⟨rfl, rfl, rfl⟩, howed⟩
  | count f =>
    rw [run] at h
    obtain ⟨rfl, -⟩ := id hends
    rw [ht] at h
    simp only [hm] at h
    exact .of_some [] h rfl rfl hends rfl
  | announce f =>
    rw [run] at h
    obtain ⟨rfl, -⟩ := id hends
    rw [ht] at h
    exact .of_some [] h rfl rfl hends rfl
  | close f =>
    rw [run] at h
    obtain ⟨rfl, -⟩ := id hends
    rw [ht] at h
    simp only [hm] at h
    exact .of_some [] h rfl rfl hends rfl
  | drop f => exact .of_some [] h rfl rfl hends rfl
  | unmark f =>
    rw [run] at h
    obtain ⟨rfl, -⟩ := id hends
    rw [ht] at h
    exact .of_some [] h rfl rfl hends rfl
  | publish f => cases hpub
  | _ => exact hends.elim

/-- Who comes to the end of a task was at it before, or is to end the task now. -/
theorem over_of_next (h : s.run me ch b w worker unit = some turn) {w' : WorkerId} {s' : WorkerStep}
    (hs' : .worker w' s' ∈ turn.next) (hout : s'.outcome? = some (t, scope)) :
    s'.Over t scope ∨ (s.publishes = false ∧ s.outcome? = some (t, scope)) := by
  rcases hands h with ⟨c, rfl, hreturns⟩ | hhands
  · rw [hreturns] at hs'
    obtain ⟨-, rfl⟩ : w' = w ∧ s' = .judge c := by simpa using hs'
    obtain ⟨rfl, rfl⟩ := Prod.mk.inj (Option.some.inj hout)
    exact .inl (.returned c)
  have hresult : (Action.worker w' s').result? = some t := by
    cases s' <;> exact congrArg (Option.map Prod.fst) hout
  obtain ⟨-, hkept⟩ := hhands _ hs'
  rcases hkept t hresult with hold | hrefused
  · right
    cases s with
    | judge c =>
      obtain rfl := Option.some.inj h
      rcases List.mem_append.1 hs' with hs' | hs'
      · obtain ⟨kind, -, heq⟩ := List.mem_map.1 hs'
        cases heq
      · obtain ⟨-, rfl⟩ := Action.worker.inj (List.mem_singleton.1 hs')
        exact ⟨rfl, hout⟩
    | publish f =>
      obtain rfl := Option.some.inj h
      rcases List.mem_pair.1 hs' with heq | heq <;> cases heq
      cases hout
    | giveUp _ | rule _ | count _ | announce _ | close _ | drop _ | unmark _ =>
      rw [run] at h
      (try simp only at h)
      repeat' split at h
      all_goals
        obtain rfl := Option.some.inj h
        first
          | cases List.mem_singleton.1 hs'
            exact ⟨rfl, hout⟩
          | cases List.mem_singleton.1 hs'
    | _ => cases hold
  · left
    cases s with
    | examine c =>
      rw [run] at h
      repeat' split at h
      all_goals
        obtain rfl := Option.some.inj h
        cases List.mem_singleton.1 hs'
      · obtain ⟨rfl, rfl⟩ := Prod.mk.inj (Option.some.inj hout)
        exact .broken c
      · cases hout
    | clear c =>
      rw [run] at h
      split at h
      all_goals
        obtain rfl := Option.some.inj h
        cases List.mem_singleton.1 hs'
      · cases hout
      · obtain ⟨rfl, rfl⟩ := Prod.mk.inj (Option.some.inj hout)
        exact .stopped c
    | _ => cases hrefused

end WorkerStep

/-- What has nothing to do with code has no ban. -/
theorem Action.ban_of_aside {a : Action} (h : a.aside = true) (b : Broker) (ch : Choices) :
    a.ban? b ch = none := by
  cases a with
  | request s | worker w s => cases h
  | _ => rfl

namespace System

variable {s : System} {i : ThreadId} {t : TaskId} {task : Task} {scope : Option FailureScope}
  {ruled : Bool} {m : Move} {f : Finished}

/-- The ban of a move, if it is one of a thread. -/
def banBy? (i : ThreadId) (s : System) (m : Move) : Option Ban :=
  (s.ranBy i m).bind fun _ => s.ban? m

/-- How far a thread has come that is to end a task. -/
structure Concluding (s : System) (i : ThreadId) (t : TaskId) (task : Task)
    (scope : Option FailureScope) (ruled : Bool) : Prop where
  /-- The task is the one that it was. -/
  evolves : ∃ x, s.broker.tasks[t]? = some x ∧ task.Evolves x
  /-- The thread is to take the next step, beside which it may do other things first. -/
  step : ∃ th pre w x rest, s.threads[i]? = some th ∧ th.agenda = pre ++ .worker w x :: rest ∧
    pre.all Action.aside = true ∧ x.Ends t scope ruled

namespace Concluding

/-- The task stays the one that it was. -/
theorem evolves_move (h : s.Concluding i t task scope ruled) (hs : s.Lawful) (m : Move) :
    ∃ x, (s.move m).broker.tasks[t]? = some x ∧ task.Evolves x := by
  obtain ⟨y, hy, hev⟩ := h.evolves
  obtain ⟨x, hx, hevolves⟩ := (hs.extends_move m).task hy
  exact ⟨x, hx, hev.trans hevolves⟩

/-- A move has the ban that is owed, or none, and leads on to the end. -/
theorem move (h : s.Concluding i t task scope ruled) (hs : s.Lawful) (m : Move)
    (hpub : ∀ a ∈ s.ranBy i m, a.publishes = false) :
    ∃ ruled', (s.move m).Concluding i t task scope ruled' ∧
      (s.banBy? i m).toList ++ task.owed scope ruled' = task.owed scope ruled := by
  have hevolves := h.evolves_move hs m
  obtain ⟨th, pre, w, x, rest, hth, ha, hpre, hends⟩ := h.step
  cases hran : s.ranBy i m with
  | none =>
    refine ⟨ruled, ⟨hevolves, th, pre, w, x, rest, thread_of_ranBy hth hran, ha, hpre, hends⟩, ?_⟩
    rw [banBy?, hran]
    rfl
  | some a =>
    obtain ⟨ch, rest', turn, hruns⟩ := exists_runs_of_ranBy hran hth
    have hafter : (th.after turn).agenda = turn.next ++ rest' := by
      simp [Thread.after, hruns.agenda]
    have hban : s.banBy? i m = a.ban? s.broker ch := by
      rw [banBy?, hran, Option.bind_some]
      have hmove := hruns.move
      subst hmove
      rw [ban?, hruns.ran, Option.bind_some]
    rw [hban]
    cases pre with
    | cons a' pre =>
      rw [List.cons_append] at ha
      obtain ⟨rfl, rfl⟩ := List.cons.inj (hruns.agenda.symm.trans ha)
      rw [List.all_cons, Bool.and_eq_true] at hpre
      have hnext := (Action.run_aside hpre.1 hruns.run).next
      refine ⟨ruled, ⟨hevolves, _, turn.next ++ pre, w, x, rest, hruns.thread_after, ?_, ?_, hends⟩, ?_⟩
      · rw [hafter, List.append_assoc]
      · rw [List.all_append, hnext, hpre.2]
        rfl
      · rw [Action.ban_of_aside hpre.1]
        rfl
    | nil =>
      rw [List.nil_append] at ha
      obtain ⟨rfl, rfl⟩ := List.cons.inj (hruns.agenda.symm.trans ha)
      obtain ⟨y, hy, hev⟩ := h.evolves
      obtain ⟨m', hm'⟩ := hs.sound.exists_method hy
      rw [hev.method] at hm'
      have hready := hs.ready _ (mem_duties.2 ⟨_, hruns.mem_pending, rfl⟩)
      obtain ⟨worker, unit, -, -, hwork⟩ := Action.worker_run hs.sound hready.1 hruns.run
      obtain ⟨pre', x', ruled', hnext, hpre', hends', howed⟩ :=
        (WorkerStep.run_endsOn hy hev hm' hends (hpub _ hran) hwork).next
      refine ⟨ruled', ⟨hevolves, _, pre', w, x', rest', hruns.thread_after, ?_, hpre', hends'⟩, howed⟩
      rw [hafter, hnext, List.append_assoc]
      rfl

/-- So does every run in which the thread does not publish a result. -/
theorem foldl (h : s.Concluding i t task scope ruled) (hs : s.Lawful) {ms : List Move}
    (hpub : ∀ a ∈ s.gather (ranBy i) ms, a.publishes = false) :
    ∃ ruled', (ms.foldl System.move s).Concluding i t task scope ruled' ∧
      s.gather (banBy? i) ms ++ task.owed scope ruled' = task.owed scope ruled := by
  induction ms generalizing s ruled with
  | nil => exact ⟨ruled, h, rfl⟩
  | cons m ms ih =>
    rw [gather, List.forall_mem_append] at hpub
    obtain ⟨ruled₁, h₁, howed₁⟩ := h.move hs m fun a ha => hpub.1 a (Option.mem_toList.2 ha)
    obtain ⟨ruled₂, h₂, howed₂⟩ := ih h₁ (hs.move m) hpub.2
    refine ⟨ruled₂, h₂, ?_⟩
    rw [gather, List.append_assoc, howed₂, howed₁]

/-- Where the result is to be published, nothing is owed any more. -/
theorem ruled_of_ends (h : s.Concluding i t task scope ruled) (hend : s.ends i = some f) :
    f.task = t ∧ f.scope = scope ∧ ruled = true := by
  rw [ends] at hend
  split at hend
  · rename_i w f' hnext
    obtain rfl := Option.some.inj hend
    obtain ⟨th', hth', hhead⟩ := Option.bind_eq_some_iff.1 hnext
    obtain ⟨th, pre, w', x, rest, hth, ha, hpre, hends⟩ := h.step
    obtain rfl := Option.some.inj (hth.symm.trans hth')
    cases pre with
    | cons a pre =>
      rw [ha, List.cons_append, List.head?_cons] at hhead
      obtain rfl := Option.some.inj hhead
      rw [List.all_cons] at hpre
      cases hpre
    | nil =>
      rw [ha, List.nil_append, List.head?_cons] at hhead
      cases hhead
      exact hends
  · cases hend

end Concluding

/-- Where a thread makes all the moves, all bans are its own. -/
theorem gather_banBy {ms : List Move} (h : ∀ m ∈ ms, ∃ ch, m = .step i ch) :
    s.gather (banBy? i) ms = s.gather ban? ms := by
  induction ms generalizing s with
  | nil => rfl
  | cons m ms ih =>
    obtain ⟨ch, rfl⟩ := h m List.mem_cons_self
    rw [gather, gather, ih fun m hm => h m (List.mem_cons_of_mem _ hm)]
    congr 1
    rw [banBy?, ranBy, if_pos rfl, ban?]
    cases s.ran (.step i ch) <;> rfl

/-- The bans of a thread are among those of all. -/
theorem mem_gather_of_banBy {ban : Ban} {ms : List Move} (h : ban ∈ s.gather (banBy? i) ms) :
    ban ∈ s.gather ban? ms := by
  obtain ⟨before, m, after, rfl, hban⟩ := exists_of_mem_gather h
  obtain ⟨a, -, hban⟩ := Option.bind_eq_some_iff.1 hban
  rw [gather_append, gather, hban]
  exact List.mem_append_right _ (List.mem_append_left _ (List.mem_singleton_self ban))

/-- The tier of a task that a worker has is an enabled one, and has a bit of its own. -/
theorem Reachable.task_tier_lt {b : Broker} {config : Config} {parts : Broker.Parts}
    (hb : Broker.assemble config parts = .ok b) (hs : Reachable (launch b) s) {w : WorkerId}
    {p : Phase} (hd : .post w p ∈ s.duties) (hp : p.task? = some t)
    (htask : s.broker.tasks[t]? = some task) : task.tier < tierLimit := by
  obtain ⟨x, post, hx, -, htier⟩ :=
    (hs.tiered (Broker.fresh_assemble hb)).task.duty _ hd t hp
  obtain rfl := Option.some.inj (htask.symm.trans hx)
  obtain ⟨unit, hunit, hlevel⟩ := Option.map_eq_some_iff.1 htier
  have hconfig : s.broker.unitConfigs[post.unit]? = some unit.config := by
    rw [Broker.unitConfigs, Table.getElem?_map, hunit, Option.map_some]
  rw [hs.unitConfigs] at hconfig
  have hfault := Broker.fault_of_assemble hb _ (Table.mem_toList_iff.2 ⟨_, hconfig⟩)
  exact hlevel ▸ (TierConfig.of_fault_eq_none hfault).1

/-- What a task rules out that ends with a scope, in the moves up to where its result is published. -/
structure Ruling (s s' : System) (i : ThreadId) (ms : List Move) (task : Task)
    (scope : Option FailureScope) : Prop where
  /-- The tier of the task has a bit of its own. -/
  bit : task.tier < tierLimit
  /-- The worker has had just the ban that the scope says. -/
  own : s.gather (banBy? i) ms = (task.ban? scope).toList
  /-- What is ruled out then is what was before, and what the bans of all threads cover. -/
  marks : s.broker.Banned (s.gather ban? ms) s'.broker
  /-- So what the scope says is ruled out, whatever other threads do. -/
  ruled : ∀ ban ∈ task.ban? scope, ∀ osr tier, ban.covers task.method osr tier = true →
    s'.broker.isProhibited task.method osr tier = true
  /-- And nothing else is that was not so before, if no other thread has moved meanwhile. -/
  alone : (∀ m ∈ ms, ∃ ch, m = .step i ch) → s.broker.Banned (task.ban? scope).toList s'.broker

/-- A worker is to end a task in its next steps, with the scope of the failure, if there is one with a
scope. -/
def AtEnd (s : System) (i : ThreadId) (t : TaskId) (task : Task) (scope : Option FailureScope) : Prop :=
  s.broker.tasks[t]? = some task ∧ ∃ th w st rest, s.threads[i]? = some th ∧
    th.agenda = .worker w st :: rest ∧ st.Over t scope

/-- A worker that is to end a task has ruled out what the scope of the failure says, and nothing
else, when it publishes the result. -/
theorem AtEnd.ruling {b : Broker} {config : Config} {parts : Broker.Parts}
    (hb : Broker.assemble config parts = .ok b) (hs : Reachable (launch b) s)
    (h : s.AtEnd i t task scope) {ms : List Move}
    (hpub : ∀ a ∈ s.gather (ranBy i) ms, a.publishes = false)
    (hend : (ms.foldl System.move s).ends i = some f) :
    f.task = t ∧ f.scope = scope ∧ s.Ruling (ms.foldl System.move s) i ms task scope := by
  obtain ⟨htask, th, w, st, rest, hth, ha, hover⟩ := h
  have hlawful := hs.lawful (Broker.fresh_assemble hb)
  have hstart : s.Concluding i t task scope false :=
    ⟨⟨task, htask, .refl task⟩, th, [], w, st, rest, hth, ha, rfl, hover.ends⟩
  obtain ⟨ruled, hfinal, howed⟩ := hstart.foldl hlawful hpub
  obtain ⟨rfl, rfl, rfl⟩ := hfinal.ruled_of_ends hend
  have hown : s.gather (banBy? i) ms = (task.ban? f.scope).toList := by
    simpa [Task.owed] using howed
  have hmarks := hlawful.banned_foldl ms
  have hduty : Duty.post w st.phase ∈ s.duties :=
    mem_duties.2 ⟨_, mem_pending.2 ⟨i, th, hth, by rw [ha]; exact List.mem_cons_self⟩, rfl⟩
  obtain ⟨x, hx⟩ := hlawful.sound.exists_method htask
  exact ⟨rfl, rfl, {
    bit := hs.task_tier_lt hb hduty hover.phase htask
    own := hown
    marks := hmarks
    ruled := fun ban hban osr tier hcovers => hmarks.isProhibited_of_covers hx
      (mem_gather_of_banBy (hown ▸ Option.mem_toList.2 hban)) hcovers
    alone := fun h => by rwa [← hown, gather_banBy h] }⟩

/-! ### Every end of a task -/

/-- There was a point in a run at which a worker was to end a task, and it has published no result
since. -/
def Ended (first : System) (ms : List Move) (i : ThreadId) (t : TaskId)
    (scope : Option FailureScope) : Prop :=
  ∃ before after task, ms = before ++ after ∧ (before.foldl System.move first).AtEnd i t task scope ∧
    ∀ a ∈ (before.foldl System.move first).gather (ranBy i) after, a.publishes = false

/-- It stays so while the worker publishes no result. -/
theorem Ended.concat {first : System} {ms : List Move} (h : first.Ended ms i t scope) {m : Move}
    (hm : ∀ a ∈ (ms.foldl System.move first).ranBy i m, a.publishes = false) :
    first.Ended (ms ++ [m]) i t scope := by
  obtain ⟨before, after, task, rfl, hover, hpub⟩ := h
  refine ⟨before, after ++ [m], task, List.append_assoc _ _ _, hover, fun a ha => ?_⟩
  rw [gather_concat, List.mem_append, ← List.foldl_append] at ha
  exact ha.elim (hpub a) fun ha => hm a (Option.mem_toList.1 ha)

/-- A thread after a move was there before and did not make the move, or made it, or is new. -/
theorem thread_move_cases {th : Thread} (hth : (s.move m).threads[i]? = some th) :
    (s.ranBy i m = none ∧ s.threads[i]? = some th) ∨
      (∃ ch th₀ a rest turn, s.Runs m i ch th₀ a rest turn ∧ th = th₀.after turn) ∨
      ∀ w x, .worker w x ∈ th.agenda → x = .start := by
  cases m with
  | operate o => exact .inl ⟨rfl, hth⟩
  | call c n =>
    rcases thread_call_cases hth with hold | rfl
    · exact .inl ⟨rfl, hold⟩
    · refine .inr (.inr fun w x hx => ?_)
      cases (Call.none_of_mem hx).2.2.1
  | step j ch =>
    cases hran : s.ran (.step j ch) with
    | none =>
      rw [move_step_of_ran hran] at hth
      exact .inl ⟨by rw [ranBy, hran, ite_self], hth⟩
    | some a =>
      obtain ⟨j', ch', th₀, rest, turn, hruns⟩ := exists_runs hran
      obtain ⟨rfl, rfl⟩ := Move.step.inj hruns.move
      have hthreads := hth
      rw [hruns.turned] at hthreads
      rcases threadsAfter_cases hruns.thread hthreads with ⟨rfl, rfl⟩ | ⟨hne, hold⟩ | ⟨-, w, -, rfl⟩
      · exact .inr (.inl ⟨ch, th₀, a, rest, turn, hruns, rfl⟩)
      · exact .inl ⟨if_neg (Ne.symm hne), hold⟩
      · refine .inr (.inr fun w' x hx => ?_)
        exact (Action.worker.inj (List.mem_singleton.1 hx)).2

/-- A worker that is at the end of a task is to end it now, or was to do so before. -/
theorem ended_of_outcome {b : Broker} (hb : b.Fresh) (ms : List Move) {th : Thread} {w : WorkerId}
    {x : WorkerStep} (hth : (ms.foldl System.move (launch b)).threads[i]? = some th)
    (hx : .worker w x ∈ th.agenda) (hout : x.outcome? = some (t, scope)) :
    x.Over t scope ∨ (launch b).Ended ms i t scope := by
  induction ms using List.reverseRecOn generalizing th w x with
  | nil =>
    rw [List.foldl_nil] at hth
    rw [agenda_launch hth, List.mem_singleton] at hx
    cases hx
  | append_singleton ms m ih =>
    have hr : Reachable (launch b) (ms.foldl System.move (launch b)) := reachable_iff_foldl.2 ⟨ms, rfl⟩
    have hlawful := hr.lawful hb
    rw [List.foldl_concat] at hth
    rcases thread_move_cases hth with ⟨hran, hold⟩ | ⟨ch, th₀, a, rest, turn, hruns, rfl⟩ | hnew
    · refine (ih hold hx hout).imp_right fun hended => hended.concat fun a ha => ?_
      rw [hran] at ha
      cases ha
    · have horder := (hr.ordered hb).order hruns.thread
      rw [hruns.agenda] at horder
      have hquiet (ha : a.publishes = false) :
          ∀ a' ∈ (ms.foldl System.move (launch b)).ranBy i m, a'.publishes = false := by
        intro a' ha'
        rw [hruns.ranBy_self] at ha'
        exact Option.some.inj ha' ▸ ha
      rw [Thread.agenda_after hruns.agenda] at hx
      rcases List.mem_append.1 hx with hx | hx
      · have hready (d : Duty) (hd : d ∈ a.duty?) := hlawful.ready d
          (mem_duties.2 ⟨a, hruns.mem_pending, hd⟩)
        have hturn := Action.ordered hlawful.sound hready
          ((hr.ordered hb).unit a hruns.mem_pending) hruns.run
        have hworker := (hturn.succeeds _ hx).worker.resolve_left (Option.some_ne_none w)
        cases a with
        | worker w' st =>
          obtain ⟨worker, unit, -, -, hrun⟩ :=
            Action.worker_run hlawful.sound (hready _ rfl).1 hruns.run
          refine (WorkerStep.over_of_next hrun hx hout).imp_right fun hold => ?_
          obtain ⟨hpub, hout⟩ := hold
          have hst : .worker w' st ∈ th₀.agenda := hruns.agenda ▸ List.mem_cons_self
          rcases ih hruns.thread hst hout with hover | hended
          · obtain ⟨task, htask⟩ : ∃ task,
                (ms.foldl System.move (launch b)).broker.tasks[t]? = some task :=
              Table.exists_getElem? ((hready _ rfl).2 t hover.phase)
            exact ⟨ms, [m], task, rfl, ⟨htask, th₀, w', st, rest, hruns.thread, hruns.agenda, hover⟩,
              fun a' ha' => hquiet hpub a' (by simpa [gather] using ha')⟩
          · exact hended.concat (hquiet hpub)
        | _ => cases hworker
      · -- Nothing comes after a step of a worker.
        have hnot : a.publishes = false := by
          cases a with
          | worker w' s' =>
            have hprecedes := (List.pairwise_cons.1 horder).1 _ hx
            exact absurd ((Action.worker_precedes w' s' _).symm.trans hprecedes) Bool.false_ne_true
          | _ => rfl
        have hx : .worker w x ∈ th₀.agenda := hruns.agenda ▸ List.mem_cons_of_mem a hx
        exact (ih hruns.thread hx hout).imp_right fun hended => hended.concat (hquiet hnot)
    · rw [hnew w x hx] at hout
      cases hout

/-- In every run, the result that a worker is to publish comes of a point at which it was to end the
task. -/
theorem ended_of_ends {b : Broker} (hb : b.Fresh) {ms : List Move}
    (h : (ms.foldl System.move (launch b)).ends i = some f) :
    (launch b).Ended ms i f.task f.scope := by
  rw [ends] at h
  split at h
  · rename_i w f' hnext
    obtain rfl := Option.some.inj h
    obtain ⟨th, hth, hhead⟩ := Option.bind_eq_some_iff.1 hnext
    obtain ⟨rest, ha⟩ := List.head?_eq_some_iff.1 hhead
    have hmem : .worker w (.publish f') ∈ th.agenda := ha ▸ List.mem_cons_self
    exact (ended_of_outcome hb ms hth hmem rfl).resolve_left fun hover => by cases hover
  · cases h

end System

end JitBroker
