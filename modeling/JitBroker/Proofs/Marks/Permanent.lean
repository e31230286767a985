import JitBroker.Proofs.Kinds
import JitBroker.Proofs.Marks.Ending
import JitBroker.Proofs.Task.Picked

/-!
# What is ruled out is not queued again

A request looks at the marks of its method once more under the lock of the queue, and then claims
the method and makes a task. From this look on until the task is in the queue the request is
*cleared* (`Action.cleared?`). A mark that is set just then comes too late for it; so what is said
here is about runs in which nobody else moves in between (`System.unbroken`). In these runs, where a
request is cleared, its compile is not ruled out (`System.Cleared`); and since marks stay
(`Broker.Banned.isProhibited`), no task is ever queued for a compile that was ruled out before,
whatever directives there are then (`System.Cleared.allowed_of_queues`).

The main theorem is `System.permanent_of_run`.
-/

namespace JitBroker

/-! ### Cleared requests -/

/-- The request that was cleared and has no task in the queue yet, and the task if it is made. -/
def Action.cleared? : Action → Option (Request × Option TaskId)
  | .request (.claim q) | .request (.number q) | .request (.allocate q _) => some (q.request, none)
  | .request (.stamp q t) | .request (.append q t) => some (q.request, some t)
  | _ => none

/-- The compile that a request asks for is not ruled out, and the task is one for it, if it is made.
-/
structure Broker.Clears (b : Broker) (r : Request) (t? : Option TaskId) : Prop where
  /-- There is no mark. -/
  allowed : ∃ m, b.methods[r.method]? = some m ∧ m.isProhibited r.isOsr r.tier = false
  /-- The task is for the request. -/
  task : ∀ t ∈ t?, ∃ x, b.tasks[t]? = some x ∧ x.method = r.method ∧ x.entryBci = r.bci ∧
    x.tier = r.tier

/-- What is cleared after a turn is so rightly, and is all that the turn brings. -/
def Turn.Clears (turn : Turn) : Prop :=
  ∀ a ∈ turn.next, ∀ p ∈ a.cleared?, turn.next = [a] ∧ turn.broker.Clears p.1 p.2

variable {me : Caller} {ch : Choices} {b b' : Broker} {turn : Turn} {a : Action} {r : Request}

theorem Action.kind_of_cleared (h : a.cleared? ≠ none) : a.kind = .request := by
  unfold cleared? at h
  split at h <;> first | rfl | exact absurd rfl h

/-- Who is to bring a task to a queue is cleared. -/
theorem Action.cleared_of_bring {u : UnitId} {m : MethodId} {t : TaskId}
    (h : a.duty? = some (.bring u m t)) : ∃ r, a.cleared? = some (r, some t) := by
  cases a with
  | request s => cases s <;> cases h <;> exact ⟨_, rfl⟩
  | task s =>
    cases s with
    | complete t who => cases who <;> cases h
    | _ => cases h
  | control s => cases s <;> cases h
  | _ => cases h

/-- What rules out nothing leaves a compile allowed. -/
theorem Broker.Banned.allowed (hb : b.Banned [] b')
    (h : ∃ m, b.methods[r.method]? = some m ∧ m.isProhibited r.isOsr r.tier = false) :
    ∃ m, b'.methods[r.method]? = some m ∧ m.isProhibited r.isOsr r.tier = false := by
  obtain ⟨m, hm, hfree⟩ := h
  obtain ⟨m', hm', hbans⟩ := hb hm
  exact ⟨m', hm', by rw [hbans, hfree]; rfl⟩

namespace Turn.Clears

theorem of_some {turn' : Turn} (h : some turn' = some turn) (ht : turn'.Clears) : turn.Clears := by
  obtain rfl := Option.some.inj h
  exact ht

theorem of_none (h : ∀ a ∈ turn.next, a.cleared? = none) : turn.Clears := by
  intro a ha p hp
  rw [h a ha] at hp
  cases hp

/-- A request that is cleared goes on alone. -/
theorem of_request {s : RequestStep} {p : Request × Option TaskId} {reply : Option Reply}
    (hs : (Action.request s).cleared? = some p) (h : b.Clears p.1 p.2) :
    Turn.Clears { broker := b, next := [.request s], reply := reply } := by
  intro a ha p' hp'
  obtain rfl := List.mem_singleton.1 ha
  obtain rfl := Option.some.inj (hs.symm.trans hp')
  exact ⟨rfl, h⟩

end Turn.Clears

namespace RequestStep

variable {s : RequestStep} {q : Inquiry} {t : TaskId} {x : Task}

theorem leave_clears {gaveUp : Bool} (h : leave b q t x gaveUp = some turn) : turn.Clears := by
  unfold leave at h
  split at h <;> exact .of_some h (.of_none (by simp [Action.cleared?]))

theorem wakeUp_clears {watch : Option Watch} (h : wakeUp b ch q t x watch = some turn) :
    turn.Clears := by
  unfold wakeUp at h
  repeat' split at h
  all_goals first
    | exact leave_clears h
    | exact .of_some h (.of_none (by simp [Action.cleared?]))

/-- A request is cleared by the last look at the marks, and stays so if nobody else moves. -/
theorem clears (hs : ∀ p ∈ (Action.request s).cleared?, b.Clears p.1 p.2)
    (h : s.run me ch b = some turn) : turn.Clears := by
  have hbanned := RequestStep.banned h
  cases s with
  | stillAllowed q =>
    rw [run] at h
    split at h
    · exact .of_some h (.of_none (by simp [Action.cleared?]))
    · rename_i m hm
      split at h
      · exact .of_some h (.of_none (by simp))
      · exact .of_some h (.of_none (by simp))
      · rename_i hnone
        refine .of_some h (.of_request rfl ⟨⟨m, hm, ?_⟩, fun t ht => by cases ht⟩)
        unfold Method.objection? at hnone
        repeat' split at hnone
        all_goals first
          | cases hnone
            done
          | simpa using ‹¬m.isProhibited q.request.isOsr q.request.tier = true›
  | claim q =>
    have hallowed := hbanned.allowed (hs _ rfl).allowed
    rw [run] at h
    repeat' split at h
    · exact .of_some h (.of_none (by simp [Action.cleared?]))
    · exact .of_some h (.of_none (by simp))
    · obtain rfl := Option.some.inj h
      exact .of_request rfl ⟨hallowed, fun t ht => by cases ht⟩
  | number q =>
    have hallowed := hbanned.allowed (hs _ rfl).allowed
    rw [run] at h
    split at h
    · exact .of_some h (.of_none (by simp [Action.cleared?]))
    · simp only at h
      split at h
      · obtain rfl := Option.some.inj h
        exact .of_request rfl ⟨hallowed, fun t ht => by cases ht⟩
      · exact .of_some h (.of_none (by simp [Action.cleared?]))
  | allocate q id =>
    have hallowed := hbanned.allowed (hs _ rfl).allowed
    rw [run] at h
    split at h
    · exact .of_some h (.of_none (by simp [Action.cleared?]))
    · obtain rfl := Option.some.inj h
      refine .of_request rfl ⟨hallowed, fun t ht => ?_⟩
      obtain rfl := Option.some.inj ht
      exact ⟨_, Table.getElem?_add_self _ _, rfl, rfl, rfl⟩
  | stamp q t =>
    obtain ⟨hallowed, htask⟩ := hs _ rfl
    have hallowed := hbanned.allowed hallowed
    rw [run] at h
    split at h
    · exact .of_some h (.of_none (by simp [Action.cleared?]))
    · obtain rfl := Option.some.inj h
      refine .of_request rfl ⟨hallowed, fun t' ht => ?_⟩
      obtain rfl := Option.some.inj ht
      obtain ⟨x, hx, hfor⟩ := htask _ rfl
      exact ⟨_, Table.getElem?_modify_self hx _, hfor⟩
  | _ =>
    rw [run] at h
    (try simp only at h)
    repeat' split at h
    all_goals first
      | exact wakeUp_clears h
      | exact leave_clears h
      | exact .of_some h (.of_none (by simp [Action.cleared?]))
      | cases h

end RequestStep

/-- Nobody but a request is cleared. -/
theorem Action.run_clears (ha : ∀ p ∈ a.cleared?, b.Clears p.1 p.2) (h : a.run me ch b = some turn) :
    turn.Clears := by
  by_cases hrequest : a.kind = .enter ∨ a.kind = .request
  · obtain ⟨s, rfl⟩ : ∃ s, a = .request s := by
      cases a with
      | request s => exact ⟨s, rfl⟩
      | task s => rcases kind_task s with hk | hk <;> simp [hk] at hrequest
      | control s => cases s <;> simp [kind] at hrequest
      | worker w s => cases s <;> simp [kind] at hrequest
      | _ => simp [kind] at hrequest
    exact RequestStep.clears ha h
  · refine .of_none fun a' ha' => ?_
    by_contra hcleared
    have hbrings := brings_of_run h a' ha'
    rw [kind_of_cleared hcleared] at hbrings
    revert hbrings hrequest
    cases a.kind <;> decide

/-- A task is in the queue of a unit. -/
def Broker.Holds (b : Broker) (u : UnitId) (t : TaskId) : Prop :=
  ∃ unit, b.units[u]? = some unit ∧ t ∈ unit.queue.list.toList

namespace System

variable {s : System} {i j : ThreadId} {t : TaskId} {m : Move} {ms : List Move} {u : UnitId}
  {x : Task} {th : Thread}

/-! ### Unbroken runs -/

/-- Whether a thread makes a request that is cleared. -/
def clearedAt (s : System) (j : ThreadId) : Bool :=
  s.threads[j]?.any fun th => th.agenda.any (·.cleared?.isSome)

/-- Whether a move of somebody else finds a request that is cleared. -/
def breaksIn (s : System) : Move → Bool
  | .step i _ => (List.range s.threads.size).any fun j => j != i && s.clearedAt j
  | .operate _ => (List.range s.threads.size).any s.clearedAt
  | .call _ _ => false

/-- Whether each request brings its task to the queue, once it is cleared, before somebody else
moves. -/
def unbroken (s : System) : List Move → Bool
  | [] => true
  | m :: ms => !s.breaksIn m && (s.move m).unbroken ms

theorem unbroken_append {ms' : List Move} : s.unbroken (ms ++ ms') =
    (s.unbroken ms && (ms.foldl move s).unbroken ms') := by
  induction ms generalizing s with
  | nil => rfl
  | cons m ms ih => rw [List.cons_append, unbroken, unbroken, ih, List.foldl_cons, Bool.and_assoc]

/-- Nobody but who moves is cleared. -/
theorem cleared_of_unbroken (h : s.breaksIn m = false) (hth : s.threads[j]? = some th)
    (hm : ∀ ch, m ≠ .step j ch) (hcall : ∀ c n, m ≠ .call c n) :
    ∀ a ∈ th.agenda, a.cleared? = none := by
  have hj := List.mem_range.2 (Table.lt_size_of_getElem? hth)
  have hnot : s.clearedAt j = false := by
    cases m with
    | step i ch =>
      have hne : (j != i) = true := bne_iff_ne.2 fun e => hm ch (e ▸ rfl)
      simpa [hne] using List.any_eq_false.1 h j hj
    | operate o => simpa using List.any_eq_false.1 h j hj
    | call c n => exact absurd rfl (hcall c n)
  rw [clearedAt, hth, Option.any_some, List.any_eq_false] at hnot
  intro a ha
  simpa using hnot a ha

/-- Whoever is cleared is so rightly, and has nothing else to do first. -/
structure Cleared (s : System) : Prop where
  /-- A request that is cleared goes on with that. -/
  first : ∀ {j : ThreadId} {th : Thread}, s.threads[j]? = some th →
    ∀ a ∈ th.agenda.tail, a.cleared? = none
  /-- Its compile is not ruled out. -/
  clears : ∀ {j : ThreadId} {th : Thread}, s.threads[j]? = some th →
    ∀ a ∈ th.agenda, ∀ p ∈ a.cleared?, s.broker.Clears p.1 p.2

namespace Cleared

theorem launch (b : Broker) : (launch b).Cleared where
  first hth a ha := by
    rw [agenda_launch hth] at ha
    cases ha
  clears hth a ha p hp := by
    rw [agenda_launch hth, List.mem_singleton] at ha
    subst ha
    cases hp

theorem cleared_call {c : Call} (ha : a ∈ c.agenda) : a.cleared? = none := by
  by_contra hnot
  have hkind := Call.kind_of_mem ha
  rw [Action.kind_of_cleared hnot] at hkind
  revert hkind
  decide

/-- In an unbroken run, requests are cleared rightly. -/
theorem move (h : s.Cleared) (hm : s.breaksIn m = false) : (s.move m).Cleared := by
  cases m with
  | call c n =>
    constructor
    · intro j th hth a ha
      rcases thread_call_cases hth with hth | rfl
      · exact h.first hth a ha
      · exact cleared_call (List.mem_of_mem_tail ha)
    · intro j th hth a ha p hp
      rcases thread_call_cases hth with hth | rfl
      · exact h.clears hth a ha p hp
      · rw [cleared_call ha] at hp
        cases hp
  | operate o =>
    refine ⟨fun hth => h.first hth, fun {j th} hth a ha p hp => ?_⟩
    have hth : s.threads[j]? = some th := hth
    rw [cleared_of_unbroken hm hth (fun ch h => by cases h) (fun c n h => by cases h) a ha] at hp
    cases hp
  | step i ch =>
    cases hran : s.ran (.step i ch) with
    | none => rwa [move_step_of_ran hran]
    | some a =>
      obtain ⟨i', ch', th, rest, turn, hruns⟩ := exists_runs hran
      obtain ⟨rfl, rfl⟩ := Move.step.inj hruns.move
      have hself : ∀ p ∈ a.cleared?, s.broker.Clears p.1 p.2 :=
        h.clears hruns.thread a (hruns.agenda ▸ List.mem_cons_self)
      have hturn := Action.run_clears hself hruns.run
      have hrest : ∀ a' ∈ rest, a'.cleared? = none := by
        have := h.first hruns.thread
        rwa [hruns.agenda] at this
      have hother {j : ThreadId} {th' : Thread} (hj : j ≠ i) (hth : s.threads[j]? = some th') :
          ∀ a' ∈ th'.agenda, a'.cleared? = none :=
        cleared_of_unbroken hm hth (fun ch e => hj (Move.step.inj e).1.symm)
          fun c n h => by cases h
      rw [hruns.turned]
      constructor
      · intro j th' hth a' ha'
        rcases threadsAfter_cases hruns.thread hth with ⟨rfl, rfl⟩ | ⟨hj, hth⟩ | ⟨-, w, -, rfl⟩
        · rw [Thread.agenda_after hruns.agenda] at ha'
          by_contra hnot
          obtain ⟨p, hp⟩ := Option.ne_none_iff_exists'.1 hnot
          have hnext : a' ∈ turn.next := by
            rcases List.mem_append.1 (List.mem_of_mem_tail ha') with ha' | ha'
            · exact ha'
            · exact absurd (hrest a' ha') hnot
          rw [(hturn a' hnext p hp).1] at ha'
          exact hnot (hrest a' ha')
        · exact hother hj hth a' (List.mem_of_mem_tail ha')
        · cases ha'
      · intro j th' hth a' ha' p hp
        rw [broker_turned]
        rcases threadsAfter_cases hruns.thread hth with ⟨rfl, rfl⟩ | ⟨hj, hth⟩ | ⟨-, w, -, rfl⟩
        · rw [Thread.agenda_after hruns.agenda] at ha'
          rcases List.mem_append.1 ha' with ha' | ha'
          · exact (hturn a' ha' p hp).2
          · rw [hrest a' ha'] at hp
            cases hp
        · rw [hother hj hth a' ha'] at hp
          cases hp
        · rw [List.mem_singleton.1 ha'] at hp
          cases hp

theorem foldl (h : s.Cleared) (hms : s.unbroken ms = true) : (ms.foldl System.move s).Cleared := by
  induction ms generalizing s with
  | nil => exact h
  | cons m ms ih =>
    rw [unbroken, Bool.and_eq_true, Bool.not_eq_true'] at hms
    exact ih (h.move hms.1) hms.2

end Cleared

/-! ### Queued tasks -/

/-- A move adds a task to a queue, for a method, a kind of entry and a tier. -/
def Queues (s : System) (m : Move) (k : MethodId) (osr : Bool) (tier : Tier) : Prop :=
  ∃ u t x, ¬ s.broker.Holds u t ∧ (s.move m).broker.Holds u t ∧
    (s.move m).broker.tasks[t]? = some x ∧ x.method = k ∧ x.isOsr = osr ∧ x.tier = tier

/-- Where requests are cleared rightly, what is queued is not ruled out. -/
theorem Cleared.allowed_of_queues {k : MethodId} {osr : Bool} {tier : Tier} (h : s.Cleared)
    (hs : s.Lawful) (hq : s.Queues m k osr tier) : s.broker.isProhibited k osr tier = false := by
  obtain ⟨u, t, x, hbefore, ⟨unit, hunit, ht⟩, hx, rfl, rfl, rfl⟩ := hq
  obtain ⟨d, new, hired, hshift⟩ := hs.shift_move m
  rcases hshift.event.queued_of (stock_of_unit hunit) ht with ⟨st, hst, ht⟩ | ⟨k, rfl⟩
  · rw [ledger, Broker.getElem?_stocks] at hst
    obtain ⟨unit, hunit, rfl⟩ := Option.map_eq_some_iff.1 hst
    exact absurd ⟨unit, hunit, ht⟩ hbefore
  · obtain ⟨a, ha, hduty⟩ := mem_duties.1 (hshift.mem _ rfl)
    obtain ⟨j, th, hth, ha⟩ := mem_pending.1 ha
    obtain ⟨r, hcleared⟩ := Action.cleared_of_bring hduty
    obtain ⟨⟨y, hy, hfree⟩, htask⟩ := h.clears hth a ha _ hcleared
    obtain ⟨x', hx', hmethod, hentry, htier⟩ := htask t rfl
    obtain ⟨x'', hx'', hev⟩ := (hs.extends_move m).task hx'
    obtain rfl := Option.some.inj (hx.symm.trans hx'')
    have hosr : x.isOsr = r.isOsr := by rw [Task.isOsr, hev.entryBci, hentry, Request.isOsr]
    rw [hosr, hev.method, hev.tier, hmethod, htier, Broker.isProhibited, hy, Option.any_some, hfree]

/-! ### Permanent failures -/

/-- What stays of failures in a run. -/
structure Permanent (first : System) (ms : List Move) : Prop where
  /-- What is ruled out is what was before, and what the bans in between cover. -/
  marks : ∀ {before mid after}, ms = before ++ (mid ++ after) →
    (before.foldl move first).broker.Banned ((before.foldl move first).gather ban? mid)
      ((before ++ mid).foldl move first).broker
  /-- A worker that is to publish the result of a task has ruled out what the scope of the failure
  says, since it was to end the task. -/
  ended : ∀ {before after i f}, ms = before ++ after → (before.foldl move first).ends i = some f →
    ∃ start mid task, before = start ++ mid ∧
      (start.foldl move first).AtEnd i f.task task f.scope ∧
      (start.foldl move first).Ruling (before.foldl move first) i mid task f.scope
  /-- What is ruled out is not queued later, if nobody moves while a request is cleared. -/
  stays : first.unbroken ms = true → ∀ {before mid m after k osr tier},
    ms = before ++ (mid ++ m :: after) →
    (before.foldl move first).broker.isProhibited k osr tier = true →
    ¬ ((before ++ mid).foldl move first).Queues m k osr tier

/-- In every run of a broker with a valid configuration, a task that ends rules out the tier it was
for if it failed there for good, all tiers of its method if it can never be compiled, and nothing
otherwise; marks are never lifted; and, if requests are whole steps, no task is queued for what is
ruled out. A full segment is a failure of the last kind, unless the back-end has reported another
one before. -/
theorem permanent_of_run {config : Config} {parts : Broker.Parts} {b : Broker}
    (hb : Broker.assemble config parts = .ok b) (ms : List Move) :
    (∀ (r : CompileReport) (kind : BlobKind), (r.full kind).scope = r.scope.or (some .retry)) ∧
      Permanent (launch b) ms := by
  have hlaunch := lawful_launch (Broker.fresh_assemble hb)
  refine ⟨fun r kind => ?_, ?_, ?_, ?_⟩
  · unfold CompileReport.full CompileReport.fail CompileReport.scope
    cases r.failure <;> rfl
  · rintro before mid after -
    rw [List.foldl_append]
    exact (hlaunch.foldl before).banned_foldl mid
  · rintro before after i f - hend
    obtain ⟨start, mid, task, rfl, hover, hpub⟩ :=
      ended_of_ends (Broker.fresh_assemble hb) hend
    rw [List.foldl_append] at hend ⊢
    have hr : Reachable (launch b) (start.foldl move (launch b)) :=
      reachable_iff_foldl.2 ⟨start, rfl⟩
    obtain ⟨-, -, hruling⟩ := hover.ruling hb hr hpub hend
    exact ⟨start, mid, task, rfl, hover, hruling⟩
  · rintro hunbroken before mid m after k osr tier rfl hmarked hqueues
    rw [← List.append_assoc, unbroken_append, Bool.and_eq_true] at hunbroken
    have hcleared := (Cleared.launch b).foldl hunbroken.1
    have hfree := hcleared.allowed_of_queues (hlaunch.foldl _) hqueues
    have hkept := ((hlaunch.foldl before).banned_foldl mid).isProhibited hmarked
    rw [← List.foldl_append, hfree] at hkept
    cases hkept

/-- The compile of a method fails at this tier, and the worker of the small broker comes to the
point where it publishes the result. -/
def soloBarred : List Move :=
  soloStart ++ soloRequest 2 0 ++ times 1 11
    ++ [.step 1 { move := some (.fail (.other "unsupported") .notAtTier) },
      .step 1 { move := some .finish }] ++ times 1 8

/-- The worker goes on, and the method is requested again. -/
def soloBarredLater : List Move := times 1 6 ++ soloRequest 3 0

/-- The worker has set the mark of the tier for the standard entry, and no other. No task is queued
for it later: the next request is refused. -/
theorem permanent_of_soloBarred :
    (∃ start mid task, soloBarred = start ++ mid ∧
      (start.foldl move (launch .solo)).AtEnd 1 0 task (some .notAtTier) ∧
      (start.foldl move (launch .solo)).Ruling (soloBarred.foldl move (launch .solo)) 1 mid task
        (some .notAtTier)) ∧
    [(false, 1), (true, 1), (false, 2)].map (fun x =>
      (soloBarred.foldl move (launch .solo)).broker.isProhibited 0 x.1 x.2) = [true, false, false] ∧
    (∀ mid m after, soloBarredLater = mid ++ m :: after →
      ¬ ((soloBarred ++ mid).foldl move (launch .solo)).Queues m 0 false 1) ∧
    ((soloBarred ++ soloBarredLater).foldl move (launch .solo)).threads[3]?.map (·.reply) =
      some (some (.outcome (.rejected (.prohibited (.marked false 1))))) := by
  obtain ⟨-, hpermanent⟩ := permanent_of_run Broker.assemble_solo (soloBarred ++ soloBarredLater)
  have hend : ((soloBarred.foldl move (launch .solo)).ends 1).map (fun f => (f.task, f.scope)) =
      some (0, some .notAtTier) := by decide +kernel
  obtain ⟨f, hf, hresult⟩ := Option.map_eq_some_iff.1 hend
  obtain ⟨htask, hscope⟩ := Prod.mk.inj hresult
  have hended := hpermanent.ended rfl hf
  rw [htask, hscope] at hended
  refine ⟨hended, by decide +kernel, fun mid m after hlater => ?_, by decide +kernel⟩
  exact hpermanent.stays (by decide +kernel) (by rw [hlater])
    (show _ = true by decide +kernel)

end System

end JitBroker
