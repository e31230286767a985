import JitBroker.Proofs.Ledger.Claims
import JitBroker.Proofs.Ledger.Posts

/-!
# Workers that give a claim back twice

A worker that finds that jobs are no longer taken *gives up*: it gives the claim on the method back
at once, and once more when it is through with the task. In between it still has the task, but not
the claim, and the method is *forsaken* (`System.forsaken`). A request that claims it then
*intrudes* (`System.intrudes`): the method has two tasks before long, and the second time the worker
gives back a claim that is not its own.

In a run in which nobody intrudes (`System.undisturbed`) this comes to nothing. Each claim has one
who has it, a forsaken method has none, and at most one task of a method is about at any time
(`System.Tenured`).

* `Tenured.claim_of_step`: only the claim of a request marks a method;
* `Tenured.step`: a step in which nobody intrudes keeps this up;
* `Tenured.foldl_undisturbed`: so do all runs of such steps.
-/

namespace JitBroker

/-! ### Workers that gave up -/

/-- Whether the worker found that jobs were no longer taken, and gave the claim back. A failure that
the back-end reports has a scope. -/
def Finished.gaveUp (f : Finished) : Bool :=
  decide (f.result.failure = some .notAccepting) && f.scope.isNone

/-- The task of a worker that gave up, and is to give the claim back once more. -/
def WorkerStep.gaveUp? : WorkerStep → Option TaskId
  | .rule f | .count f | .announce f | .close f | .drop f | .unmark f =>
    if f.gaveUp then some f.task else none
  | _ => none

/-- The task for which a worker gave up, which is to run this action. -/
def Action.gaveUp? : Action → Option TaskId
  | .worker _ s => s.gaveUp?
  | _ => none

/-- The duty of an action, but for a worker that gave up. -/
def Action.tenure? (a : Action) : Option Duty := if a.gaveUp? = none then a.duty? else none

variable {me : Caller} {ch : Choices} {b : Broker} {turn : Turn} {l l' : Ledger} {d : Option Duty}
  {new : List Duty} {hired : Option WorkerId} {w : WorkerId}

theorem Action.tenure_eq_duty {a : Action} (h : a.gaveUp? = none) : a.tenure? = a.duty? := if_pos h

theorem Action.tenure_of_gaveUp {a : Action} {t : TaskId} (h : a.gaveUp? = some t) :
    a.tenure? = none := if_neg (by simp [h])

/-! ### Steps -/

namespace WorkerStep

variable {worker : Worker} {unit : TierUnit} {s : WorkerStep} {t : TaskId} {x : Task} {m : Method}

/-- What the back-end reports is no giving up. -/
theorem not_gaveUp_finished (c : CompileRun) : c.finished.gaveUp = false := by
  cases hf : c.report.failure with
  | none =>
    have hverdict : c.report.verdict ≠ some .notAccepting := by
      simp only [CompileReport.verdict, hf]
      split <;> simp
    simp [Finished.gaveUp, CompileRun.finished, CompileReport.result, hverdict]
  | some f => simp [Finished.gaveUp, CompileRun.finished, CompileReport.scope, hf]

/-- A worker that gave up goes on so, until it has given the claim back. -/
theorem run_gaveUp (ht : b.tasks[t]? = some x) (hm : b.methods[x.method]? = some m)
    (hs : s.gaveUp? = some t) (h : s.run me ch b w worker unit = some turn) :
    turn.hired = none ∧ ((∃ s', turn.next = [.worker w s'] ∧ s'.gaveUp? = some t ∧
        s.phase = .after t) ∨
      ∃ f, turn.next = [.worker w (.publish f)] ∧ s.phase = .closing t ∧
        turn.broker.ledger = b.ledger.claim x.method false) := by
  have on {f : Finished} (hf : (if f.gaveUp then some f.task else none) = some t) :
      f.gaveUp = true ∧ f.task = t := by
    split at hf
    · exact ⟨‹_›, Option.some.inj hf⟩
    · cases hf
  cases s with
  | rule f =>
    obtain ⟨hf, rfl⟩ := on hs
    rw [run, ht] at h
    simp only [hm] at h
    split at h
    all_goals
      obtain rfl := Option.some.inj h
      exact ⟨rfl, .inl ⟨_, rfl, if_pos hf, rfl⟩⟩
  | count f =>
    obtain ⟨hf, rfl⟩ := on hs
    rw [run, ht] at h
    simp only [hm] at h
    obtain rfl := Option.some.inj h
    exact ⟨rfl, .inl ⟨_, rfl, if_pos hf, rfl⟩⟩
  | announce f =>
    obtain ⟨hf, rfl⟩ := on hs
    rw [run, ht] at h
    obtain rfl := Option.some.inj h
    exact ⟨rfl, .inl ⟨_, rfl, if_pos hf, rfl⟩⟩
  | close f =>
    obtain ⟨hf, rfl⟩ := on hs
    rw [run, ht] at h
    simp only [hm] at h
    obtain rfl := Option.some.inj h
    exact ⟨rfl, .inl ⟨_, rfl, if_pos hf, rfl⟩⟩
  | drop f =>
    obtain ⟨hf, rfl⟩ := on hs
    obtain rfl := Option.some.inj h
    exact ⟨rfl, .inl ⟨_, rfl, if_pos hf, rfl⟩⟩
  | unmark f =>
    obtain ⟨hf, rfl⟩ := on hs
    rw [run, ht] at h
    obtain rfl := Option.some.inj h
    exact ⟨rfl, .inr ⟨f, rfl, rfl, b.ledger_modifyMethod_queued _ _⟩⟩
  | _ => cases hs

/-- Giving up gives the claim back. -/
theorem run_giveUp {c : CompileRun} (ht : b.tasks[c.task]? = some x)
    (h : (giveUp c).run me ch b w worker unit = some turn) :
    turn.hired = none ∧ turn.next = [.worker w (.rule (c.refuse .notAccepting))] ∧
      turn.broker.ledger = b.ledger.claim x.method false := by
  rw [run, ht] at h
  obtain rfl := Option.some.inj h
  exact ⟨rfl, rfl, b.ledger_modifyMethod_queued _ _⟩

/-- What the back-end does is no giving up. -/
theorem obey_spares {c : CompileRun} {move : BackendMove} (h : obey b w c x unit move = some turn) :
    ∀ a ∈ turn.next, a.gaveUp? = none := by
  cases move with
  | install total instructions =>
    rw [obey] at h
    split at h <;> obtain rfl := Option.some.inj h <;> exact List.forall_mem_singleton.2 rfl
  | call k =>
    obtain rfl := Option.some.inj h
    cases k <;> simp [Call.agenda, Action.gaveUp?, gaveUp?]
  | finish =>
    rw [obey] at h
    split at h <;> obtain rfl := Option.some.inj h
    · exact List.forall_mem_cons.2 ⟨rfl, List.forall_mem_singleton.2 rfl⟩
    · exact List.forall_mem_singleton.2 rfl
  | _ =>
    obtain rfl := Option.some.inj h
    first
      | exact List.forall_mem_singleton.2 rfl
      | exact List.forall_mem_cons.2 ⟨rfl, List.forall_mem_singleton.2 rfl⟩

/-- Nobody else gives up, but who finds that jobs are no longer taken. -/
theorem run_spares (hs : s.gaveUp? = none) (hgive : ∀ c, s ≠ .giveUp c)
    (h : s.run me ch b w worker unit = some turn) : ∀ a ∈ turn.next, a.gaveUp? = none := by
  have behind {as : List Action} {x : WorkerStep} (has : ∀ a ∈ as, a.gaveUp? = none)
      (hx : x.gaveUp? = none) : ∀ a ∈ as ++ [Action.worker w x], a.gaveUp? = none := by
    intro a ha
    rcases List.mem_append.1 ha with ha | ha
    · exact has a ha
    · rw [List.mem_singleton.1 ha]
      exact hx
  have stale (ts : List TaskId) : ∀ a ∈ ts.flatMap Action.stale, a.gaveUp? = none := by
    intro a ha
    obtain ⟨t, -, ha⟩ := List.mem_flatMap.1 ha
    obtain ⟨s, -, rfl⟩ := List.mem_map.1 ha
    rfl
  cases s with
  | giveUp c => exact absurd rfl (hgive c)
  | choose =>
    rw [run] at h
    repeat' split at h
    all_goals
      obtain rfl := Option.some.inj h
      first
        | exact behind (stale _) rfl
        | exact List.forall_mem_singleton.2 rfl
  | compile c =>
    rw [run] at h
    split at h
    · obtain rfl := Option.some.inj h
      simp [Action.gaveUp?]
    · cases h
    · exact obey_spares h
  | judge c =>
    obtain rfl := Option.some.inj h
    refine behind (fun a ha => ?_) (if_neg (by simp [not_gaveUp_finished]))
    obtain ⟨k, -, rfl⟩ := List.mem_map.1 ha
    rfl
  | settle =>
    obtain rfl := Option.some.inj h
    refine behind (fun a ha => ?_) rfl
    split at ha
    · rw [List.mem_singleton.1 ha]
      rfl
    · cases ha
  | examine c =>
    rw [run] at h
    repeat' split at h
    all_goals
      obtain rfl := Option.some.inj h
      exact List.forall_mem_singleton.2 rfl
  | rule f =>
    rw [run] at h
    (repeat' split at h) <;> (try simp only at h) <;> (try split at h)
    all_goals
      obtain rfl := Option.some.inj h
      first
        | exact List.forall_mem_singleton.2 hs
        | exact List.forall_mem_singleton.2 rfl
  | count f | announce f | close f =>
    rw [run] at h
    repeat' split at h
    all_goals
      obtain rfl := Option.some.inj h
      first
        | exact List.forall_mem_singleton.2 hs
        | exact List.forall_mem_singleton.2 rfl
  | drop f =>
    obtain rfl := Option.some.inj h
    exact List.forall_mem_singleton.2 hs
  | _ =>
    rw [run] at h
    repeat' split at h
    all_goals first
      | cases h
        done
      | obtain rfl := Option.some.inj h
        exact List.forall_mem_singleton.2 rfl
      | obtain rfl := Option.some.inj h
        simp [Action.gaveUp?, gaveUp?]

/-- A worker that shows its task changes no claim before it calls the back-end, but by giving up. -/
theorem run_shown (hphase : s.phase = .shown t) (hgive : ∀ c, s ≠ .giveUp c)
    (h : s.run me ch b w worker unit = some turn) : turn.broker.ledger = b.ledger := by
  cases s with
  | giveUp c => exact absurd rfl (hgive c)
  | begin c =>
    rw [run] at h
    repeat' split at h
    all_goals first
      | obtain rfl := Option.some.inj h
        rfl
      | obtain rfl := Option.some.inj h
        exact b.ledger_modifyWorker (fun _ => by rfl) w
  | consult t | examine c | clear c =>
    rw [run] at h
    repeat' split at h
    all_goals
      obtain rfl := Option.some.inj h
      rfl
  | _ => cases hphase

end WorkerStep

/-- Who is a worker after an event was that worker before. -/
theorem Event.post_of_mem (h : Event l d new hired l') {a : Phase} (ha : .post w a ∈ new) :
    ∃ a₀, d = some (.post w a₀) := by
  cases h.staffs with
  | keep _ _ hnew _ =>
    obtain ⟨a₀, hd, -⟩ := hnew ha
    exact ⟨a₀, hd⟩
  | display _ _ | retire _ _ =>
    obtain ⟨rfl, -⟩ := Duty.post.inj (List.mem_singleton.1 ha)
    exact ⟨_, rfl⟩
  | hire _ => exact absurd ha List.not_mem_nil

/-- A worker that is through with its task changes neither queues nor claims before it shows the task
no more. -/
theorem Event.of_after {t : TaskId} (h : Event l (some (.post w (.after t))) new hired l') :
    l'.stocks = l.stocks ∧ ∀ m, l'.claimed m = l.claimed m := by
  cases h with
  | know d => exact ⟨rfl, l.claimed_know⟩
  | plain d | drop => exact ⟨rfl, fun _ => rfl⟩
  | lookOut hp ha ha' => rcases ha with h | h <;> cases h
  | judge ha => rcases ha with h | h <;> cases h
  | ring hd _ _ | close hd _ _ => rcases hd with h | h <;> cases h

namespace Action

variable {a : Action} {t : TaskId}

/-- Who gave up is a worker. -/
theorem post_of_gaveUp (h : a.gaveUp? = some t) :
    ∃ w s, a = .worker w s ∧ s.gaveUp? = some t ∧ (s.phase = .after t ∨ s.phase = .closing t) := by
  cases a with
  | worker w s =>
    refine ⟨w, s, rfl, h, ?_⟩
    cases s <;> simp only [gaveUp?, WorkerStep.gaveUp?, Option.ite_none_right_eq_some,
      Option.some.injEq, reduceCtorEq] at h
    all_goals simp [WorkerStep.phase, h.2]
  | _ => cases h

/-- Who is a worker in some phase is at a step of that phase. -/
theorem worker_of_duty {p : Phase} (h : a.duty? = some (.post w p)) :
    ∃ s, a = .worker w s ∧ s.phase = p := by
  cases a with
  | worker w' s =>
    obtain ⟨rfl, rfl⟩ := Duty.post.inj (Option.some.inj h)
    exact ⟨s, rfl, rfl⟩
  | request s => cases s <;> cases h
  | task s =>
    cases s with
    | complete t who => cases who <;> cases h
    | _ => cases h
  | control s => cases s <;> cases h
  | _ => cases h

/-- Nobody gives up but who finds that jobs are no longer taken. -/
theorem run_spares (hevent : Event b.ledger a.duty? (JitBroker.duties turn.next) hired l')
    (ha : a.gaveUp? = none) (hgive : ∀ w c, a ≠ .worker w (.giveUp c))
    (h : a.run me ch b = some turn) : ∀ a' ∈ turn.next, a'.gaveUp? = none := by
  intro a' ha'
  by_contra hne
  obtain ⟨t, ht⟩ := Option.ne_none_iff_exists'.1 hne
  obtain ⟨w, s', rfl, -, -⟩ := post_of_gaveUp ht
  obtain ⟨p, hd⟩ := hevent.post_of_mem (JitBroker.mem_duties.2 ⟨_, ha', rfl⟩)
  obtain ⟨s, rfl, -⟩ := worker_of_duty hd
  rw [run] at h
  repeat' split at h
  · obtain rfl := Option.some.inj h
    simp at ha'
  · obtain rfl := Option.some.inj h
    simp at ha'
  · exact hne (WorkerStep.run_spares ha (fun c hc => hgive w c (hc ▸ rfl)) h _ ha')

/-- Who gives up after a step did so before it, or finds in it that jobs are no longer taken; and
has nothing else to do for the moment. -/
theorem gaveUp_of_next (hevent : Event b.ledger a.duty? (JitBroker.duties turn.next) hired l')
    (hsound : b.ledger.Sound) (hknown : ∀ d ∈ a.duty?, d.Known b.ledger)
    (h : a.run me ch b = some turn) {a' : Action} (ha' : a' ∈ turn.next) (ht : a'.gaveUp? = some t) :
    turn.next = [a'] ∧
      (a.gaveUp? = some t ∨ ∃ w c, a = .worker w (.giveUp c) ∧ c.task = t) := by
  have only {a₀ : Action} (hnext : turn.next = [a₀]) : a' = a₀ := by
    rwa [hnext, List.mem_singleton] at ha'
  cases hgave : a.gaveUp? with
  | some t' =>
    obtain ⟨w, s, rfl, hs, hphase⟩ := post_of_gaveUp hgave
    obtain ⟨hw, htask⟩ := hknown _ rfl
    obtain ⟨worker, unit, -, -, hwork⟩ := worker_run hsound hw h
    obtain ⟨x, hx⟩ :=
      Table.exists_getElem? (htask t' (by rcases hphase with hp | hp <;> rw [hp] <;> rfl))
    obtain ⟨m, hm⟩ := hsound.exists_method hx
    obtain ⟨-, ⟨s', hnext, hs', -⟩ | ⟨f, hnext, -, -⟩⟩ := WorkerStep.run_gaveUp hx hm hs hwork
    · obtain rfl := only hnext
      exact ⟨hnext, .inl (hs'.symm.trans ht)⟩
    · obtain rfl := only hnext
      cases ht
  | none =>
    by_cases hgive : ∃ w c, a = .worker w (.giveUp c)
    · obtain ⟨w, c, rfl⟩ := hgive
      obtain ⟨hw, htask⟩ := hknown _ rfl
      obtain ⟨worker, unit, -, -, hwork⟩ := worker_run hsound hw h
      obtain ⟨x, hx⟩ := Table.exists_getElem? (htask _ rfl)
      obtain ⟨-, hnext, -⟩ := WorkerStep.run_giveUp hx hwork
      obtain rfl := only hnext
      exact ⟨hnext, .inr ⟨w, c, rfl, Option.some.inj ht⟩⟩
    · have := run_spares hevent hgave (fun w c hc => hgive ⟨w, c, hc⟩) h a' ha'
      rw [this] at ht
      cases ht

/-- Of the steps before the claim none marks the method. -/
theorem claim_of_passed {u : UnitId} {m : MethodId} (hd : a.duty? = some (.desk u m .passed))
    (h : a.run me ch b = some turn) (hfree : b.ledger.claimed m = false)
    (hset : turn.broker.ledger.claimed m = true) :
    ∃ q, a = .request (.claim q) ∧ q.request.method = m := by
  have plain (b' : Broker) (hb' : b'.ledger.claims = b.ledger.claims)
      (hset : b'.ledger.claimed m = true) : False := by
    rw [Ledger.claimed, hb', ← Ledger.claimed, hfree] at hset
    cases hset
  have excluded (q : Inquiry) : ((RequestStep.unlock b q).modifyMethod q.request.method
      (·.prohibit q.request.isOsr q.request.tier)).ledger = b.ledger.lock q.unit false :=
    ((RequestStep.unlock b q).ledger_modifyMethod (fun x => x.queued_prohibit _ _) _).trans
      (b.ledger_giveBack q.unit)
  cases a with
  | request s =>
    cases s with
    | claim q =>
      obtain ⟨-, hm, -⟩ := Duty.desk.inj (Option.some.inj hd)
      exact ⟨q, rfl, hm⟩
    | stillMissing q =>
      rw [run, RequestStep.run] at h
      repeat' split at h
      all_goals
        obtain rfl := Option.some.inj h
        exact (plain b rfl hset).elim
    | stillAllowed q =>
      rw [run, RequestStep.run] at h
      repeat' split at h
      all_goals
        obtain rfl := Option.some.inj h
        first
          | exact (plain b rfl hset).elim
          | exact (plain _ (by rw [excluded q]; rfl) hset).elim
    | _ => cases hd
  | task s =>
    cases s with
    | complete t who => cases who <;> cases hd
    | _ => cases hd
  | control s => cases s <;> cases hd
  | _ => cases hd

end Action

/-! ### Systems -/

namespace System

variable {s s' first : System} {i j : ThreadId} {a : Action} {rest : List Action} {th : Thread}
  {m : MethodId}

/-- The duties, but for those of a worker that gave up. -/
def tenures (s : System) : Multiset Duty := s.pending.filterMap Action.tenure?

/-- Whether a worker gave up on a method, and is to give the claim back once more. -/
def forsaken (s : System) (m : MethodId) : Bool :=
  s.threads.toList.any fun th => th.agenda.any fun a => a.gaveUp?.any (s.ledger.isFor m)

/-- Whether a move is the claim of a request on a method that a worker gave up on. -/
def intrudes (s : System) : Move → Bool
  | .step i _ =>
    match s.threads[i]?.bind (·.agenda.head?) with
    | some (.request (.claim q)) => s.forsaken q.request.method
    | _ => false
  | .call _ _ | .operate _ => false

/-- Whether nobody intrudes in a run. -/
def undisturbed (s : System) : List Move → Bool
  | [] => true
  | m :: ms => !s.intrudes m && (s.move m).undisturbed ms

/-- One has the claim on each method that is claimed, but for a worker that gave up. -/
structure Tenured (s : System) : Prop where
  /-- Each claim has one who has it. -/
  claimed : Claimed s.ledger s.tenures
  /-- Nobody has claimed a method for which a worker gave up. -/
  quiet : ∀ m, s.forsaken m = true → s.ledger.claimed m = false
  /-- Even with workers that gave up, there is one at most. -/
  single : ∀ m, claimants s.ledger s.duties m ≤ 1
  /-- A worker that gave up goes on with that first. -/
  head : ∀ {j : ThreadId} {th : Thread}, s.threads[j]? = some th →
    ∀ a ∈ th.agenda.tail, a.gaveUp? = none

theorem forsaken_iff : s.forsaken m = true ↔
    ∃ a ∈ s.pending, ∃ t, a.gaveUp? = some t ∧ s.ledger.isFor m t = true := by
  simp only [forsaken, List.any_eq_true, Option.any_eq_true, pending, Multiset.mem_coe,
    List.mem_flatMap]
  constructor
  · rintro ⟨th, hth, a, ha, h⟩
    exact ⟨a, ⟨th, hth, ha⟩, h⟩
  · rintro ⟨a, ⟨th, hth, ha⟩, h⟩
    exact ⟨th, hth, a, ha, h⟩

theorem intrudes_step (hth : s.threads[i]? = some th) (ha : th.agenda = a :: rest) :
    s.intrudes (.step i ch) = true ↔
      ∃ q, a = .request (.claim q) ∧ s.forsaken q.request.method = true := by
  rw [intrudes, hth, Option.bind_some, ha, List.head?_cons]
  constructor
  · intro h
    split at h
    · rename_i q hq
      exact ⟨q, Option.some.inj hq, h⟩
    · cases h
  · rintro ⟨q, rfl, h⟩
    exact h

theorem exists_of_intrudes (h : s.intrudes (.step i ch) = true) : ∃ th rest q,
    s.threads[i]? = some th ∧ th.agenda = .request (.claim q) :: rest ∧
      s.forsaken q.request.method = true := by
  cases hth : s.threads[i]? with
  | none => simp [intrudes, hth] at h
  | some th =>
    cases ha : th.agenda with
    | nil => simp [intrudes, hth, ha] at h
    | cons a rest =>
      obtain ⟨q, rfl, hforsaken⟩ := (intrudes_step hth ha).1 h
      exact ⟨th, rest, q, rfl, ha, hforsaken⟩

theorem mem_duties_of_tenures {d : Duty} (h : d ∈ s.tenures) : d ∈ s.duties := by
  obtain ⟨a, ha, hd⟩ := (Multiset.mem_filterMap _ _).1 h
  unfold Action.tenure? at hd
  split at hd
  · exact mem_duties.2 ⟨a, ha, hd⟩
  · cases hd

theorem mem_tenures {d : Duty} (ha : a ∈ s.pending) (hgave : a.gaveUp? = none)
    (hd : a.duty? = some d) : d ∈ s.tenures :=
  (Multiset.mem_filterMap _ _).2 ⟨a, ha, (Action.tenure_eq_duty hgave).trans hd⟩

/-- Where nobody gave up, all duties count. -/
theorem tenures_eq_duties (h : ∀ a ∈ s.pending, a.gaveUp? = none) : s.tenures = s.duties :=
  congrArg Multiset.ofList (List.filterMap_congr fun a ha => Action.tenure_eq_duty (h a ha))

/-- Where nobody gave up on a method, all duties count for it. -/
theorem claimants_tenures (h : s.forsaken m = false) :
    claimants s.ledger s.tenures m = claimants s.ledger s.duties m := by
  unfold claimants tenures duties pending
  rw [Multiset.filterMap_coe, Multiset.filterMap_coe, Multiset.coe_countP, Multiset.coe_countP,
    List.countP_filterMap, List.countP_filterMap]
  congr 1
  refine List.countP_congr fun a ha => ?_
  cases hgave : a.gaveUp? with
  | none => rw [Action.tenure_eq_duty hgave]
  | some t =>
    obtain ⟨w, s₀, rfl, -, hphase⟩ := Action.post_of_gaveUp hgave
    have hfor : s.ledger.isFor m t = false := by
      by_contra hfor
      have := forsaken_iff.2 ⟨_, ha, t, hgave, by simpa using hfor⟩
      rw [h] at this
      cases this
    rw [Action.tenure_of_gaveUp hgave, Action.duty?]
    rcases hphase with hphase | hphase <;> simp [hphase, Duty.claims, Phase.claimed?, hfor]

namespace Tenured

/-- Only the claim of a request marks a method. -/
theorem claim_of_step (h : s.Tenured) (hth : s.threads[i]? = some th) (ha : th.agenda = a :: rest)
    (hrun : a.run (th.caller i) ch s.broker = some turn)
    (hshift : Shift s.ledger s.duties a.duty? (JitBroker.duties turn.next) turn.hired
      (s.turned i turn).ledger (s.turned i turn).duties)
    (hfree : s.ledger.claimed m = false) (hset : (s.turned i turn).ledger.claimed m = true) :
    ∃ q, a = .request (.claim q) ∧ q.request.method = m := by
  obtain ⟨u, hd⟩ | ⟨u, t, hd⟩ := hshift.event.marks hfree hset
  · exact Action.claim_of_passed hd hrun hfree hset
  · -- A request that sets its claim again has had it all the time.
    have hmem : a ∈ s.pending := mem_pending.2 ⟨i, th, hth, ha ▸ List.mem_cons_self⟩
    have hgave : a.gaveUp? = none := by
      cases hgave : a.gaveUp? with
      | none => rfl
      | some t' =>
        obtain ⟨w, s₀, rfl, -, -⟩ := Action.post_of_gaveUp hgave
        cases hd
    have hpos : 0 < s.tenures.countP (·.claims s.ledger m) :=
      Multiset.countP_pos.2 ⟨_, mem_tenures hmem hgave hd, decide_eq_true rfl⟩
    have hcount := h.claimed m
    rw [hfree, Bool.toNat_false] at hcount
    unfold claimants at hcount
    omega

/-- What becomes of the duties in a step. -/
theorem tenures_turned (hth : s.threads[i]? = some th) (ha : th.agenda = a :: rest)
    (hired : turn.hired = none) :
    (s.turned i turn).tenures + ↑a.tenure?.toList =
      s.tenures + ↑(turn.next.filterMap Action.tenure?) := by
  have h := @filterMap_pending_turned s i th a turn rest _ Action.tenure? hth ha
  rwa [Turn.brings, hired, Option.toList_none, List.map_nil, List.append_nil] at h

/-- A step of somebody who does not give up is a shift of the duties that count. -/
theorem shift_tenures (hth : s.threads[i]? = some th) (ha : th.agenda = a :: rest)
    (hgave : a.gaveUp? = none) (hspares : ∀ a' ∈ turn.next, a'.gaveUp? = none)
    (hshift : Shift s.ledger s.duties a.duty? (JitBroker.duties turn.next) turn.hired
      (s.turned i turn).ledger (s.turned i turn).duties) :
    Shift s.ledger s.tenures a.duty? (JitBroker.duties turn.next) turn.hired
      (s.turned i turn).ledger (s.turned i turn).tenures := by
  have hmem : a ∈ s.pending := mem_pending.2 ⟨i, th, hth, ha ▸ List.mem_cons_self⟩
  refine ⟨hshift.event, fun d hd => mem_tenures hmem hgave hd, ?_⟩
  have hbrings : turn.brings.filterMap Action.tenure? =
      JitBroker.duties turn.next ++ turn.hired.toList.map fun w => Duty.post w .idle := by
    rw [Turn.brings, List.filterMap_append,
      List.filterMap_congr fun a ha => Action.tenure_eq_duty (hspares a ha)]
    cases turn.hired <;> rfl
  have h := @filterMap_pending_turned s i th a turn rest _ Action.tenure? hth ha
  rwa [hbrings, Action.tenure_eq_duty hgave] at h

/-! ### Each claim has one who has it -/

/-- In a step in which nobody gives up each claim keeps one who has it. -/
theorem claimed_plain (h : s.Tenured) (hs : s.Lawful) (hth : s.threads[i]? = some th)
    (ha : th.agenda = a :: rest) (hgave : a.gaveUp? = none)
    (hgive : ∀ w c, a ≠ .worker w (.giveUp c)) (hrun : a.run (th.caller i) ch s.broker = some turn)
    (hshift : Shift s.ledger s.duties a.duty? (JitBroker.duties turn.next) turn.hired
      (s.turned i turn).ledger (s.turned i turn).duties) :
    Claimed (s.turned i turn).ledger (s.turned i turn).tenures := by
  have hspares := Action.run_spares hshift.event hgave hgive hrun
  refine h.claimed.shift hs.sound (fun d hd => hs.known d (mem_duties_of_tenures hd))
    (shift_tenures hth ha hgave hspares hshift) fun w t hd => ?_
  obtain ⟨s₀, rfl, hphase⟩ := Action.worker_of_duty hd
  obtain ⟨worker, unit, -, -, hwork⟩ :=
    Action.worker_run hs.sound (hs.known _ (hshift.mem _ hd)).1 hrun
  exact congrArg Ledger.claims (WorkerStep.run_shown hphase (fun c hc => hgive w c (hc ▸ rfl)) hwork)

/-- A worker that gives up gives the claim back that it had. -/
theorem claimed_giveUp {w : WorkerId} {c : CompileRun} (h : s.Tenured) (hs : s.Lawful)
    (hth : s.threads[i]? = some th) (ha : th.agenda = .worker w (.giveUp c) :: rest)
    (hrun : (Action.worker w (.giveUp c)).run (th.caller i) ch s.broker = some turn) :
    Claimed (s.turned i turn).ledger (s.turned i turn).tenures := by
  have hmem : Action.worker w (.giveUp c) ∈ s.pending :=
    mem_pending.2 ⟨i, th, hth, ha ▸ List.mem_cons_self⟩
  obtain ⟨hw, ht⟩ := hs.known _ (mem_duties.2 ⟨_, hmem, rfl⟩)
  obtain ⟨worker, unit, -, -, hwork⟩ := Action.worker_run hs.sound hw hrun
  obtain ⟨x, hx⟩ := Table.exists_getElem? (ht _ rfl)
  obtain ⟨hhired, hnext, hledger⟩ := WorkerStep.run_giveUp hx hwork
  have htenures := tenures_turned hth ha hhired
  have hduty : (Action.worker w (.giveUp c)).tenure? = some (.post w (.shown c.task)) := rfl
  have hgave : (Action.worker w (.rule (c.refuse .notAccepting))).gaveUp? = some c.task := rfl
  rw [hnext, hduty, List.filterMap_cons_none (Action.tenure_of_gaveUp hgave), List.filterMap_nil,
    Multiset.coe_nil, Multiset.add_zero, Option.toList_some, Multiset.coe_singleton, Multiset.add_comm,
    Multiset.singleton_add] at htenures
  rw [show (s.turned i turn).ledger = s.ledger.claim x.method false from hledger]
  refine Claimed.relinquish (d := .post w (.shown c.task)) ?_ (hs.sound.method hx) ?_
    fun m' hm' => ?_
  · rw [htenures]
    exact h.claimed
  · simp [Duty.claims, Phase.claimed?, Ledger.isFor_of_some hx]
  · simp [Duty.claims, Phase.claimed?, Ledger.isFor_of_some hx, Ne.symm hm']

/-- A worker that gave up has no claim to give back. -/
theorem claimed_gaveUp {t : TaskId} (h : s.Tenured) (hs : s.Lawful)
    (hth : s.threads[i]? = some th) (ha : th.agenda = a :: rest) (hgave : a.gaveUp? = some t)
    (hrun : a.run (th.caller i) ch s.broker = some turn)
    (hshift : Shift s.ledger s.duties a.duty? (JitBroker.duties turn.next) turn.hired
      (s.turned i turn).ledger (s.turned i turn).duties) :
    Claimed (s.turned i turn).ledger (s.turned i turn).tenures := by
  obtain ⟨w, s₀, rfl, hs₀, hphase⟩ := Action.post_of_gaveUp hgave
  have hmem : Action.worker w s₀ ∈ s.pending := mem_pending.2 ⟨i, th, hth, ha ▸ List.mem_cons_self⟩
  obtain ⟨hw, ht⟩ := hs.known _ (mem_duties.2 ⟨_, hmem, rfl⟩)
  obtain ⟨worker, unit, -, -, hwork⟩ := Action.worker_run hs.sound hw hrun
  obtain ⟨x, hx⟩ := Table.exists_getElem? (ht t (by rcases hphase with hp | hp <;> rw [hp] <;> rfl))
  obtain ⟨m, hm⟩ := hs.sound.exists_method hx
  have hquiet : s.ledger.claimed x.method = false :=
    h.quiet _ (forsaken_iff.2 ⟨_, hmem, t, hgave, by simp [Ledger.isFor_of_some (l := s.ledger) hx]⟩)
  obtain ⟨hhired, hon⟩ := WorkerStep.run_gaveUp hx hm hs₀ hwork
  have htenures := tenures_turned hth ha hhired
  rw [Action.tenure_of_gaveUp hgave, Option.toList_none, Multiset.coe_nil, Multiset.add_zero]
    at htenures
  rcases hon with ⟨s₁, hnext, hs₁, hafter⟩ | ⟨f, hnext, -, hledger⟩
  · rw [Action.duty?, hafter] at hshift
    obtain ⟨hstocks, hclaimed⟩ := hshift.event.of_after
    have hgave₁ : (Action.worker w s₁).gaveUp? = some t := hs₁
    rw [hnext, List.filterMap_cons_none (Action.tenure_of_gaveUp hgave₁), List.filterMap_nil,
      Multiset.coe_nil, Multiset.add_zero] at htenures
    rw [htenures]
    exact h.claimed.mono hs.sound (fun d hd => hs.known d (mem_duties_of_tenures hd))
      hshift.event.extends hstocks hclaimed
  · have hledger : (s.turned i turn).ledger = s.ledger :=
      hledger.trans (Ledger.claim_eq_self (hs.sound.method hx) hquiet)
    have hpublish : (Action.worker w (.publish f)).tenure? = some (.post w (.closed f.task)) := rfl
    rw [hnext, List.filterMap_cons_some hpublish, List.filterMap_nil, Multiset.coe_singleton,
      Multiset.add_comm, Multiset.singleton_add] at htenures
    rw [htenures, hledger]
    exact h.claimed.cons fun m => rfl

/-! ### Steps -/

/-- After a step, a worker that gave up still goes on with that first. -/
theorem head_turned (h : s.Tenured) (hs : s.Lawful) (hth : s.threads[i]? = some th)
    (ha : th.agenda = a :: rest) (hrun : a.run (th.caller i) ch s.broker = some turn)
    (hshift : Shift s.ledger s.duties a.duty? (JitBroker.duties turn.next) turn.hired
      (s.turned i turn).ledger (s.turned i turn).duties) {th' : Thread}
    (hth' : (s.turned i turn).threads[j]? = some th') :
    ∀ a' ∈ th'.agenda.tail, a'.gaveUp? = none := by
  have hmem : a ∈ s.pending := mem_pending.2 ⟨i, th, hth, ha ▸ List.mem_cons_self⟩
  have hrest : ∀ a' ∈ rest, a'.gaveUp? = none := fun a' ha' => h.head hth a' (by rwa [ha])
  have hnext : ∀ a' ∈ turn.next.tail, a'.gaveUp? = none := by
    intro a' ha'
    cases ht : a'.gaveUp? with
    | none => rfl
    | some t =>
      obtain ⟨hnext, -⟩ := Action.gaveUp_of_next hshift.event hs.sound
        (fun d hd => hs.known d (mem_duties.2 ⟨a, hmem, hd⟩)) hrun (List.mem_of_mem_tail ha') ht
      rw [hnext] at ha'
      exact absurd ha' List.not_mem_nil
  rcases threadsAfter_cases hth hth' with ⟨-, rfl⟩ | ⟨-, hold⟩ | ⟨-, w, -, rfl⟩
  · intro a' ha'
    rw [Thread.agenda_after ha] at ha'
    cases hn : turn.next with
    | nil =>
      rw [hn] at ha'
      exact hrest a' (List.mem_of_mem_tail ha')
    | cons a₀ as =>
      rw [hn, List.cons_append, List.tail_cons] at ha'
      rcases List.mem_append.1 ha' with ha' | ha'
      · exact hnext a' (by rwa [hn])
      · exact hrest a' ha'
  · exact h.head hold
  · exact fun a' ha' => absurd ha' List.not_mem_nil

/-- A method that is forsaken after a step was so before it, or a worker gives up on it. -/
theorem forsaken_turned (hs : s.Lawful) (hth : s.threads[i]? = some th)
    (ha : th.agenda = a :: rest) (hrun : a.run (th.caller i) ch s.broker = some turn)
    (hshift : Shift s.ledger s.duties a.duty? (JitBroker.duties turn.next) turn.hired
      (s.turned i turn).ledger (s.turned i turn).duties) (hm : (s.turned i turn).forsaken m = true) :
    s.forsaken m = true ∨
      ∃ w c, a = .worker w (.giveUp c) ∧ s.ledger.isFor m c.task = true := by
  have hmem : a ∈ s.pending := mem_pending.2 ⟨i, th, hth, ha ▸ List.mem_cons_self⟩
  obtain ⟨a', ha', t, ht, hfor⟩ := forsaken_iff.1 hm
  have old {a₀ : Action} {t : TaskId} (ha₀ : a₀ ∈ s.pending)
      (ht : ∃ w p, a₀.duty? = some (.post w p) ∧ p.task? = some t)
      (hfor : (s.turned i turn).ledger.isFor m t = true) : s.ledger.isFor m t = true := by
    obtain ⟨w, p, hd, hp⟩ := ht
    obtain ⟨-, hknown⟩ := hs.known _ (mem_duties.2 ⟨_, ha₀, hd⟩)
    rwa [Ledger.isFor_mono hshift.event.extends (hknown t hp)] at hfor
  have gave {a₀ : Action} {t : TaskId} (ha₀ : a₀ ∈ s.pending) (ht : a₀.gaveUp? = some t)
      (hfor : (s.turned i turn).ledger.isFor m t = true) : s.forsaken m = true := by
    obtain ⟨w, s₀, rfl, -, hphase⟩ := Action.post_of_gaveUp ht
    refine forsaken_iff.2 ⟨_, ha₀, t, ht, old ha₀ ⟨w, _, rfl, ?_⟩ hfor⟩
    rcases hphase with hp | hp <;> rw [hp] <;> rfl
  rcases mem_pending_turned hth ha ha' with ha' | ha'
  · exact .inl (gave ha' ht hfor)
  · rcases List.mem_append.1 ha' with ha' | ha'
    · obtain ⟨-, hgave | ⟨w, c, rfl, rfl⟩⟩ := Action.gaveUp_of_next hshift.event hs.sound
        (fun d hd => hs.known d (mem_duties.2 ⟨a, hmem, hd⟩)) hrun ha' ht
      · exact .inl (gave hmem hgave hfor)
      · exact .inr ⟨w, c, rfl, old hmem ⟨w, _, rfl, rfl⟩ hfor⟩
    · obtain ⟨w, -, rfl⟩ := List.mem_map.1 ha'
      cases ht

/-- A step of a thread in which nobody intrudes. -/
theorem step (h : s.Tenured) (hs : s.Lawful) (hno : s.intrudes (.step i ch) = false)
    (hstep : s.step i ch = some s') : s'.Tenured := by
  obtain ⟨th, a, rest, turn, hth, ha, hrun, rfl, hshift⟩ := hs.shift hstep
  have hmem : a ∈ s.pending := mem_pending.2 ⟨i, th, hth, ha ▸ List.mem_cons_self⟩
  have hclaim {m : MethodId} (hfree : s.ledger.claimed m = false)
      (hset : (s.turned i turn).ledger.claimed m = true) : s.forsaken m = false := by
    obtain ⟨q, rfl, rfl⟩ := h.claim_of_step hth ha hrun hshift hfree hset
    by_contra hm
    have hintrudes : s.intrudes (.step i ch) = true :=
      (intrudes_step hth ha).2 ⟨q, rfl, by simpa using hm⟩
    rw [hno] at hintrudes
    cases hintrudes
  refine ⟨?_, fun m hm => ?_, fun m => ?_, fun hth' => h.head_turned hs hth ha hrun hshift hth'⟩
  · cases hgave : a.gaveUp? with
    | some t => exact h.claimed_gaveUp hs hth ha hgave hrun hshift
    | none =>
      by_cases hgive : ∃ w c, a = .worker w (.giveUp c)
      · obtain ⟨w, c, rfl⟩ := hgive
        exact h.claimed_giveUp hs hth ha hrun
      · exact h.claimed_plain hs hth ha hgave (fun w c hc => hgive ⟨w, c, hc⟩) hrun hshift
  · obtain hold | ⟨w, c, rfl, hfor⟩ := forsaken_turned hs hth ha hrun hshift hm
    · by_contra hset
      have := hclaim (h.quiet m hold) (by simpa using hset)
      rw [hold] at this
      cases this
    · obtain ⟨hw, ht⟩ := hs.known _ (mem_duties.2 ⟨_, hmem, rfl⟩)
      obtain ⟨worker, unit, -, -, hwork⟩ := Action.worker_run hs.sound hw hrun
      obtain ⟨x, hx⟩ := Table.exists_getElem? (ht _ rfl)
      obtain ⟨-, -, hledger⟩ := WorkerStep.run_giveUp hx hwork
      rw [Ledger.isFor_of_some hx, decide_eq_true_eq] at hfor
      rw [← hfor, show (s.turned i turn).ledger = s.ledger.claim x.method false from hledger,
        Ledger.claimed_claim_false]
  · obtain hle | ⟨hfree, hset, heq⟩ := hshift.claimants_le hs.sound hs.known m
    · exact hle.trans (h.single m)
    · rw [heq, ← claimants_tenures (hclaim hfree hset), h.claimed m, hfree, Bool.toNat_false]

theorem call (h : s.Tenured) (c : Call) (n : Nat) : (s.call c n).Tenured := by
  have hnone : ∀ a ∈ c.agenda, a.gaveUp? = none := by
    cases c <;> simp [Call.agenda, Action.gaveUp?]
  have htenures : (s.call c n).tenures = s.tenures := by
    have hcall : c.agenda.filterMap Action.tenure? = [] := by cases c <;> rfl
    rw [tenures, System.call, pending_spawn, Multiset.filterMap_add, Multiset.filterMap_coe, hcall]
    exact Multiset.add_zero _
  refine ⟨htenures ▸ h.claimed, fun m hm => ?_, fun m => ?_, fun {j th} hth => ?_⟩
  · obtain ⟨a, ha, t, ht, hfor⟩ := forsaken_iff.1 hm
    rcases mem_pending_call.1 ha with ha | ha
    · exact h.quiet m (forsaken_iff.2 ⟨a, ha, t, ht, hfor⟩)
    · rw [hnone a ha] at ht
      cases ht
  · rw [duties_call]
    exact h.single m
  · rcases thread_call_cases hth with hold | rfl
    · exact h.head hold
    · exact fun a ha => hnone a (List.mem_of_mem_tail ha)

theorem operate (h : s.Tenured) (hs : s.Lawful) (o : Operation) : (s.operate o).Tenured := by
  have hshift := s.shift_operate o
  have hext := hshift.event.extends
  have hledger : (s.operate o).ledger.stocks = s.ledger.stocks ∧
      ∀ m, (s.operate o).ledger.claimed m = s.ledger.claimed m := by
    rcases s.broker.ledger_operate o with heq | heq <;> rw [ledger, ledger, System.operate, heq]
    · exact ⟨rfl, fun _ => rfl⟩
    · exact ⟨rfl, Ledger.claimed_know _⟩
  refine ⟨?_, fun m hm => ?_, fun m => ?_, h.head⟩
  · exact h.claimed.mono hs.sound (fun d hd => hs.known d (mem_duties_of_tenures hd)) hext
      hledger.1 hledger.2
  · obtain ⟨a, ha, t, ht, hfor⟩ := forsaken_iff.1 hm
    obtain ⟨w, s₀, rfl, -, hphase⟩ := Action.post_of_gaveUp ht
    obtain ⟨-, hknown⟩ := hs.known _ (mem_duties.2 ⟨_, ha, rfl⟩)
    rw [Ledger.isFor_mono hext
      (hknown t (by rcases hphase with hp | hp <;> rw [hp] <;> rfl))] at hfor
    rw [hledger.2]
    exact h.quiet m (forsaken_iff.2 ⟨_, ha, t, ht, hfor⟩)
  · obtain hle | ⟨hfree, hset, -⟩ := hshift.claimants_le hs.sound hs.known m
    · exact hle.trans (h.single m)
    · rw [hledger.2, hfree] at hset
      cases hset

/-- A move by which nobody intrudes. -/
theorem move (h : s.Tenured) (hs : s.Lawful) {mv : Move} (hno : s.intrudes mv = false) :
    (s.move mv).Tenured := by
  cases mv with
  | call c n => exact h.call c n
  | operate o => exact h.operate hs o
  | step i ch =>
    cases hstep : s.step i ch with
    | none => simpa [System.move, hstep] using h
    | some s' => simpa [System.move, hstep] using h.step hs hno hstep

/-- In a run in which nobody intrudes one has the claim on each method that is claimed. -/
theorem foldl_undisturbed {ms : List Move} (h : s.Tenured) (hs : s.Lawful)
    (hms : s.undisturbed ms = true) : (ms.foldl System.move s).Tenured := by
  induction ms generalizing s with
  | nil => exact h
  | cons mv ms ih =>
    rw [undisturbed, Bool.and_eq_true, Bool.not_eq_true'] at hms
    exact ih (h.move hs hms.1) (hs.move mv) hms.2

end Tenured

theorem tenured_launch {b : Broker} (hb : b.Fresh) (hmethods : b.methods = .empty) :
    (launch b).Tenured := by
  have hclaimants (m : MethodId) : claimants (launch b).ledger (launch b).duties m = 0 := by
    have hwaiting : b.ledger.waiting (b.ledger.isFor m) = 0 :=
      Table.total_eq_zero_iff.2 fun u st hst => by
        rw [(hb.stock hst).1, TaskList.Holds.empty.toList_eq]
        rfl
    rw [ledger_launch, claimants, hwaiting]
    rfl
  have hquiet : ∀ a ∈ (launch b).pending, a.gaveUp? = none := by
    intro a ha
    rw [mem_pending_launch ha]
    rfl
  have hclaimed (m : MethodId) : (launch b).ledger.claimed m = false := by
    rw [ledger_launch]
    simp [Ledger.claimed, hmethods]
  refine ⟨fun m => ?_, fun m _ => hclaimed m, fun m => ?_, fun {j th} hth => ?_⟩
  · rw [tenures_eq_duties hquiet, hclaimants, hclaimed, Bool.toNat_false]
  · rw [hclaimants]
    exact Nat.zero_le 1
  · rw [agenda_launch hth]
    exact fun a ha => absurd ha List.not_mem_nil

end System

end JitBroker
