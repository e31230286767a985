import JitBroker.Proofs.Ledger.Locks
import JitBroker.Proofs.Rest.Alert

/-!
# Standstill

A system is *at rest* (`System.AtRest`) when no thread can make a step, whatever choices are
supplied to it, unless its time is over or its back-end does something. What then holds up the
threads is not a lock: an action under a lock is always run (`Action.run_of_locked`), and whoever
has a lock is at the head of its agenda, so no lock is taken (`System.AtRest.unlocked`).

* `System.atRest_iff`: whether a system is at rest can be computed;
* `System.AtRest.waits`: the first action of each thread waits for one of the few things that an
  action can wait for (`Action.Waits`): a bell, the end of a thread or a back-end;
* `System.AtRest.urgency_ne`: nothing is left to be done that is held up by locks only;
* `System.AtRest.exists_worker`: each worker that has a step to make waits for something, is inside
  a compile, or is parked before that step.
-/

namespace JitBroker

variable {me : Caller} {ch : Choices} {b : Broker} {a a' : Action}

/-! ### What holds up an action -/

/-- What an action waits for that is not held up by a lock. -/
def Action.Waits (b : Broker) : Action → Prop
  | .request (.asleep _ t bell _) => ∃ x, b.tasks[t]? = some x ∧ x.bell = bell
  | .control (.join _) => True
  | .gate (.parked bell) => bell = b.gate.bell
  | .worker w .start => ∃ worker x, b.workers[w]? = some worker ∧ b.units[worker.unit]? = some x ∧
      x.init = .running
  | .worker w (.asleep bell _) => ∃ worker x, b.workers[w]? = some worker ∧
      b.units[worker.unit]? = some x ∧ x.queue.bell = bell
  | .worker _ .starting | .worker _ (.compile _) | .fault => True
  | _ => False

/-- An action that is run under a lock that was taken before is not held up. -/
theorem Action.run_of_locked (h : a.isLocked = true) : a.run me ch b ≠ none := by
  intro hrun
  cases a with
  | request s =>
    rw [run] at hrun
    cases s <;> cases h <;> rw [RequestStep.run] at hrun <;> (try simp only at hrun) <;>
      repeat' split at hrun
    all_goals cases hrun
  | worker w s =>
    rw [run] at hrun
    repeat' split at hrun
    · cases hrun
    · cases hrun
    · cases s <;> cases h <;> rw [WorkerStep.run] at hrun <;> repeat' split at hrun
      all_goals cases hrun
  | crew s =>
    rw [run] at hrun
    rcases s with u | ⟨u, n⟩ | ⟨u, n, k⟩ | ⟨u, n⟩ | ⟨u, n⟩ | us | ⟨u, _ | n, us⟩ | _ <;> cases h <;>
      rw [CrewStep.run] at hrun <;> repeat' split at hrun
    all_goals cases hrun
  | _ => cases h

/-- Nothing happens of itself: no time is over, and no back-end does anything. -/
structure Choices.Quiet (ch : Choices) : Prop where
  /-- No time is over. -/
  timeout : ch.timeout = false
  /-- No back-end has started. -/
  started : ch.started = none
  /-- No back-end that compiles does anything. -/
  move : ch.move = none

/-- No lock is taken. -/
structure Broker.Unlocked (b : Broker) : Prop where
  /-- That of no queue. -/
  queue : ∀ {u : UnitId} {x : TierUnit}, b.units[u]? = some x → x.queue.isFree = true
  /-- Nor that of the crews. -/
  crew : b.crewLock = none

theorem RequestStep.waits_of_none {s : RequestStep} (hch : ch.Quiet) (hb : b.Unlocked)
    (h : s.run me ch b = none) : (Action.request s).Waits b := by
  cases s with
  | lock q =>
    rw [run] at h
    split at h
    · cases h
    · rw [if_pos (hb.queue ‹_›)] at h
      cases h
  | asleep q t bell watch =>
    rw [run] at h
    split at h
    · cases h
    · rename_i x hx
      split at h
      · unfold wakeUp leave at h
        repeat' split at h
        all_goals cases h
      · rename_i hsame
        refine ⟨x, hx, ?_⟩
        simpa [hch.timeout] using hsame
  | _ =>
    rw [run] at h
    (try simp only at h)
    (try unfold leave at h)
    repeat' split at h
    all_goals cases h

theorem TaskStep.run_ne_none (s : TaskStep) : s.run b ≠ none := by
  intro h
  cases s <;> rw [run] at h <;> (try simp only at h) <;> repeat' split at h
  all_goals cases h

theorem GateStep.waits_of_none {s : GateStep} (h : s.run b = none) : (Action.gate s).Waits b := by
  cases s <;> rw [run] at h <;> repeat' split at h
  all_goals cases h
  exact Eq.symm ‹_›

theorem ControlStep.waits_of_none {s : ControlStep} (hb : b.Unlocked) (h : s.run me b = none) :
    (Action.control s).Waits b := by
  have hcrew : b.crewLock.isSome = false := by rw [hb.crew, Option.isSome_none]
  cases s with
  | join w => trivial
  | drain u | ring u =>
    rw [run] at h
    split at h
    · cases h
    · rw [if_pos (hb.queue ‹_›)] at h
      repeat' split at h
      all_goals cases h
  | again ds summary =>
    cases ds <;> rw [run] at h <;> repeat' split at h
    all_goals cases h
  | _ =>
    rw [run] at h
    (try simp only [hcrew, Bool.false_eq_true, if_false] at h)
    repeat' split at h
    all_goals cases h

theorem CrewStep.waits_of_none {s : CrewStep} (hb : b.Unlocked) (h : s.run me ch b = none) :
    (Action.crew s).Waits b := by
  rcases s with u | ⟨u, n⟩ | ⟨u, n, k⟩ | ⟨u, n⟩ | ⟨u, n⟩ | (_ | ⟨u, us⟩) | ⟨u, _ | n, us⟩ | _ <;>
    rw [run] at h <;>
      (try simp only [hb.crew, Option.isSome_none, Bool.false_eq_true, if_false] at h) <;>
      repeat' split at h
  all_goals cases h

theorem WorkerStep.waits_of_none {w : WorkerId} {worker : Worker} {unit : TierUnit}
    {s : WorkerStep} (hch : ch.Quiet) (hb : b.Unlocked) (hw : b.workers[w]? = some worker)
    (hu : b.units[worker.unit]? = some unit) (h : s.run me ch b w worker unit = none) :
    (Action.worker w s).Waits b := by
  have hfree := hb.queue hu
  have hcrew : b.crewLock.isSome = false := by rw [hb.crew, Option.isSome_none]
  cases s with
  | starting | compile c => trivial
  | start =>
    rw [run] at h
    split at h
    · cases h
    · exact ⟨worker, unit, hw, hu, ‹_›⟩
    all_goals cases h
  | asleep bell due =>
    rw [run, hfree, hch.timeout] at h
    simp only [Bool.not_true, Bool.false_eq_true, if_false] at h
    split at h
    · cases h
    · exact ⟨worker, unit, hw, hu, not_not.1 ‹_›⟩
  | _ =>
    rw [run] at h
    (try simp only [hfree, hcrew, Bool.false_eq_true, if_true, if_false] at h)
    repeat' split at h
    all_goals cases h

/-- An action that is not run waits for something, where no lock is taken. -/
theorem Action.waits_of_none (hch : ch.Quiet) (hb : b.Unlocked) (h : a.run me ch b = none) :
    a.Waits b := by
  cases a with
  | request s => exact RequestStep.waits_of_none hch hb h
  | task s => exact absurd h s.run_ne_none
  | control s => exact ControlStep.waits_of_none hb h
  | gate s => exact GateStep.waits_of_none h
  | worker w s =>
    rw [run] at h
    repeat' split at h
    · cases h
    · cases h
    · exact WorkerStep.waits_of_none hch hb ‹_› ‹_› h
  | crew s => exact CrewStep.waits_of_none hb h
  | answer r => cases h
  | fault => trivial

/-- Whether an action is held up does not depend on what an external back-end says of its progress,
nor on whether threads can be started. -/
theorem Action.run_eq_none_of_quiet (hch : ch.Quiet) (h : a.run me {} b = none) :
    a.run me ch b = none := by
  cases a with
  | request s =>
    cases s with
    | attend q t =>
      rw [run, RequestStep.run] at h
      simp only at h
      unfold RequestStep.leave at h
      repeat' split at h
      all_goals cases h
    | asleep q t bell watch =>
      rw [run, RequestStep.run] at h ⊢
      split at h
      · cases h
      · rename_i x hx
        rw [hch.timeout]
        split at h
        · unfold RequestStep.wakeUp RequestStep.leave at h
          repeat' split at h
          all_goals cases h
        · rename_i hsame
          exact if_neg hsame
    | _ => exact h
  | worker w s =>
    rw [run] at h ⊢
    repeat' split at h
    · cases h
    · cases h
    · cases s with
      | starting => rw [WorkerStep.run, hch.started]
      | compile c =>
        rw [WorkerStep.run] at h ⊢
        rw [hch.move]
        exact h
      | asleep bell due =>
        rw [WorkerStep.run] at h ⊢
        rw [hch.timeout]
        exact h
      | _ => exact h
  | crew s =>
    rcases s with u | ⟨u, n⟩ | ⟨u, n, k⟩ | ⟨u, n⟩ | ⟨u, n⟩ | (_ | ⟨u, us⟩) | ⟨u, _ | n, us⟩ | _
    case hire | staff.succ =>
      rw [run, CrewStep.run] at h
      repeat' split at h
      all_goals cases h
    all_goals exact h
  | _ => exact h

/-! ### States at rest -/

/-- The holder of the lock of a queue runs its action under it. -/
theorem Action.isLocked_of_holds {l : Ledger} {u : UnitId} {d : Duty} (hd : a.duty? = some d)
    (h : d.holds l u = true) : a.isLocked = true := by
  cases a with
  | request s => cases s <;> cases hd <;> first | rfl | cases h
  | task s => cases s with
    | complete t who => cases who <;> cases hd <;> cases h
    | _ => cases hd <;> cases h
  | control s => cases s <;> cases hd <;> cases h
  | worker w s => cases s <;> cases hd <;> first | rfl | cases h
  | _ => cases hd

/-- Nothing prompt comes after an action that is not. -/
theorem Urgency.eq_of_allows {x : Urgency} (h : x.allows a = true) (ha : a.urgency = .prompt) :
    x = .prompt := by
  cases x with
  | prompt => rfl
  | worker => cases h
  | gate | patient =>
    cases a with
    | worker w s => cases ha
    | _ => simp [allows, ha] at h

/-- What waits for something is not prompt. -/
theorem Action.Waits.urgency_ne (h : a.Waits b) : a.urgency ≠ .prompt := by
  intro ha
  cases a with
  | control s =>
    cases s <;> cases h
    cases ha
  | crew s => cases s <;> cases h
  | task s => cases h
  | _ => cases ha

namespace System

variable {s : System} {i : ThreadId} {th : Thread} {rest : List Action}

/-- An action is the first of its thread, or comes after the first one. -/
theorem Ordered.exists_head (ho : s.Ordered) (hth : s.threads[i]? = some th) (ha : a ∈ th.agenda) :
    ∃ a₀ rest, th.agenda = a₀ :: rest ∧ (a = a₀ ∨ a₀.precedes a = true) := by
  have horder := ho.order hth
  cases hagenda : th.agenda with
  | nil =>
    rw [hagenda] at ha
    cases ha
  | cons a₀ rest =>
    rw [hagenda] at ha horder
    exact ⟨a₀, rest, rfl, (List.mem_cons.1 ha).imp_right ((List.pairwise_cons.1 horder).1 a)⟩

/-- No thread can make a step unless time runs out, a guard is dropped or a back-end does
something. -/
def AtRest (s : System) : Prop := ∀ (i : ThreadId) (ch : Choices), ch.Quiet → s.step i ch = none

theorem step_eq_none_iff : s.step i ch = none ↔
    ∀ th a rest, s.threads[i]? = some th → th.agenda = a :: rest →
      a.run (th.caller i) ch s.broker = none := by
  constructor
  · intro h th a rest hth ha
    by_contra hrun
    obtain ⟨turn, hrun⟩ := Option.ne_none_iff_exists'.1 hrun
    rw [step_eq_some_iff.2 ⟨th, a, rest, turn, hth, ha, hrun, rfl⟩] at h
    cases h
  · intro h
    by_contra hstep
    obtain ⟨s', hstep⟩ := Option.ne_none_iff_exists'.1 hstep
    obtain ⟨th, a, rest, turn, hth, ha, hrun, -⟩ := step_eq_some_iff.1 hstep
    cases (h th a rest hth ha).symm.trans hrun

/-- It is enough to look at one step of each thread. -/
theorem atRest_iff : s.AtRest ↔ ∀ i < s.threads.size, s.step i {} = none := by
  constructor
  · exact fun h i _ => h i {} ⟨rfl, rfl, rfl⟩
  · refine fun h i ch hch => step_eq_none_iff.2 fun th a rest hth ha => ?_
    have hnone := step_eq_none_iff.1 (h i (Table.lt_size_of_getElem? hth)) th a rest hth ha
    exact Action.run_eq_none_of_quiet hch hnone

instance : Decidable s.AtRest := decidable_of_iff _ atRest_iff.symm

namespace AtRest

/-- No action that is the first of a thread is run. -/
theorem run_eq_none (h : s.AtRest) (hth : s.threads[i]? = some th) (ha : th.agenda = a :: rest) :
    a.run (th.caller i) {} s.broker = none :=
  step_eq_none_iff.1 (h i {} ⟨rfl, rfl, rfl⟩) th a rest hth ha

/-- Nobody is to run an action under a lock. -/
theorem isLocked_eq_false (h : s.AtRest) (ho : s.Ordered) (ha : a ∈ s.pending) :
    a.isLocked = false := by
  obtain ⟨i, th, hth, ha⟩ := mem_pending.1 ha
  obtain ⟨a₀, rest, hagenda, rfl | hprecedes⟩ := ho.exists_head hth ha
  · exact Bool.eq_false_of_not_eq_true fun hl =>
      Action.run_of_locked hl (h.run_eq_none hth hagenda)
  · rw [Action.precedes, Bool.and_eq_true, Bool.not_eq_true'] at hprecedes
    exact hprecedes.1

/-- No lock is taken. -/
theorem unlocked (h : s.AtRest) (ho : s.Ordered) (hg : Guarded s.ledger s.duties)
    (halert : s.Alert) : s.broker.Unlocked where
  queue {u x} hx := by
    by_contra hlocked
    have hstock : s.ledger.stocks[u]? = some x.queue.stock := by simp [ledger, hx]
    have hcount := hg u _ hstock
    rw [CompileQueue.locked_stock, Bool.eq_false_of_not_eq_true hlocked, Bool.not_false,
      Bool.toNat_true] at hcount
    obtain ⟨d, hd, hholds⟩ := Multiset.countP_pos.1 (hcount ▸ Nat.one_pos)
    obtain ⟨a, ha, hduty⟩ := mem_duties.1 hd
    have hlocked := Action.isLocked_of_holds hduty hholds
    exact Bool.false_ne_true ((h.isLocked_eq_false ho ha).symm.trans hlocked)
  crew := by
    by_contra hlocked
    obtain ⟨c, hc, hl⟩ := halert.crewLock (Option.isSome_iff_ne_none.2 hlocked)
    exact Bool.false_ne_true ((h.isLocked_eq_false ho hc).symm.trans hl)

/-- The first action of each thread waits for something. -/
theorem waits (h : s.AtRest) (hb : s.broker.Unlocked) (hth : s.threads[i]? = some th)
    (ha : th.agenda = a :: rest) : a.Waits s.broker :=
  Action.waits_of_none ⟨rfl, rfl, rfl⟩ hb (h.run_eq_none hth ha)

/-- Nobody has anything to do that is held up by nothing but locks. -/
theorem urgency_ne (h : s.AtRest) (ho : s.Ordered) (hb : s.broker.Unlocked) (ha : a ∈ s.pending) :
    a.urgency ≠ .prompt := by
  obtain ⟨i, th, hth, ha⟩ := mem_pending.1 ha
  obtain ⟨a₀, rest, hagenda, rfl | hprecedes⟩ := ho.exists_head hth ha
  · exact (h.waits hb hth hagenda).urgency_ne
  · rw [Action.precedes, Bool.and_eq_true] at hprecedes
    exact fun hprompt => (h.waits hb hth hagenda).urgency_ne
      (Urgency.eq_of_allows hprecedes.2 hprompt)

/-- A worker waits for something, or its back-end compiles, or it is parked before it goes on. -/
theorem exists_worker (h : s.AtRest) (ho : s.Ordered) (hb : s.broker.Unlocked) {w : WorkerId}
    {step : WorkerStep} (ha : .worker w step ∈ s.pending) :
    ∃ (i : ThreadId) (th : Thread), s.threads[i]? = some th ∧ th.worker = some w ∧
      .worker w step ∈ th.agenda ∧ ((Action.worker w step).Waits s.broker ∨
        th.agenda.head? = some (.gate (.parked s.broker.gate.bell)) ∧ step.afterGate = true) := by
  obtain ⟨i, th, hth, ha⟩ := mem_pending.1 ha
  have hworker : th.worker = some w := by
    rcases ho.worker hth _ ha with hnone | heq
    · cases hnone
    · exact heq.symm
  refine ⟨i, th, hth, hworker, ha, ?_⟩
  obtain ⟨a₀, rest, hagenda, rfl | hprecedes⟩ := ho.exists_head hth ha
  · exact .inl (h.waits hb hth hagenda)
  have hwaits := h.waits hb hth hagenda
  rw [Action.precedes, Bool.and_eq_true] at hprecedes
  obtain ⟨-, hallows⟩ := hprecedes
  cases hurgency : a₀.urgency with
  | prompt => exact absurd hurgency hwaits.urgency_ne
  | worker =>
    rw [hurgency] at hallows
    cases hallows
  | gate =>
    rw [hurgency] at hallows
    obtain ⟨g, rfl⟩ : ∃ g, a₀ = .gate g := by
      cases a₀ with
      | gate g => exact ⟨g, rfl⟩
      | control s => cases hs : s.isPrompt <;> simp [Action.urgency, hs] at hurgency
      | crew s => cases hs : s.isPrompt <;> simp [Action.urgency, hs] at hurgency
      | _ => cases hurgency
    cases g with
    | parked bell =>
      obtain rfl : bell = s.broker.gate.bell := hwaits
      exact .inr ⟨by rw [hagenda, List.head?_cons], hallows⟩
    | _ => cases hwaits
  | patient =>
    rw [hurgency] at hallows
    cases step with
    | compile c => exact .inl trivial
    | _ => cases hallows

end AtRest

end System

end JitBroker
