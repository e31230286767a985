import JitBroker.Proofs.Rest.Order
import JitBroker.Proofs.Shutdown.Closing

/-!
# Requesters of judged tasks

Whoever disables compilation has the requesters woken whose tasks are at back-ends. A back-end may
return meanwhile, and its worker be held up at the pause gate, with the reports still to be judged.
Its requester is woken all the same (`System.Reachable.judged`).
-/

namespace JitBroker

variable {me : Caller} {ch : Choices} {b : Broker} {turn : Turn}

namespace WorkerStep

variable {w : WorkerId} {worker : Worker} {unit : TierUnit} {s : WorkerStep} {c c' : CompileRun}

theorem eq_of_obey_judge {task : Task} {move : BackendMove}
    (h : obey b w c' task unit move = some turn) (hc : .worker w (.judge c) ∈ turn.next) :
    c' = c := by
  cases move with
  | finish =>
    rw [obey] at h
    split at h
    · obtain rfl := Option.some.inj h
      rcases List.mem_pair.1 hc with hc | hc <;> cases hc
      rfl
    · obtain rfl := Option.some.inj h
      cases List.mem_singleton.1 hc
  | call k =>
    obtain rfl := Option.some.inj h
    rcases List.mem_append.1 hc with hc | hc
    · cases (Call.none_of_mem hc).2.2.1
    · cases List.mem_singleton.1 hc
  | _ =>
    rw [obey] at h
    repeat' split at h
    all_goals
      obtain rfl := Option.some.inj h
      simp at hc

/-- Only a back-end that returns leaves reports to judge. -/
theorem compile_of_judge (h : s.run me ch b w worker unit = some turn)
    (hc : .worker w (.judge c) ∈ turn.next) : s = .compile c := by
  cases s with
  | compile c' =>
    rw [run] at h
    split at h
    · obtain rfl := Option.some.inj h
      cases List.mem_singleton.1 hc
    · cases h
    · exact congrArg compile (eq_of_obey_judge h hc)
  | choose =>
    exfalso
    rw [run] at h
    repeat' split at h
    all_goals obtain rfl := Option.some.inj h
    all_goals first
      | cases List.mem_singleton.1 hc
      | (rcases List.mem_append.1 hc with hc | hc
         · cases (Action.Chore.stale (b := b) _ _ hc).urgency
         · cases List.mem_singleton.1 hc)
  | _ =>
    exfalso
    rw [run] at h
    (try simp only at h)
    repeat' split at h
    all_goals first
      | cases h; done
      | skip
    all_goals
      obtain rfl := Option.some.inj h
      simp at hc

end WorkerStep

/-- Only the worker whose back-end returns is to judge the reports. -/
theorem Action.eq_of_judge {a : Action} {w : WorkerId} {c : CompileRun} (hsound : b.ledger.Sound)
    (hknown : ∀ d ∈ a.duty?, d.Known b.ledger) (hturn : turn.Ordered b a)
    (h : a.run me ch b = some turn) (hc : .worker w (.judge c) ∈ turn.next) :
    a = .worker w (.compile c) := by
  have hworker : a.worker? = some w := by
    rcases (hturn.succeeds _ hc).worker with hnone | heq
    · cases hnone
    · exact heq.symm
  cases a with
  | worker w' s =>
    obtain rfl := Option.some.inj hworker
    obtain ⟨worker, unit, -, -, h⟩ := worker_run hsound (hknown _ rfl).1 h
    rw [WorkerStep.compile_of_judge h hc]
  | _ => cases hworker

namespace System

variable {s s' first : System} {i : ThreadId}

/-- When compilation is disabled, the requester of a task that a back-end has returned from is still
to be woken, or its bell has rung. -/
def Judged (s : System) : Prop := s.broker.disabled = true →
  ∀ {w : WorkerId} {c : CompileRun}, .worker w (.judge c) ∈ s.pending →
    Roused s.ledger s.duties w c.task

/-- A step leaves requesters to be woken, or wakes them. -/
theorem Judged.step (h : s.Judged) (hs : s.Orderly) (ho : s.Ordered)
    (hstep : s.step i ch = some s') : s'.Judged := by
  obtain ⟨th, a, rest, turn, hth, ha, hrun, rfl, hshift⟩ := hs.lawful.shift hstep
  intro _ w c hc
  rcases hdis : s.broker.disabled with _ | _
  -- Whoever disables compilation is to list the workers.
  · rcases hshift.event.disabled_eq with heq | ⟨-, -, hnew⟩
    · rename_i hdis'
      exact absurd (hdis.symm.trans (heq.symm.trans hdis')) Bool.false_ne_true
    · exact .inl (hshift.mem_of_new (hnew ▸ List.mem_append_right _ (List.mem_singleton_self _)))
  · have hk := hs.lawful.known
    have roused {p : Phase} (hr : Roused s.ledger s.duties w c.task) (hp : .post w p ∈ s.duties)
        (hshown : p.shown? = some c.task) :=
      hr.shift hk hs.posted hs.heard hshift hdis hp hshown
    rcases mem_turned_cases hth ha hc (fun w h => by cases h) with hold | hnext
    · exact roused (h hdis hold) (mem_duties.2 ⟨_, hold, rfl⟩) rfl
    · have hmem : a ∈ s.pending := mem_pending.2 ⟨i, th, hth, ha ▸ List.mem_cons_self⟩
      have hknown := fun d hd => hk d (mem_duties.2 ⟨a, hmem, hd⟩)
      have hturn := Action.ordered hs.lawful.sound
        (fun d hd => hs.lawful.ready d (mem_duties.2 ⟨a, hmem, hd⟩)) (ho.unit a hmem) hrun
      obtain rfl := Action.eq_of_judge hs.lawful.sound hknown hturn hrun hnext
      have hinside : .post w (.inside c.task) ∈ s.duties := mem_duties.2 ⟨_, hmem, rfl⟩
      exact roused (hs.closing.woken hdis hinside) hinside rfl

/-- When compilation is disabled, requesters whose tasks are to be judged are woken. -/
theorem Reachable.judged (hb : b.Fresh) (h : Reachable (launch b) s) : s.Judged := by
  refine h.invariant (fun hdis => absurd (hb.disabled.symm.trans hdis) Bool.false_ne_true)
    (fun hr h hstep => h.step (hr.orderly hb) (hr.ordered hb) hstep)
    (fun c n _ h hdis w k hk => ?_) (fun {s} o hr h hdis w k hk => ?_)
  · rcases mem_pending_call.1 hk with hk | hk
    · rw [ledger_call, duties_call]
      exact h hdis hk
    · cases (Call.none_of_mem hk).2.2.1
  · have ho := hr.orderly hb
    have hdis : s.broker.disabled = true := (s.broker.operate_steady o).disabled.symm.trans hdis
    exact (h hdis hk).shift ho.lawful.known ho.posted ho.heard (s.shift_operate o) hdis
      (mem_duties.2 ⟨_, hk, rfl⟩) rfl

end System

end JitBroker
