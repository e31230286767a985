import JitBroker.Proofs.Ledger.Posts
import JitBroker.Proofs.Rest.Alert

/-!
# Crews that are manned

The workers that a crew lists are at work, until compilation is to be disabled:

* a worker goes on with another step, unless it is to leave for good, or retires and is in its crew
  no more (`WorkerStep.goesOn`);
* so whoever is in a crew has a step before it, or compilation is disabled, or somebody is to do
  that (`System.Manned.live`).
-/

namespace JitBroker

variable {me : Caller} {ch : Choices} {b : Broker} {turn : Turn}

/-! ### Going on -/

namespace WorkerStep

variable {w : WorkerId} {worker : Worker} {unit : TierUnit} {s : WorkerStep}

/-- Whether a worker goes on after a turn. -/
def GoesOn (w : WorkerId) (turn : Turn) : Prop :=
  ∃ s, .worker w s ∈ turn.next ∧ s.phase ≠ .away

/-- Why a worker may leave: workers are to leave, or will be, or it retires. -/
def Leaves (b : Broker) (w : WorkerId) (worker : Worker) (unit : TierUnit) (turn : Turn) : Prop :=
  b.exiting = true ∨ .control .disable ∈ turn.next ∨
    b.mayRetire w worker unit = true ∧ turn.broker = b.retireLast worker.unit w

/-- A worker that has a task goes on with it. -/
theorem task_goesOn {t : TaskId} {task : Task} {m : Method} (ht : s.phase.task? = some t)
    (htask : b.tasks[t]? = some task) (hm : b.methods[task.method]? = some m)
    (h : s.run me ch b w worker unit = some turn) : GoesOn w turn := by
  cases s with
  | compile c =>
    cases ht
    rw [run, htask] at h
    cases hmove : ch.move with
    | none => simp [hmove] at h
    | some move =>
      simp only [hmove] at h
      cases move with
      | call call =>
        obtain rfl := Option.some.inj h
        exact ⟨_, List.mem_append_right _ (List.mem_singleton_self _), Phase.noConfusion⟩
      | checkpoint =>
        obtain rfl := Option.some.inj h
        exact ⟨_, List.mem_cons_of_mem _ (List.mem_singleton_self _), Phase.noConfusion⟩
      | _ =>
        rw [obey] at h
        repeat' split at h
        all_goals
          obtain rfl := Option.some.inj h
          first
            | exact ⟨_, List.mem_singleton_self _, Phase.noConfusion⟩
            | exact ⟨_, List.mem_cons_of_mem _ (List.mem_singleton_self _), Phase.noConfusion⟩
  | judge c =>
    obtain rfl := Option.some.inj h
    exact ⟨_, List.mem_append_right _ (List.mem_singleton_self _), Phase.noConfusion⟩
  | publish f =>
    obtain rfl := Option.some.inj h
    exact ⟨_, List.mem_cons_of_mem _ (List.mem_singleton_self _), Phase.noConfusion⟩
  | _ =>
    cases ht <;> rw [run] at h <;> (try simp only [htask, hm] at h) <;> repeat' split at h
    all_goals first
      | cases h
    all_goals exact ⟨_, List.mem_singleton_self _, Phase.noConfusion⟩

/-- A worker without a task goes on, unless there is a reason to leave. -/
theorem idle_goesOn (hu : b.units[worker.unit]? = some unit) (hsound : b.ledger.Sound)
    (ht : s.phase.task? = none) (hs : s.phase ≠ .away)
    (h : s.run me ch b w worker unit = some turn) :
    GoesOn w turn ∨ Leaves b w worker unit turn := by
  cases s with
  | choose =>
    have hstock : b.ledger.stocks[worker.unit]? = some unit.queue.stock := by simp [hu]
    obtain ⟨chosen, stale, b', hselect, -⟩ :=
      b.exists_select worker.unit unit (hsound.list hstock)
    left
    rw [run, hselect] at h
    split at h
    · obtain rfl := Option.some.inj h
      exact ⟨_, List.mem_singleton_self _, Phase.noConfusion⟩
    · simp only at h
      split at h
      · cases chosen <;> obtain rfl := Option.some.inj h <;>
          exact ⟨_, List.mem_singleton_self _, Phase.noConfusion⟩
      · obtain rfl := Option.some.inj h
        refine ⟨_, List.mem_append_right _ (List.mem_singleton_self _), ?_⟩
        cases chosen <;> exact Phase.noConfusion
  | settle =>
    obtain rfl := Option.some.inj h
    exact .inl ⟨_, List.mem_append_right _ (List.mem_singleton_self _), Phase.noConfusion⟩
  | retire =>
    rw [run] at h
    repeat' split at h
    all_goals first
      | cases h
    · exact .inr (.inr (.inr ⟨‹_›, rfl⟩))
    all_goals exact .inl ⟨_, List.mem_singleton_self _, Phase.noConfusion⟩
  | retired | quit => exact absurd rfl hs
  | start | starting | round | fetch | staying | rest | look | lookStaying | lookEmpty | asleep _ _
  | overdue =>
    rw [run] at h
    repeat' split at h
    all_goals first
      | cases h
    all_goals first
      | exact .inl ⟨_, List.mem_singleton_self _, Phase.noConfusion⟩
      | exact .inl ⟨_, List.mem_cons_of_mem _ (List.mem_singleton_self _), Phase.noConfusion⟩
      | exact .inr (.inl ‹_›)
      | exact .inr (.inr (.inl List.mem_cons_self))
  | _ => cases ht

/-- A worker that has not left goes on, unless there is a reason to leave. -/
theorem goesOn (hu : b.units[worker.unit]? = some unit) (hsound : b.ledger.Sound)
    (htask : ∀ t ∈ s.phase.task?, t < b.tasks.size) (hs : s.phase ≠ .away)
    (h : s.run me ch b w worker unit = some turn) :
    GoesOn w turn ∨ Leaves b w worker unit turn := by
  cases ht : s.phase.task? with
  | none => exact idle_goesOn hu hsound ht hs h
  | some t =>
    obtain ⟨task, hx⟩ := Table.exists_getElem? (htask t ht)
    obtain ⟨m, hm⟩ := hsound.exists_method hx
    exact .inl (task_goesOn ht hx hm h)

end WorkerStep

/-! ### Crews in the ledger -/

/-- A crew lists each of its workers once, and they are workers of its unit. -/
structure Crewed (l : Ledger) : Prop where
  /-- Each worker is listed once. -/
  nodup : ∀ {u : UnitId} {ws : List WorkerId}, l.crews[u]? = some ws → ws.Nodup
  /-- It is a worker of the unit. -/
  unit : ∀ {u : UnitId} {ws : List WorkerId}, l.crews[u]? = some ws → ∀ w ∈ ws,
    ∃ p, l.posts[w]? = some p ∧ p.unit = u

variable {l l' : Ledger} {d : Option Duty} {new : List Duty} {hired : Option WorkerId}

namespace Event

/-- Whoever is in a crew after an event was in it before, or is hired. -/
theorem crew_of (h : Event l d new hired l') {u : UnitId} {ws' : List WorkerId} {w : WorkerId}
    (hws' : l'.crews[u]? = some ws') (hw : w ∈ ws') :
    (∃ ws, l.crews[u]? = some ws ∧ w ∈ ws) ∨ hired = some w := by
  cases h.staffs with
  | keep hposts hcrews hnew hold => exact .inl ⟨ws', hcrews ▸ hws', hw⟩
  | display ha ht => exact .inl ⟨ws', hws', hw⟩
  | retire hp hws =>
    obtain ⟨ws, hold, ⟨-, rfl⟩ | ⟨rfl, rfl⟩⟩ := Table.exists_of_modify hws'
    · exact .inl ⟨_, hold, hw⟩
    · exact .inl ⟨_, hws, List.mem_append_left _ hw⟩
  | hire hws =>
    obtain ⟨ws, hold, ⟨-, rfl⟩ | ⟨rfl, rfl⟩⟩ := Table.exists_of_modify hws'
    · exact .inl ⟨_, hold, hw⟩
    · rcases List.mem_append.1 hw with hw | hw
      · exact .inl ⟨_, hws, hw⟩
      · exact .inr (congrArg some (List.mem_singleton.1 hw).symm)

/-- An event leaves workers listed in the crews of their units, each once. -/
theorem crewed (h : Event l d new hired l') (hs : l.Sound) (hc : Crewed l) : Crewed l' := by
  have hext := h.extends
  cases h.staffs with
  | keep hposts hcrews hnew hold =>
    exact ⟨fun hws => hc.nodup (hcrews ▸ hws), fun hws => hposts ▸ hc.unit (hcrews ▸ hws)⟩
  | display ha ht =>
    refine ⟨hc.nodup, fun hws w hw => ?_⟩
    obtain ⟨p, hp, hu⟩ := hc.unit hws w hw
    obtain ⟨p', hp', hunit⟩ := hext.post hp
    exact ⟨p', hp', hunit.trans hu⟩
  | retire hp hws₀ =>
    refine ⟨fun hws => ?_, fun hws w hw => ?_⟩
    · obtain ⟨ws, hold, ⟨-, rfl⟩ | ⟨-, rfl⟩⟩ := Table.exists_of_modify hws
      · exact hc.nodup hold
      · exact (hc.nodup hws₀).of_append_left
    · obtain ⟨ws, hold, ⟨-, rfl⟩ | ⟨rfl, rfl⟩⟩ := Table.exists_of_modify hws
      · exact hc.unit hold w hw
      · exact hc.unit hws₀ w (List.mem_append_left _ hw)
  | @hire v ws₀ hws₀ =>
    have hpost {w : WorkerId} {p : Post} (hp : l.posts[w]? = some p) :
        (l.posts.add ⟨v, none⟩)[w]? = some p :=
      (Table.getElem?_add_of_lt (Table.lt_size_of_getElem? hp) _).trans hp
    have hold {u : UnitId} {ws : List WorkerId} (hws : l.crews[u]? = some ws) :
        ∀ w ∈ ws, ∃ p, (l.posts.add ⟨v, none⟩)[w]? = some p ∧ p.unit = u := by
      intro w hw
      obtain ⟨p, hp, hu⟩ := hc.unit hws w hw
      exact ⟨p, hpost hp, hu⟩
    refine ⟨fun hws => ?_, fun hws w hw => ?_⟩
    · obtain ⟨ws, hws, ⟨-, rfl⟩ | ⟨-, rfl⟩⟩ := Table.exists_of_modify hws
      · exact hc.nodup hws
      · refine List.nodup_append.2 ⟨hc.nodup hws₀, List.nodup_singleton _, fun w hw w' hw' => ?_⟩
        exact List.mem_singleton.1 hw' ▸ (hs.worker hws₀ w hw).ne
    · obtain ⟨ws, hws, ⟨-, rfl⟩ | ⟨rfl, rfl⟩⟩ := Table.exists_of_modify hws
      · exact hold hws w hw
      · rcases List.mem_append.1 hw with hw | hw
        · exact hold hws₀ w hw
        · obtain rfl := List.mem_singleton.1 hw
          exact ⟨⟨v, none⟩, Table.getElem?_add_self _ _, rfl⟩

end Event

/-- A worker that retires is in no crew any more. -/
theorem Crewed.notMem_retireLast {w : WorkerId} {worker : Worker} {unit : TierUnit}
    (h : Crewed b.ledger) (hw : b.workers[w]? = some worker)
    (hu : b.units[worker.unit]? = some unit) (hretire : b.mayRetire w worker unit = true)
    {v : UnitId} {ws : List WorkerId}
    (hws : (b.retireLast worker.unit w).ledger.crews[v]? = some ws) : w ∉ ws := by
  have hlast : unit.crew.live.getLast? = some w := by
    simp only [Broker.mayRetire, Bool.and_eq_true, beq_iff_eq] at hretire
    exact hretire.1.2
  obtain ⟨rest, hlive⟩ := List.getLast?_eq_some_iff.1 hlast
  have hcrew : b.ledger.crews[worker.unit]? = some (rest ++ [w]) := by simp [hu, hlive]
  rw [WorkerStep.ledger_retireLast hu, Ledger.setCrew, hlive, List.dropLast_concat] at hws
  obtain ⟨ws, hold, ⟨hv, rfl⟩ | ⟨rfl, rfl⟩⟩ := Table.exists_of_modify hws
  -- The worker is of one unit only.
  · intro hmem
    obtain ⟨p, hp, hunit⟩ := h.unit hold w hmem
    obtain rfl : worker.post = p := by simpa [hw] using hp
    exact hv hunit
  · intro hmem
    exact (List.nodup_append.1 (h.nodup hcrew)).2.2 w hmem w (List.mem_singleton_self _) rfl

/-! ### Workers at work -/

namespace System

variable {s s' : System} {i : ThreadId} {th : Thread} {a : Action} {rest : List Action}

/-- Compilation is disabled, or somebody is to disable it. -/
def Stopping (s : System) : Prop := s.broker.disabled = true ∨ .control .disable ∈ s.pending

/-- Crews are manned, unless compilation is to be disabled. -/
structure Manned (s : System) : Prop where
  /-- Each crew lists workers of its unit, each once. -/
  crewed : Crewed s.ledger
  /-- A broker that is shut down is to be disabled. -/
  shut : s.broker.jobs = .shutDown → s.Stopping
  /-- Who is in a crew has a step to make, and has not left. -/
  live : ∀ {u : UnitId} {ws : List WorkerId} {w : WorkerId}, s.ledger.crews[u]? = some ws → w ∈ ws →
    s.Stopping ∨ ∃ step, .worker w step ∈ s.pending ∧ step.phase ≠ .away

/-- Whoever is to disable compilation does so. -/
theorem Stopping.turned (h : s.Stopping) (hth : s.threads[i]? = some th)
    (ha : th.agenda = a :: rest)
    (hrun : a.run (th.caller i) ch s.broker = some turn) : (s.turned i turn).Stopping := by
  have hdis := (Action.run_regular hrun).disabled
  rcases h with h | h
  · exact .inl (by rw [broker_turned, hdis, h, Bool.true_or])
  · by_cases heq : .control .disable = a
    · exact .inl (by rw [broker_turned, hdis, ← heq, Action.disables, Bool.or_true])
    · exact .inr (mem_turned_of_ne hth ha h heq)

/-- Only shutting down shuts the broker down, and it disables compilation as well. -/
theorem stopping_of_shutDown (h : s.broker.jobs = .shutDown → s.Stopping)
    (hth : s.threads[i]? = some th) (ha : th.agenda = a :: rest)
    (hrun : a.run (th.caller i) ch s.broker = some turn) (hshut : turn.broker.jobs = .shutDown) :
    (s.turned i turn).Stopping := by
  by_cases hold : s.broker.jobs = .shutDown
  · exact (h hold).turned hth ha hrun
  rw [(Action.run_regular hrun).jobs] at hshut
  obtain rfl : a = .control .shutdown := by
    unfold Action.jobs at hshut
    repeat' split at hshut
    all_goals first
      | rfl
      | cases hshut
      | exact absurd hshut hold
  rw [Action.run, ControlStep.run, if_neg hold] at hrun
  obtain rfl := Option.some.inj hrun
  exact .inr (mem_turned_of_next hth List.mem_cons_self)

namespace Manned

/-- A worker that makes a step has another one to make, unless it leaves its crew or compilation is
to be disabled. -/
theorem live_self (h : s.Manned) (hs : s.Lawful) {w : WorkerId} {step : WorkerStep}
    (hth : s.threads[i]? = some th) (ha : th.agenda = .worker w step :: rest)
    (hstep : step.phase ≠ .away)
    (hrun : (Action.worker w step).run (th.caller i) ch s.broker = some turn) {u : UnitId}
    {ws : List WorkerId} (hws : turn.broker.ledger.crews[u]? = some ws) (hw : w ∈ ws) :
    (s.turned i turn).Stopping ∨
      ∃ step, .worker w step ∈ (s.turned i turn).pending ∧ step.phase ≠ .away := by
  have hmem : .worker w step ∈ s.pending := mem_pending.2 ⟨i, th, hth, ha ▸ List.mem_cons_self⟩
  have hknown := hs.known _ (mem_duties.2 ⟨_, hmem, rfl⟩)
  obtain ⟨worker, unit, hworker, hunit, hgo⟩ := Action.worker_run hs.sound hknown.1 hrun
  rcases WorkerStep.goesOn hunit hs.sound hknown.2 hstep hgo with ⟨s', hnext, hs'⟩ | hexit | hdis |
    ⟨hretire, hbroker⟩
  · exact .inr ⟨s', mem_turned_of_next hth hnext, hs'⟩
  · simp only [Broker.exiting, Bool.or_eq_true, beq_iff_eq] at hexit
    exact .inl ((hexit.elim .inl h.shut).turned hth ha hrun)
  · exact .inl (.inr (mem_turned_of_next hth hdis))
  · exact absurd hw (h.crewed.notMem_retireLast hworker hunit hretire (hbroker ▸ hws))

/-- A step leaves crews manned. -/
theorem step (h : s.Manned) (hs : s.Lawful) (hstep : s.step i ch = some s') : s'.Manned := by
  obtain ⟨th, a, rest, turn, hth, ha, hrun, rfl, hshift⟩ := hs.shift hstep
  refine ⟨hshift.event.crewed hs.sound h.crewed, stopping_of_shutDown h.shut hth ha hrun,
    fun {u ws w} hws hw => ?_⟩
  rcases hshift.event.crew_of hws hw with ⟨ws₀, hws₀, hw₀⟩ | hhired
  · rcases h.live hws₀ hw₀ with hstop | ⟨step, hold, haway⟩
    · exact .inl (hstop.turned hth ha hrun)
    · by_cases heq : .worker w step = a
      · subst heq
        exact h.live_self hs hth ha haway hrun hws hw
      · exact .inr ⟨step, mem_turned_of_ne hth ha hold heq, haway⟩
  · exact .inr ⟨.start, mem_turned_of_hired i hhired, Phase.noConfusion⟩

theorem call (h : s.Manned) (c : Call) (n : Nat) : (s.call c n).Manned := by
  have hpending {a : Action} (ha : a ∈ s.pending) : a ∈ (s.call c n).pending :=
    mem_pending_call.2 (.inl ha)
  have hstop (h : s.Stopping) : (s.call c n).Stopping := h.imp_right hpending
  refine ⟨h.crewed, fun hshut => hstop (h.shut hshut), fun hws hw => ?_⟩
  rcases h.live hws hw with h | ⟨step, hold, haway⟩
  · exact .inl (hstop h)
  · exact .inr ⟨step, hpending hold, haway⟩

theorem operate (h : s.Manned) (o : Operation) : (s.operate o).Manned := by
  have hb := s.broker.operate_steady o
  have hstop (h : s.Stopping) : (s.operate o).Stopping := h.imp_left hb.disabled.trans
  have hposts : (s.operate o).ledger.posts = s.ledger.posts ∧
      (s.operate o).ledger.crews = s.ledger.crews := by
    rcases s.broker.ledger_operate o with h | h <;>
      exact ⟨(congrArg Ledger.posts h :), (congrArg Ledger.crews h :)⟩
  obtain ⟨hposts, hcrews⟩ := hposts
  refine ⟨⟨fun hws => h.crewed.nodup (hcrews ▸ hws),
      fun hws => hposts ▸ h.crewed.unit (hcrews ▸ hws)⟩,
    fun hshut => hstop (h.shut (hb.jobs ▸ hshut)), fun hws hw => ?_⟩
  exact (h.live (hcrews ▸ hws) hw).imp_left hstop

end Manned

theorem manned_launch (hb : b.Fresh) (hjobs : b.jobs ≠ .shutDown) : (launch b).Manned := by
  have hnone {u : UnitId} {ws : List WorkerId} (hws : b.ledger.crews[u]? = some ws) : ws = [] :=
    hb.crew hws
  refine ⟨⟨fun hws => ?_, fun hws w hw => ?_⟩, fun h => absurd h hjobs, fun hws hw => ?_⟩
  · exact hnone hws ▸ List.nodup_nil
  · exact absurd (hnone hws ▸ hw) List.not_mem_nil
  · exact absurd (hnone hws ▸ hw) List.not_mem_nil

/-- In every state that a system can get into, crews are manned, unless compilation is to be
disabled. -/
theorem Reachable.manned {config : Config} {parts : Broker.Parts}
    (hb : Broker.assemble config parts = .ok b) (h : Reachable (launch b) s) : s.Manned := by
  have hjobs : b.jobs ≠ .shutDown := by
    obtain ⟨units, -, rfl⟩ := Broker.exists_of_assemble hb
    cases config.acceptDefault <;> simp
  exact h.invariant (manned_launch (Broker.fresh_assemble hb) hjobs)
    (fun hr h hstep => h.step (hr.lawful (Broker.fresh_assemble hb)) hstep)
    (fun c n _ h => h.call c n) (fun o _ h => h.operate o)

end System

end JitBroker
