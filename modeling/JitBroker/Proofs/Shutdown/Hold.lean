import JitBroker.Proofs.Shutdown.Drain

/-!
# Tasks of requesters that nobody has woken

When compilation has been disabled, a requester still sleeps in one case only: its bell is about to
ring, since a worker has the task, is not at the back-end, and is to complete it. That no queue has
the task, and that no worker is at the back-end with it, is what draining the queues and ringing the
bells was for (`System.exists_holds`).

Such a worker keeps the task until it is complete, and never goes to the back-end again; each step
that it makes for the task brings it nearer to the end (`System.Held.run`).
-/

namespace JitBroker

/-! ### Who is to complete a task -/

/-- Whether a duty is to complete a task. -/
def Duty.serves (t : TaskId) (d : Duty) : Bool :=
  d.part? t == some .work || d.part? t == some .scrap

/-- Whether an action is on the way to complete a task. -/
def Action.serves (t : TaskId) (a : Action) : Bool := a.duty?.any (·.serves t)

/-- Whether an action is that of a worker at the back-end. -/
def Action.atBackend : Action → Bool
  | .worker _ (.compile _) | .worker _ (.attach _ _) => true
  | _ => false

/-- How many steps a worker that is not at the back-end makes for a task at most, with this one,
until the task is complete. -/
def WorkerStep.toGo : WorkerStep → Nat
  | .leave _ => 17
  | .adopt _ => 16
  | .take _ => 15
  | .consult _ => 14
  | .begin _ => 13
  | .examine _ => 12
  | .clear _ => 11
  | .giveUp _ => 10
  | .judge _ => 9
  | .rule _ => 8
  | .count _ => 7
  | .announce _ => 6
  | .close _ => 5
  | .drop _ => 4
  | .unmark _ => 3
  | .publish _ => 2
  | _ => 0

/-- How many actions there are for a task at most, with this one, until the task is complete. -/
def Action.toGo : Action → Nat
  | .worker _ s => s.toGo
  | .task (.complete _ _) => 1
  | _ => 0

variable {l l' : Ledger} {ds : Multiset Duty} {d : Option Duty} {new : List Duty}
  {hired worker : Option WorkerId} {w : WorkerId} {t : TaskId} {a : Action} {x : Task}

theorem Duty.serves_iff {d : Duty} :
    d.serves t = true ↔ d.part? t = some .work ∨ d.part? t = some .scrap := by
  simp [serves]

/-- Only workers, and those who end a task, are to complete one. -/
theorem Duty.exists_of_serves {d : Duty} (h : d.serves t = true) :
    d = .finish t ∨ d = .scrap t ∨ ∃ w a, d = .post w a ∧ a.task? = some t := by
  rcases Duty.serves_iff.1 h with h | h
  · cases d <;> simp_all [Duty.part?]
  · exact .inr (.inl (Duty.part_eq_scrap.1 h))

theorem Action.serves_iff : a.serves t = true ↔ ∃ d, a.duty? = some d ∧ d.serves t = true := by
  simp [serves, Option.any_eq_true]

theorem Action.atBackend_iff : a.atBackend = true ↔ ∃ w t, a.duty? = some (.post w (.inside t)) := by
  cases a with
  | worker w s => cases s <;> simp [atBackend, duty?, WorkerStep.phase]
  | request s => cases s <;> simp [atBackend, duty?, RequestStep.duty?]
  | task s =>
    cases s with
    | complete t who => cases who <;> simp [atBackend, duty?, TaskStep.duty?]
    | _ => simp [atBackend, duty?, TaskStep.duty?]
  | control s => cases s <;> simp [atBackend, duty?, ControlStep.duty?]
  | _ => simp [atBackend, duty?]

/-- Who is not at the back-end is at an action that brings the task nearer to the end. -/
theorem Action.toGo_pos (h : a.serves t = true) (hout : a.atBackend = false) : 0 < a.toGo := by
  obtain ⟨d, hd, hserves⟩ := serves_iff.1 h
  cases a with
  | worker w s =>
    obtain rfl := Option.some.inj hd
    cases s <;> simp_all [Duty.serves, Duty.part?, Phase.task?, WorkerStep.phase, toGo,
      WorkerStep.toGo, atBackend]
  | task s =>
    cases s with
    | complete t who => exact Nat.one_pos
    | _ => cases hd <;> simp [Duty.serves, Duty.part?] at hserves
  | request s => cases s <;> cases hd <;> simp [Duty.serves, Duty.part?] at hserves
  | control s => cases s <;> cases hd <;> simp [Duty.serves, Duty.part?] at hserves
  | _ => cases hd

theorem Action.toGo_le (a : Action) : a.toGo ≤ 17 := by
  cases a with
  | worker w s => cases s <;> simp [toGo, WorkerStep.toGo]
  | task s => cases s <;> simp [toGo]
  | _ => simp [toGo]

/-! ### Steps -/

/-- A step of a worker that is not at the back-end brings a task nearer to the end. -/
theorem WorkerStep.toGo_run {me : Caller} {ch : Choices} {b : Broker} {record : Worker}
    {unit : TierUnit} {s : WorkerStep} {turn : Turn} (h : s.run me ch b w record unit = some turn)
    (ht : s.phase.task? = some t) (hout : (Action.worker w s).atBackend = false) :
    ∀ a ∈ turn.next, a.toGo < s.toGo := by
  have fault (h : Turn.fault b = some turn) (hpos : 0 < s.toGo) : ∀ a ∈ turn.next, a.toGo < s.toGo := by
    obtain rfl := Option.some.inj h
    simpa [Action.toGo] using hpos
  have next {b' : Broker} {s' : WorkerStep} (h : WorkerStep.next b' w s' = some turn)
      (hlt : s'.toGo < s.toGo) : ∀ a ∈ turn.next, a.toGo < s.toGo := by
    obtain rfl := Option.some.inj h
    simpa [Action.toGo] using hlt
  cases s with
  | judge c =>
    obtain rfl := Option.some.inj h
    intro a ha
    rcases List.mem_append.1 ha with ha | ha
    · obtain ⟨_, -, rfl⟩ := List.mem_map.1 ha
      simp [Action.toGo, toGo]
    · rw [List.mem_singleton.1 ha]
      simp [Action.toGo, toGo]
  | publish f =>
    obtain rfl := Option.some.inj h
    simp [Action.toGo, toGo]
  | compile _ | attach _ _ => cases hout
  | start | starting | round | fetch | staying | choose | rest | look | lookStaying | lookEmpty
  | asleep _ _ | overdue | retire | retired | quit | settle => cases ht
  | adopt _ | take _ | drop _ => exact next h (Nat.lt_succ_self _)
  | leave _ =>
    rw [run] at h
    split at h
    · exact next h (Nat.lt_succ_self _)
    · cases h
  | clear _ =>
    rw [run] at h
    split at h <;> exact next h (by simp [toGo])
  | giveUp _ | announce _ | unmark _ =>
    rw [run] at h
    split at h
    · exact fault h (Nat.succ_pos _)
    · exact next h (by simp [toGo])
  | consult _ | begin _ | count _ | close _ =>
    rw [run] at h
    split at h
    · exact fault h (Nat.succ_pos _)
    · split at h
      · exact fault h (Nat.succ_pos _)
      · exact next h (Nat.lt_succ_self _)
  | examine _ =>
    rw [run] at h
    split at h
    · exact fault h (Nat.succ_pos _)
    · split at h
      · exact fault h (Nat.succ_pos _)
      · split at h <;> exact next h (by simp [toGo])
  | rule _ =>
    rw [run] at h
    split at h
    · exact fault h (Nat.succ_pos _)
    · split at h
      · exact fault h (Nat.succ_pos _)
      · simp only at h
        split at h <;> exact next h (by simp [toGo])

namespace Action

/-- A step for a task that is not at the back-end brings the task nearer to the end. -/
theorem toGo_run {me : Caller} {ch : Choices} {b : Broker} {turn : Turn}
    (h : a.run me ch b = some turn) (hserves : a.serves t = true) (hout : a.atBackend = false) :
    ∀ a' ∈ turn.next, a'.toGo < a.toGo := by
  obtain ⟨d, hd, hd'⟩ := serves_iff.1 hserves
  cases a with
  | worker w s =>
    obtain rfl := Option.some.inj hd
    have htask : s.phase.task? = some t := by
      obtain hd' | hd' | ⟨_, _, hd', htask⟩ := Duty.exists_of_serves hd'
      · cases hd'
      · cases hd'
      · cases hd'
        exact htask
    rw [run] at h
    split at h
    · obtain rfl := Option.some.inj h
      simpa [toGo] using toGo_pos hserves hout
    · split at h
      · obtain rfl := Option.some.inj h
        simpa [toGo] using toGo_pos hserves hout
      · exact WorkerStep.toGo_run h htask hout
  | task s =>
    cases s with
    | complete t' who =>
      rw [run, TaskStep.run] at h
      split at h
      · obtain rfl := Option.some.inj h
        simp [toGo]
      · split at h
        · obtain rfl := Option.some.inj h
          simp [toGo]
        · split at h <;> obtain rfl := Option.some.inj h <;> simp [toGo]
    | _ => cases hd <;> simp [Duty.serves, Duty.part?] at hd'
  | request s => cases s <;> cases hd <;> simp [Duty.serves, Duty.part?] at hd'
  | control s => cases s <;> cases hd <;> simp [Duty.serves, Duty.part?] at hd'
  | _ => cases hd

/-- Who is to complete a task and is not at the back-end makes a step nearer to the end, or completes
the task. -/
theorem served {me : Caller} {ch : Choices} {b : Broker} {turn : Turn}
    (h : a.run me ch b = some turn) (hserves : a.serves t = true) (hout : a.atBackend = false)
    (hevent : Event l a.duty? (JitBroker.duties turn.next) hired l') :
    (∃ a' ∈ turn.next, a'.serves t = true ∧ a'.toGo < a.toGo) ∨
      ∃ x, l'.tasks[t]? = some x ∧ x.complete = true := by
  obtain ⟨d, hd, hd'⟩ := serves_iff.1 hserves
  rw [hd] at hevent
  have goesOn {p : Part} (hp : p = .work ∨ p = .scrap) (hpart : d.part? t = some p) :
      (∃ a' ∈ turn.next, a'.serves t = true ∧ a'.toGo < a.toGo) ∨
        ∃ x, l'.tasks[t]? = some x ∧ x.complete = true := by
    refine (hevent.served hp hpart).imp_left ?_
    rintro ⟨d', hmem, hpart'⟩
    obtain ⟨a', ha', hduty⟩ := mem_duties.1 hmem
    refine ⟨a', ha', serves_iff.2 ⟨d', hduty, Duty.serves_iff.2 ?_⟩, toGo_run h hserves hout a' ha'⟩
    rcases hp with rfl | rfl
    · exact .inl hpart'
    · exact .inr hpart'
  exact (Duty.serves_iff.1 hd').elim (goesOn (.inl rfl)) (goesOn (.inr rfl))

end Action

namespace System

variable {s s' : System} {i j : ThreadId} {ch : Choices} {th : Thread} {rest : List Action} {n : Nat}

/-- A thread has a task: it is a worker's, it is not at the back-end, and it is to complete the task
after so many actions at most. -/
def Holds (s : System) (i : ThreadId) (w : WorkerId) (t : TaskId) (n : Nat) : Prop :=
  ∃ th, s.threads[i]? = some th ∧ th.worker = some w ∧ (∀ a ∈ th.agenda, a.atBackend = false) ∧
    ∃ a ∈ th.agenda, a.serves t = true ∧ a.toGo ≤ n

/-- A task is complete, or a worker has it that is not at the back-end and is to complete it. -/
def Held (s : System) (i : ThreadId) (w : WorkerId) (t : TaskId) (n : Nat) : Prop :=
  (∃ x, s.broker.tasks[t]? = some x ∧ x.complete = true) ∨ s.Holds i w t n

/-- When a thread is at an action that is to complete a task, no other action is to. -/
theorem Lawful.serves_unique (hs : s.Lawful) (hth : s.threads[i]? = some th)
    (ha : th.agenda = a :: rest) (hserves : a.serves t = true) :
    ∀ a' ∈ (s.park i rest).pending, a'.serves t = false := by
  refine fun a' ha' => Bool.not_eq_true _ ▸ fun hserves' => ?_
  obtain ⟨d, hd, hd'⟩ := Action.serves_iff.1 hserves
  obtain ⟨e, he, he'⟩ := Action.serves_iff.1 hserves'
  have hsplit : s.duties = {d} + (s.park i rest).duties := by
    rw [duties_park hth (show th.agenda = [a] ++ rest from ha), duties_cons, hd]
    rfl
  have one {ds : Multiset Duty} {d : Duty} (hd : d ∈ ds) (hserves : d.serves t = true) :
      1 ≤ share ds t .work + share ds t .scrap := by
    rcases Duty.serves_iff.1 hserves with hpart | hpart <;>
      have := share_pos_iff.2 ⟨d, hd, hpart⟩ <;> omega
  have htwo : 2 ≤ share s.duties t .work + share s.duties t .scrap := by
    rw [hsplit, share_add, share_add]
    have hone := one (Multiset.mem_singleton_self d) hd'
    have hone' := one (mem_duties.2 ⟨a', ha', he⟩) he'
    omega
  have ht : t < s.ledger.tasks.size := by
    by_contra hsize
    have hnone (p : Part) := share_eq_zero (p := p) hs.known (Nat.not_lt.1 hsize)
    rw [hnone, hnone] at htwo
    omega
  obtain ⟨x, hx⟩ := Table.exists_getElem? ht
  have hkeeper := (hs.custody t x hx).keeper
  have hscrap := (hs.custody t x hx).scrap
  cases hcomplete : x.complete <;> cases hstale : x.stale <;>
    simp [hcomplete, hstale] at hkeeper hscrap <;> omega

/-- A step of the thread that has a task brings the task nearer to the end, if it is one for the task.
Nothing else changes anything. -/
theorem Holds.step (h : s.Holds i w t n) (ho : s.Orderly) (hdis : s.broker.disabled = true)
    (hstep : s.step j ch = some s') :
    s'.Held i w t (n - (s.ran (.step j ch)).toList.countP (·.serves t)) := by
  obtain ⟨th', a', rest, turn, hth', ha', hrun, rfl, hshift⟩ := ho.lawful.shift hstep
  obtain ⟨th, hth, hworker, hout, a, ha, hserves, hle⟩ := h
  have hcount : (s.ran (.step j ch)).toList.countP (·.serves t) = (a'.serves t).toNat := by
    rw [ran_step hth' ha' hstep, Option.toList_some, List.countP_singleton]
    cases a'.serves t <;> rfl
  rw [hcount]
  -- No other action is for the task.
  have stays (hmem : a ∈ (s.park j rest).pending) : a'.serves t = false :=
    Bool.not_eq_true _ ▸ fun hserves' => by
      rw [ho.lawful.serves_unique hth' ha' hserves' a hmem] at hserves
      cases hserves
  by_cases hij : j = i
  · subst hij
    obtain rfl := Option.some.inj (hth.symm.trans hth')
    have hagenda : (th.after turn).agenda = turn.next ++ rest := Thread.agenda_after ha'
    -- Nobody goes to the back-end any more.
    have hout' : ∀ a ∈ (th.after turn).agenda, a.atBackend = false := by
      intro a ha
      rw [hagenda] at ha
      rcases List.mem_append.1 ha with ha | ha
      · refine Bool.not_eq_true _ ▸ fun hback => ?_
        obtain ⟨w', t', hduty⟩ := Action.atBackend_iff.1 hback
        rcases hshift.event.post_of_new (JitBroker.mem_duties.2 ⟨a, ha, hduty⟩) rfl with hd | henabled
        · have := hout a' (ha' ▸ List.mem_cons_self)
          rw [Action.atBackend_iff.2 ⟨w', t', hd⟩] at this
          cases this
        · exact Bool.false_ne_true (henabled.symm.trans hdis)
      · exact hout a (ha' ▸ List.mem_cons_of_mem _ ha)
    have holds {m : Nat} {a : Action} (ha : a ∈ turn.next ++ rest) (hserves : a.serves t = true)
        (hle : a.toGo ≤ m) : (s.turned j turn).Held j w t m :=
      .inr ⟨_, threadsAfter_self hth, hworker, hout', a, hagenda ▸ ha, hserves, hle⟩
    rw [ha', List.mem_cons] at ha
    rcases ha with rfl | ha
    · rw [hserves, Bool.toNat_true]
      rcases Action.served hrun hserves (hout a (ha' ▸ List.mem_cons_self)) hshift.event with
        ⟨a', hmem, hserves', hlt⟩ | hcomplete
      · exact holds (List.mem_append_left _ hmem) hserves' (by omega)
      · exact .inl hcomplete
    · rw [stays (mem_pending.2 ⟨j, _, Table.getElem?_modify_self hth _, ha⟩)]
      exact holds (List.mem_append_right _ ha) hserves hle
  · rw [stays (mem_pending.2 ⟨i, th, (Table.getElem?_modify_of_ne hij _).trans hth, ha⟩)]
    exact .inr ⟨th, threadsAfter_of_ne hth (Ne.symm hij), hworker, hout, a, ha, hserves, hle⟩

namespace Held

/-- Every move leads on. -/
theorem move (h : s.Held i w t n) (ho : s.Orderly) (hdis : s.broker.disabled = true) (m : Move) :
    (s.move m).Held i w t (n - (s.ran m).toList.countP (·.serves t)) := by
  rcases h with ⟨x, hx, hcomplete⟩ | hholds
  · obtain ⟨x', hx', hev⟩ := (ho.lawful.extends_move m).task hx
    exact .inl ⟨x', hx', hev.complete hcomplete⟩
  cases m with
  | call c k =>
    obtain ⟨th, hth, hrest⟩ := hholds
    exact .inr ⟨th, getElem?_threads_spawn hth, hrest⟩
  | operate o => exact .inr hholds
  | step j ch =>
    cases hstep : s.step j ch with
    | none =>
      rw [ran_of_none hstep, System.move, hstep]
      exact .inr hholds
    | some s' =>
      rw [System.move, hstep]
      exact hholds.step ho hdis hstep

/-- A task that a worker has is complete after so many steps for it, and until then the worker has
it. -/
theorem run (h : s.Held i w t n) (ho : s.Orderly) (hdis : s.broker.disabled = true)
    (ms : List Move) :
    (ms.foldl System.move s).Held i w t (n - (s.trace ms).countP (·.serves t)) := by
  induction ms generalizing s n with
  | nil => exact h
  | cons m ms ih =>
    have hm := ih (h.move ho hdis m) (ho.move m) ((ho.lawful.extends_move m).disabled hdis)
    rwa [trace, List.countP_append, ← Nat.sub_sub]

/-- When there are no steps left, the task is complete. -/
theorem complete (h : s.Held i w t 0) : ∃ x, s.broker.tasks[t]? = some x ∧ x.complete = true := by
  refine h.resolve_right ?_
  rintro ⟨th, -, -, hout, a, ha, hserves, hle⟩
  have := Action.toGo_pos hserves (hout a ha)
  omega

end Held

/-! ### Sleepers -/

/-- In a calm thread that is to complete a task, no worker is at the back-end with another one. -/
theorem inside_of_calm {ds : List Duty} {t' : TaskId} {d : Duty}
    (h : Followed (Duty.Calm worker) ds) (hd : d ∈ ds) (hserves : d.serves t = true)
    (hinside : .post w (.inside t') ∈ ds) : d = .post w (.inside t') := by
  induction ds with
  | nil => cases hd
  | cons d₀ ds ih =>
    obtain ⟨hcalm, hrest⟩ := h
    rcases List.mem_cons.1 hinside with rfl | hlater
    · refine (List.mem_cons.1 hd).resolve_right fun hd => ?_
      rw [hcalm.2] at hd
      cases hd
    · rcases List.mem_cons.1 hd with rfl | hd
      · rcases Duty.exists_of_serves hserves with rfl | rfl | ⟨w', a, rfl, -⟩
        · exact absurd hlater (hcalm.2 w t')
        · exact absurd hlater (hcalm.2 w t')
        · rw [hcalm.2] at hlater
          cases hlater
      · exact ih hrest hd hlater

/-- When nobody disables compilation any more, and a requester sleeps on a task that is not complete,
somebody is to complete it. -/
theorem exists_serves (ho : s.Orderly) (hdis : s.broker.disabled = true) (hcalm : s.Calm)
    (hx : s.broker.tasks[t]? = some x) (hopen : x.complete = false) :
    ∃ d ∈ s.duties, d.serves t = true := by
  have hfair := ho.lawful.custody t x hx
  have served {p : Part} (hp : p = .work ∨ p = .scrap) (hpos : 0 < share s.duties t p) :
      ∃ d ∈ s.duties, d.serves t = true := by
    obtain ⟨d, hd, hpart⟩ := share_pos_iff.1 hpos
    refine ⟨d, hd, Duty.serves_iff.2 ?_⟩
    rcases hp with rfl | rfl
    · exact .inl hpart
    · exact .inr hpart
  cases hstale : x.stale with
  | true =>
    refine served (.inr rfl) ?_
    rw [hfair.scrap, hstale, hopen]
    exact Nat.one_pos
  | false =>
    -- The task is not in a queue, nor on its way to one.
    have hdrained {u : UnitId} {st : Stock} (hst : s.ledger.stocks[u]? = some st) :=
      (ho.closing.drained hdis hst).resolve_left (hcalm.not_mem fun _ _ => id)
    have hqueued : s.ledger.queued t = 0 := by
      refine Table.total_eq_zero_iff.2 fun u st hst => ?_
      rw [(hdrained hst).1, List.count_nil]
    have hbring : share s.duties t .bring = 0 := by
      by_contra hbring
      obtain ⟨d, hd, hpart⟩ := share_pos_iff.1 (Nat.pos_of_ne_zero hbring)
      cases d with
      | bring u m t' =>
        obtain ⟨st, hst⟩ := Table.exists_getElem? (ho.lawful.known _ hd).1
        have := (hdrained hst).2 _ hd
        simp [Duty.passed] at this
      | _ => simp [Duty.part?] at hpart
    have hkeeper := hfair.keeper
    rw [hqueued, hbring, hopen, hstale] at hkeeper
    refine served (.inl rfl) ?_
    simp at hkeeper
    omega

/-- When nobody disables compilation any more, the task of a requester that sleeps, and has heard all
bells, is in the hands of a worker that is not at the back-end. -/
theorem exists_holds (ho : s.Orderly) (hdis : s.broker.disabled = true) (hcalm : s.Calm)
    (hx : s.broker.tasks[t]? = some x) (hsleep : .sleep t x.bell ∈ s.duties) :
    ∃ i w, s.Holds i w t 17 := by
  obtain ⟨d, hd, hserves⟩ := exists_serves ho hdis hcalm hx (ho.heard.incomplete hsleep hx)
  obtain ⟨a, ha, hduty⟩ := mem_duties.1 hd
  obtain ⟨i, th, hth, ha⟩ := mem_pending.1 ha
  have hd : d ∈ JitBroker.duties th.agenda := JitBroker.mem_duties.2 ⟨a, ha, hduty⟩
  obtain ⟨w, hworker⟩ : ∃ w, th.worker = some w := by
    obtain ⟨as, bs, heq⟩ := List.append_of_mem hd
    have hcalm := hcalm i th hth
    rw [Thread.Calm, heq] at hcalm
    have hcalm := hcalm.of_append.1
    rcases Duty.exists_of_serves hserves with rfl | rfl | ⟨w, a, rfl, -⟩
    · exact Option.isSome_iff_exists.1 hcalm.1
    · exact Option.isSome_iff_exists.1 hcalm.1
    · exact ⟨w, hcalm.1⟩
  refine ⟨i, w, th, hth, hworker, fun a' ha' => ?_, a, ha, Action.serves_iff.2 ⟨d, hduty, hserves⟩,
    a.toGo_le⟩
  refine Bool.not_eq_true _ ▸ fun hback => ?_
  obtain ⟨w', t', hduty'⟩ := Action.atBackend_iff.1 hback
  obtain rfl := inside_of_calm (hcalm i th hth) hd hserves (JitBroker.mem_duties.2 ⟨a', ha', hduty'⟩)
  obtain rfl : t' = t := by
    rcases Duty.exists_of_serves hserves with h | h | ⟨_, _, h, htask⟩
    · cases h
    · cases h
    · cases h
      exact Option.some.inj htask
  -- If the worker were at the back-end, the requester would have a bell to hear.
  rcases ho.closing.woken hdis (mem_duties.2 ⟨a, mem_pending.2 ⟨i, th, hth, ha⟩, hduty⟩) with
    h | h | h | hnotified
  · exact hcalm.not_mem (fun _ _ => id) h
  · exact hcalm.not_mem (fun _ _ => id) h
  · exact hcalm.not_mem (fun _ _ => id) h
  · exact absurd (hnotified hsleep hx) (Nat.lt_irrefl _)

end System

end JitBroker
