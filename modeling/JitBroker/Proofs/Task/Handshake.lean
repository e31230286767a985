import JitBroker.Proofs.Protocol

/-!
# The handshake

A task is completed by one party and freed by one party, which may be another one. Over a run, the
actions that are run make up its *trace*, and what becomes of a task can be told from the trace as
well as from its record: it was completed as often as it is complete (`completions_trace`), and freed
as often as it is freed (`frees_trace`); so neither happens twice. What the record says otherwise
follows from the parts that threads have in the task (`Fair`).

* `Event.touched`: only the duties that are there for it change the marks and the result of a task;
* `Lawful.freeing`: who is to free a task finds it complete, not freed, and nobody asleep;
* `Lawful.settled`: once nobody has a part in a task any more, it is complete and freed;
* `Reachable.result_eq`: the result of a complete task is final;
* `Reachable.published`: it is the one that the worker wrote who completed the task.
-/

namespace JitBroker

/-! ### Traces -/

/-- Whether an action completes a task. -/
def Action.completes (t : TaskId) : Action → Bool
  | .task (.complete t' _) => t' == t
  | _ => false

/-- Whether an action frees a task. -/
def Action.frees (t : TaskId) : Action → Bool
  | .task (.free t' _) => t' == t
  | _ => false

namespace System

/-- Whether a task exists and has a mark, as a number. -/
def marked (s : System) (t : TaskId) (f : Task → Bool) : Nat :=
  ((s.broker.tasks[t]?.map f).getD false).toNat

theorem marked_of_some {s : System} {t : TaskId} {x : Task} (hx : s.broker.tasks[t]? = some x)
    (f : Task → Bool) : s.marked t f = (f x).toNat := by
  simp [marked, hx]

theorem marked_of_none {s : System} {t : TaskId} (hx : s.broker.tasks[t]? = none)
    (f : Task → Bool) : s.marked t f = 0 := by
  simp [marked, hx]

end System

namespace TaskStep

variable {b : Broker} {t : TaskId} {x : Task} {who : FreedBy} {turn : Turn}

/-- To complete a task makes it complete. -/
theorem complete_run (hx : b.tasks[t]? = some x) (hopen : x.complete = false)
    (h : run b (.complete t who) = some turn) :
    ∃ x', turn.broker.tasks[t]? = some x' ∧ x'.complete = true ∧ x'.result = x.result := by
  rw [run, hx] at h
  simp only [hopen, Bool.false_eq_true, if_false] at h
  split at h <;> obtain rfl := Option.some.inj h
  · exact ⟨_, Table.getElem?_modify_self hx _, rfl, rfl⟩
  · exact ⟨_, Table.getElem?_modify_self hx _, rfl, rfl⟩

/-- To free a task makes it freed. -/
theorem free_run (hx : b.tasks[t]? = some x) (hcomplete : x.complete = true)
    (hfreed : x.freed = false) (h : run b (.free t who) = some turn) :
    ∃ x', turn.broker.tasks[t]? = some x' ∧ x'.freed = true := by
  rw [run, hx] at h
  simp only [hcomplete, hfreed, Bool.not_true, Bool.or_self, Bool.false_eq_true, if_false] at h
  obtain rfl := Option.some.inj h
  exact ⟨_, Table.getElem?_modify_self hx _, rfl⟩

end TaskStep

theorem Action.completes_iff {a : Action} {t : TaskId} :
    a.completes t = true ↔ a.duty? = some (.scrap t) ∨ a.duty? = some (.finish t) := by
  cases a with
  | task s =>
    cases s with
    | complete t' who => cases who <;> simp [completes, duty?, TaskStep.duty?]
    | _ => simp [completes, duty?, TaskStep.duty?]
  | request s => cases s <;> simp [completes, duty?, RequestStep.duty?]
  | control s => cases s <;> simp [completes, duty?, ControlStep.duty?]
  | _ => simp [completes, duty?]

theorem Action.eq_of_completes {a : Action} {t : TaskId} (h : a.completes t = true) :
    ∃ who, a = .task (.complete t who) := by
  cases a with
  | task s =>
    cases s with
    | complete t' who =>
      obtain rfl : t' = t := by simpa [completes] using h
      exact ⟨who, rfl⟩
    | _ => cases h
  | _ => cases h

theorem Action.duty_of_frees {a : Action} {t : TaskId} (h : a.frees t = true) :
    a.duty? = some (.free t) := by
  cases a with
  | task s =>
    cases s with
    | free t' who =>
      obtain rfl : t' = t := by simpa [frees] using h
      rfl
    | _ => cases h
  | _ => cases h

theorem Action.frees_or_collect {a : Action} {t : TaskId} (h : a.duty? = some (.free t)) :
    (∃ who, a = .task (.free t who)) ∨ ∃ q, a = .request (.collect q t) := by
  cases a with
  | task s =>
    cases s with
    | free t' who => cases h; exact .inl ⟨who, rfl⟩
    | complete t' who => cases who <;> cases h
    | _ => cases h
  | request s =>
    cases s with
    | collect q t' => cases h; exact .inr ⟨q, rfl⟩
    | _ => cases h
  | control s => cases s <;> cases h
  | _ => cases h

namespace System

variable {s s' : System} {i : ThreadId} {ch : Choices} {t : TaskId} {f : Task → Bool}
  {r : TaskResult}

/-- A mark stays as it is in an event that does not touch it. -/
theorem marked_eq {d : Option Duty} {new : List Duty} {w : Option WorkerId}
    (h : Event s.ledger d new w s'.ledger)
    (hf : ∀ {x x' : Task}, Task.Touched d t x x' → f x' = f x)
    (hnew : ∀ {x : Task}, x.complete = false → x.freed = false → f x = false) :
    s'.marked t f = s.marked t f := by
  cases hx : s.broker.tasks[t]? with
  | none =>
    rw [marked_of_none hx]
    cases hx' : s'.broker.tasks[t]? with
    | none => rw [marked_of_none hx']
    | some x' =>
      obtain ⟨hcomplete, hfreed⟩ := h.open_of_new hx hx'
      rw [marked_of_some hx', hnew hcomplete hfreed, Bool.toNat_false]
  | some x =>
    obtain ⟨x', hx', htouched⟩ := h.touched hx
    rw [marked_of_some hx, marked_of_some hx', hf htouched]

namespace Lawful

/-- A step completes a task if its action is there for that. -/
theorem marked_complete_step (hs : s.Lawful) {th : Thread} {a : Action} {rest : List Action}
    (ht : s.threads[i]? = some th) (ha : th.agenda = a :: rest) (h : s.step i ch = some s') :
    s'.marked t Task.complete = (a.completes t).toNat + s.marked t Task.complete := by
  obtain ⟨turn, hrun, rfl, hshift⟩ := hs.shift_of ht ha h
  cases hc : a.completes t with
  | true =>
    obtain ⟨x, hx, hopen⟩ : ∃ x, s.ledger.tasks[t]? = some x ∧ x.complete = false := by
      rcases Action.completes_iff.1 hc with hd | hd <;> exact hs.ready _ (hshift.mem _ hd)
    obtain ⟨who, rfl⟩ := Action.eq_of_completes hc
    obtain ⟨x', hx', hcomplete, -⟩ := TaskStep.complete_run hx hopen hrun
    rw [marked_of_some hx, marked_of_some hx', hopen, hcomplete]
    rfl
  | false =>
    have hd := mt Action.completes_iff.2 (Bool.not_eq_true _ ▸ hc)
    rw [Bool.toNat_false, Nat.zero_add]
    exact marked_eq hshift.event (fun h => h.complete.resolve_right hd) fun h _ => h

/-- A step frees a task if its action is there for that. -/
theorem marked_freed_step (hs : s.Lawful) {th : Thread} {a : Action} {rest : List Action}
    (ht : s.threads[i]? = some th) (ha : th.agenda = a :: rest) (h : s.step i ch = some s') :
    s'.marked t Task.freed = (a.frees t).toNat + s.marked t Task.freed := by
  obtain ⟨turn, hrun, rfl, hshift⟩ := hs.shift_of ht ha h
  by_cases hd : a.duty? = some (.free t)
  · obtain ⟨x, hx, hcomplete, hfreed⟩ : Duty.Ready s.ledger (.free t) :=
      hs.ready _ (hshift.mem _ hd)
    rcases Action.frees_or_collect hd with ⟨who, rfl⟩ | ⟨q, rfl⟩
    · obtain ⟨x', hx', hfreed'⟩ := TaskStep.free_run hx hcomplete hfreed hrun
      rw [marked_of_some hx, marked_of_some hx', hfreed, hfreed']
      simp [Action.frees]
    · -- Who collects the result is yet to free the task.
      rw [Action.run, RequestStep.run, show s.broker.tasks[t]? = some x from hx] at hrun
      obtain rfl := Option.some.inj hrun
      exact (Nat.zero_add _).symm
  · rw [show a.frees t = false from Bool.eq_false_iff.2 fun hc => hd (Action.duty_of_frees hc),
      Bool.toNat_false, Nat.zero_add]
    exact marked_eq hshift.event (fun h => h.freed.resolve_right hd) fun _ h => h

/-- What holds of every step of a mark holds of a run: it was set as often as the trace has an
action that sets it. -/
theorem countP_trace {c : Action → Bool} {f : Task → Bool}
    (hnew : ∀ {x : Task}, x.complete = false → x.freed = false → f x = false)
    (hidle : ∀ {x x' : Task}, Task.Touched none t x x' → f x' = f x)
    (hstep : ∀ {s s' : System} {i : ThreadId} {ch : Choices} {th : Thread} {a : Action}
      {rest : List Action}, s.Lawful → s.threads[i]? = some th → th.agenda = a :: rest →
      s.step i ch = some s' → s'.marked t f = (c a).toNat + s.marked t f)
    (hs : s.Lawful) (ms : List Move) :
    (ms.foldl System.move s).marked t f = (s.trace ms).countP c + s.marked t f := by
  induction ms generalizing s with
  | nil => simp [trace]
  | cons m ms ih =>
    have hmove : (s.move m).Lawful ∧
        (s.move m).marked t f = (s.ran m).toList.countP c + s.marked t f := by
      cases m with
      | call k n =>
        exact ⟨hs.call k n, (marked_eq (s.shift_call k n).event hidle hnew).trans (by simp [ran])⟩
      | operate o =>
        exact ⟨hs.operate o, (marked_eq (s.shift_operate o).event hidle hnew).trans (by simp [ran])⟩
      | step i ch =>
        cases h : s.step i ch with
        | none => simp [ran, System.move, h, hs]
        | some s' =>
          obtain ⟨th, a, rest, turn, ht, ha, -, -, -⟩ := hs.shift h
          refine ⟨by simpa [System.move, h] using hs.step h, ?_⟩
          have hone : [a].countP c = (c a).toNat := by cases hc : c a <;> simp [hc]
          simpa [System.move, ran, h, ht, ha, hone] using hstep hs ht ha h
    rw [List.foldl_cons, ih hmove.1, hmove.2, trace, List.countP_append]
    omega

/-! ### Who finds what -/

/-- Who is to free a task finds it complete and not freed, and no requester asleep. -/
theorem freeing (hs : s.Lawful) (h : .free t ∈ s.duties) :
    ∃ x, s.broker.tasks[t]? = some x ∧ x.complete = true ∧ x.freed = false ∧ x.waiters = 0 := by
  obtain ⟨x, hx, hcomplete, hfreed⟩ : Duty.Ready s.ledger (.free t) := hs.ready _ h
  have hf := hs.custody t x hx
  have hfree := share_pos_iff.2 ⟨_, h, show (Duty.free t).part? t = some .free by simp [Duty.part?]⟩
  have := hf.after hcomplete
  have := hf.waiters
  exact ⟨x, hx, hcomplete, hfreed, by omega⟩

/-- Once nobody has a part in a task and it is in no queue, it is complete and freed. -/
theorem settled (hs : s.Lawful) {x : Task} (hx : s.broker.tasks[t]? = some x)
    (hqueued : s.ledger.queued t = 0) (hpart : ∀ p, share s.duties t p = 0) :
    x.complete = true ∧ x.freed = true := by
  obtain ⟨hkeeper, hscrap, -, -, hafter, -, -, -⟩ := hs.custody t x hx
  simp only [hpart, hqueued] at hkeeper hscrap hafter
  have hcomplete : x.complete = true := by grind
  have := hafter hcomplete
  exact ⟨hcomplete, Bool.toNat_eq_one.1 (by omega)⟩

end Lawful

/-! ### Results -/

/-- The result of a task is final: it is complete, or a worker has written the result and is to
complete it. -/
def Final (s : System) (t : TaskId) (r : TaskResult) : Prop :=
  ∃ x, s.broker.tasks[t]? = some x ∧ x.result = r ∧ (x.complete = true ∨ .finish t ∈ s.duties)

/-- Nobody writes the result of a task when it is final. -/
theorem Lawful.not_written (hs : s.Lawful) {x : Task} (hx : s.broker.tasks[t]? = some x)
    (h : x.complete = true ∨ .finish t ∈ s.duties) :
    .spoil t ∉ s.duties ∧ ∀ w, .post w (.closed t) ∉ s.duties := by
  obtain ⟨hkeeper, hscrap, hspoil, -, -, -, -, -⟩ := hs.custody t x hx
  have hfinish : (Duty.finish t).part? t = some .work := by simp [Duty.part?]
  refine ⟨fun hd => ?_, fun w hd => ?_⟩
  · have hpos := share_pos_iff.2 ⟨_, hd, show (Duty.spoil t).part? t = some .spoil by
      simp [Duty.part?]⟩
    rcases h with h | h
    · grind
    · have := share_pos_iff.2 ⟨_, h, hfinish⟩
      grind
  · have hclosed : (Duty.post w (.closed t)).part? t = some .work := by
      simp [Duty.part?, Phase.task?]
    rcases h with h | h
    · have := share_pos_iff.2 ⟨_, hd, hclosed⟩
      simp only [h, Bool.true_or, if_true] at hkeeper
      omega
    · have := two_le_share hd h (by simp) hclosed hfinish
      split at hkeeper <;> omega

theorem Final.step (h : s.Final t r) (hs : s.Lawful) (hstep : s.step i ch = some s') :
    s'.Final t r := by
  obtain ⟨x, hx, rfl, hfinal⟩ := h
  obtain ⟨th, a, rest, turn, ht, ha, -, -, hshift⟩ := hs.shift hstep
  obtain ⟨x', hx', htouched⟩ := hshift.event.touched hx
  obtain ⟨hspoil, hclosed⟩ := hs.not_written hx hfinal
  refine ⟨x', hx', htouched.result.resolve_right ?_, ?_⟩
  · rintro (hd | ⟨w, hd⟩)
    · exact hspoil (hshift.mem _ hd)
    · exact hclosed w (hshift.mem _ hd)
  · have hmark := hs.marked_complete_step (t := t) ht ha hstep
    rw [marked_of_some hx, marked_of_some hx'] at hmark
    have hle := Bool.toNat_le x'.complete
    rcases hfinal with hcomplete | hfinish
    · have hone : x'.complete.toNat = 1 := by rw [hcomplete, Bool.toNat_true] at hmark; omega
      exact .inl (Bool.toNat_eq_one.1 hone)
    · refine (hshift.mem_or (.inl hfinish)).symm.imp (fun hd => ?_) id
      rw [Action.completes_iff.2 (.inr hd), Bool.toNat_true] at hmark
      have hone : x'.complete.toNat = 1 := by omega
      exact Bool.toNat_eq_one.1 hone

/-- A final result stays as it is. -/
theorem Final.reachable (h : s.Final t r) (hs : s.Lawful) (hr : Reachable s s') :
    s'.Lawful ∧ s'.Final t r := by
  let both (s' : System) : Prop := s'.Lawful ∧ s'.Final t r
  have hfirst : both s := ⟨hs, h⟩
  refine hr.invariant hfirst (fun _ h hstep => ⟨h.1.step hstep, h.2.step h.1 hstep⟩)
    (fun c n _ h => ⟨h.1.call c n, ?_⟩) fun o _ h => ⟨h.1.operate o, ?_⟩
  · obtain ⟨x, hx, hr, hfinal⟩ := h.2
    exact ⟨x, hx, hr, hfinal.imp_right fun h => by rwa [duties_call]⟩
  · obtain ⟨x, hx, hr, hfinal⟩ := h.2
    obtain ⟨x', hx', htouched⟩ := (shift_operate _ o).event.touched hx
    refine ⟨x', hx', (htouched.result.resolve_right (by simp)).trans hr, ?_⟩
    rwa [htouched.complete.resolve_right (by simp)]

/-- In every later state, a requester that takes the result of a task takes this one. -/
def Yields (s : System) (t : TaskId) (r : TaskResult) : Prop :=
  ∀ (s₁ s₂ : System) (j : ThreadId) (ch : Choices) (th : Thread) (q : Inquiry) (rest : List Action),
    Reachable s s₁ → s₁.threads[j]? = some th → th.agenda = .request (.collect q t) :: rest →
    s₁.step j ch = some s₂ → ∃ th' id, s₂.threads[j]? = some th' ∧
      th'.agenda = .task (.free t .requester) :: .request (.conclude q id r) :: rest

theorem Final.yields (h : s.Final t r) (hs : s.Lawful) : s.Yields t r := by
  intro s₁ s₂ j ch th q rest hr ht ha hstep
  obtain ⟨hs₁, x, hx, rfl, -⟩ := h.reachable hs hr
  obtain ⟨turn, hrun, rfl, -⟩ := hs₁.shift_of ht ha hstep
  rw [Action.run, RequestStep.run, hx] at hrun
  obtain rfl := Option.some.inj hrun
  exact ⟨_, x.compileId, threadsAfter_self ht, Thread.agenda_after ha⟩

namespace Lawful

/-- Completing a task makes its result final. -/
theorem yields_of_complete (hs : s.Lawful) {th : Thread} {who : FreedBy} {rest : List Action}
    (ht : s.threads[i]? = some th) (ha : th.agenda = .task (.complete t who) :: rest)
    (hstep : s.step i ch = some s') :
    ∃ x, s.broker.tasks[t]? = some x ∧ s'.Yields t x.result ∧ (who = .stale → x.Spoilt) := by
  have hs' := hs.step hstep
  obtain ⟨turn, hrun, rfl, hshift⟩ := hs.shift_of ht ha hstep
  have hc : (Action.task (.complete t who)).completes t = true := by simp [Action.completes]
  obtain ⟨x, hx, hopen⟩ : ∃ x, s.ledger.tasks[t]? = some x ∧ x.complete = false := by
    rcases Action.completes_iff.1 hc with hd | hd <;> exact hs.ready _ (hshift.mem _ hd)
  obtain ⟨x', hx', hcomplete, hresult⟩ := TaskStep.complete_run hx hopen hrun
  refine ⟨x, hx, Final.yields ⟨x', hx', hresult, .inl hcomplete⟩ hs', ?_⟩
  rintro rfl
  have hf := hs.custody t x hx
  have hscrap := share_pos_iff.2 ⟨_, hshift.mem _ rfl, show (Duty.scrap t).part? t = some .scrap by
    simp [Duty.part?]⟩
  have hspoil := hs.spoil_eq_zero ht ha rfl
  have := hf.scrap
  exact (hf.result (by grind)).resolve_left (by omega)

/-- A worker that writes the result makes it final. -/
theorem yields_of_publish (hs : s.Lawful) {th : Thread} {w : WorkerId} {f : Finished}
    {rest : List Action} (ht : s.threads[i]? = some th)
    (ha : th.agenda = .worker w (.publish f) :: rest) (hstep : s.step i ch = some s') :
    s'.Yields f.task f.result := by
  have hs' := hs.step hstep
  obtain ⟨turn, hrun, rfl, hshift⟩ := hs.shift_of ht ha hstep
  obtain ⟨hw, ht⟩ := hs.known _ (hshift.mem _ rfl)
  obtain ⟨worker, unit, -, -, hrun⟩ := Action.worker_run hs.sound hw hrun
  obtain ⟨x, hx⟩ := Table.exists_getElem? (ht _ rfl)
  rw [WorkerStep.run] at hrun
  obtain rfl := Option.some.inj hrun
  refine Final.yields ⟨_, Table.getElem?_modify_self hx _, rfl, .inr ?_⟩ hs'
  exact (hshift.mem_or (.inr List.mem_cons_self)).resolve_right (by simp [Action.duty?])

end Lawful

/-! ### The handshake as a whole -/

/-- The handshake of a task, in a state and the trace that led to it. -/
structure Handshake (s : System) (trace : List Action) (t : TaskId) : Prop where
  /-- The task is completed at most once. -/
  completed : trace.countP (·.completes t) ≤ 1
  /-- The task is freed at most once. -/
  freed : trace.countP (·.frees t) ≤ 1
  /-- Who frees it does so after it was completed, and while nobody waits for it. -/
  freeing : ∀ (i : ThreadId) (th : Thread) (who : FreedBy) (rest : List Action),
    s.threads[i]? = some th → th.agenda = .task (.free t who) :: rest →
    trace.countP (·.completes t) = 1 ∧ trace.countP (·.frees t) = 0 ∧
      ∃ x, s.broker.tasks[t]? = some x ∧ x.complete = true ∧ x.waiters = 0
  /-- Once the task is in no queue and no action of its requester or of the one who completes it is
  left, it was completed and freed. -/
  settled : t < s.broker.tasks.size → (∀ unit ∈ s.broker.units.toList, t ∉ unit.queue.list.toList) →
    (∀ a ∈ s.pending, a.part? t = none) →
    trace.countP (·.completes t) = 1 ∧ trace.countP (·.frees t) = 1
  /-- A requester takes the result after the task was completed. -/
  collecting : ∀ (i : ThreadId) (th : Thread) (q : Inquiry) (rest : List Action),
    s.threads[i]? = some th → th.agenda = .request (.collect q t) :: rest →
    trace.countP (·.completes t) = 1
  /-- It takes the result that the task had when it was completed; if nothing was compiled, this is
  the failure of a stale task. -/
  completing : ∀ (i : ThreadId) (ch : Choices) (th : Thread) (who : FreedBy) (rest : List Action)
    (s' : System), s.threads[i]? = some th → th.agenda = .task (.complete t who) :: rest →
    s.step i ch = some s' →
    ∃ x, s.broker.tasks[t]? = some x ∧ s'.Yields t x.result ∧ (who = .stale → x.Spoilt)
  /-- If a worker wrote a result, it takes that one. -/
  publishing : ∀ (i : ThreadId) (ch : Choices) (th : Thread) (w : WorkerId) (f : Finished)
    (rest : List Action) (s' : System), s.threads[i]? = some th →
    th.agenda = .worker w (.publish f) :: rest → f.task = t → s.step i ch = some s' →
    s'.Yields t f.result

theorem Lawful.handshake (hs : s.Lawful) {trace : List Action}
    (hcompleted : trace.countP (·.completes t) = s.marked t Task.complete)
    (hfreed : trace.countP (·.frees t) = s.marked t Task.freed) : s.Handshake trace t where
  completed := hcompleted ▸ Bool.toNat_le _
  freed := hfreed ▸ Bool.toNat_le _
  freeing i th who rest ht ha := by
    have hmem : Action.task (.free t who) ∈ s.pending := mem_pending.2 ⟨i, th, ht, by simp [ha]⟩
    obtain ⟨x, hx, hcomplete, hopen, hwaiters⟩ := hs.freeing (mem_duties.2 ⟨_, hmem, rfl⟩)
    rw [hcompleted, hfreed, marked_of_some hx, marked_of_some hx, hcomplete, hopen]
    exact ⟨rfl, rfl, x, hx, hcomplete, hwaiters⟩
  settled ht hqueued hpart := by
    obtain ⟨x, hx⟩ := Table.exists_getElem? ht
    have hnone : s.ledger.queued t = 0 := by
      refine Table.total_eq_zero_iff.2 fun u st hst => List.count_eq_zero.2 ?_
      rw [ledger, Broker.getElem?_stocks] at hst
      obtain ⟨unit, hunit, rfl⟩ := Option.map_eq_some_iff.1 hst
      exact hqueued unit (Table.mem_toList_iff.2 ⟨u, hunit⟩)
    have hshare (p : Part) : share s.duties t p = 0 := by
      refine Multiset.countP_eq_zero.2 fun d hd hp => ?_
      obtain ⟨a, ha, hd⟩ := mem_duties.1 hd
      have := hpart a ha
      rw [Action.part?, hd, Option.bind_some, hp] at this
      cases this
    obtain ⟨hcomplete, hfree⟩ := hs.settled hx hnone hshare
    rw [hcompleted, hfreed, marked_of_some hx, marked_of_some hx, hcomplete, hfree]
    exact ⟨rfl, rfl⟩
  collecting i th q rest ht ha := by
    have hmem : Action.request (.collect q t) ∈ s.pending := mem_pending.2 ⟨i, th, ht, by simp [ha]⟩
    obtain ⟨x, hx, hcomplete, -⟩ := hs.freeing (mem_duties.2 ⟨_, hmem, rfl⟩)
    rw [hcompleted, marked_of_some hx, hcomplete]
    rfl
  completing i ch th who rest s' ht ha hstep := hs.yields_of_complete ht ha hstep
  publishing i ch th w f rest s' ht ha hf hstep := hf ▸ hs.yields_of_publish ht ha hstep

/-- In every run of a broker, whatever requesters, workers, stale finalizers and calls that disable
compilation do, and in whatever order, each task is completed and freed as its handshake demands. -/
theorem handshake_of_run {config : Config} {parts : Broker.Parts} {b : Broker}
    (h : Broker.assemble config parts = .ok b) (moves : List Move) (t : TaskId) :
    (moves.foldl move (launch b)).Handshake ((launch b).trace moves) t := by
  have hb := Broker.fresh_assemble h
  have hnone (f : Task → Bool) : (launch b).marked t f = 0 :=
    marked_of_none (by rw [launch, hb.tasks]; rfl) f
  have hlaunch := lawful_launch hb
  have hs := (reachable_iff_foldl.2 ⟨moves, rfl⟩ : Reachable (launch b) _).lawful hb
  refine hs.handshake ?_ ?_
  · have := hlaunch.countP_trace (t := t) (c := (·.completes t)) (f := Task.complete)
      (fun h _ => h) (fun h => h.complete.resolve_right (by simp))
      (fun hs ht ha h => hs.marked_complete_step ht ha h) moves
    rw [this, hnone, Nat.add_zero]
  · have := hlaunch.countP_trace (t := t) (c := (·.frees t)) (f := Task.freed)
      (fun _ h => h) (fun h => h.freed.resolve_right (by simp))
      (fun hs ht ha h => hs.marked_freed_step ht ha h) moves
    rw [this, hnone, Nat.add_zero]

/-- A requester waits, the worker compiles in vain, and the requester takes the failure. -/
def soloWait : List Move :=
  soloStart
    ++ [.call (.request { method := 0, tier := 1, reason := .normal, blocking := true }) 0]
    ++ times 2 21 ++ times 1 11 ++ [.step 1 { move := some .finish }] ++ times 1 12 ++ times 2 6

/-- There a task is completed, and freed by the requester. -/
theorem handshake_of_soloWait :
    (soloWait.foldl move (launch .solo)).Handshake ((launch .solo).trace soloWait) 0 ∧
      ((launch .solo).trace soloWait).countP (·.completes 0) = 1 ∧
      ((launch .solo).trace soloWait).countP (·.frees 0) = 1 :=
  ⟨handshake_of_run Broker.assemble_solo _ _, by decide +kernel⟩

end System

end JitBroker
