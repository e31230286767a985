import JitBroker.Proofs.Books.Accounts
import JitBroker.Proofs.Fittings
import JitBroker.Proofs.Queue.Choice
import JitBroker.Proofs.Shutdown.Closing
import JitBroker.Proofs.Task.Handshake

/-!
# What workers pull from queues

A worker that looks into a queue with tasks has the selector of the queue pick among them, as its
policy says (`System.Chooses`). What is chosen the worker takes up, and was not obsolete then. What
is reported as obsolete is completed as stale, once, and reaches no back-end, neither before nor
after (`System.Discarded`):

* before, since a task that a worker has got is in no queue any more, and is never brought to one
  again (`System.Off`), whereas the reported one was in the queue;
* after, since nobody is to work on a task that is marked as stale (`Fair.keeper`).

The main theorem is `System.selecting_of_run`.
-/

namespace JitBroker

/-! ### Tasks that are in no queue any more -/

namespace Event

variable {l l' : Ledger} {d : Option Duty} {new : List Duty} {hired : Option WorkerId} {t : TaskId}
  {u : UnitId} {m : MethodId} {w : WorkerId} {st' : Stock}

/-- A task that is in a queue was in it before, or is brought to it. -/
theorem queued_of (h : Event l d new hired l') (hst' : l'.stocks[u]? = some st')
    (ht : t ∈ st'.list.toList) :
    (∃ st, l.stocks[u]? = some st ∧ t ∈ st.list.toList) ∨ ∃ m, d = some (.bring u m t) := by
  obtain ⟨st, hst, ⟨-, hsub⟩ | ⟨m, t', rfl⟩⟩ := h.stock_of hst'
  · exact .inl ⟨st, hst, hsub t ht⟩
  · cases h with
    | append hx hst₀ hlist slot =>
      obtain ⟨st₁, hst₁, ⟨hne, -⟩ | ⟨-, rfl⟩⟩ := Table.exists_of_modify hst'
      · exact absurd rfl hne
      · rw [hlist.toList_eq, List.mem_append, List.mem_singleton] at ht
        rcases ht with ht | rfl
        · exact .inl ⟨_, hst₀, ht⟩
        · exact .inr ⟨m, rfl⟩
    | ring hd _ _ | close hd _ _ => rcases hd with hd | hd <;> cases hd
    | plain d | know d | stamp depth => exact .inl ⟨st', hst', ht⟩

/-- Whoever is to bring a task was to bring it before, unless the task is new. -/
theorem bring_of_new (h : Event l d new hired l') (hnew : .bring u m t ∈ new) :
    d = some (.bring u m t) ∨ t = l.tasks.size := by
  have not_mem (ts : List TaskId) : Duty.bring u m t ∉ ts.flatMap Duty.discard := by
    intro hmem
    obtain ⟨_, -, h | h | h⟩ := Duty.mem_discard.1 hmem <;> cases h
  cases h with
  | plain d | know d => exact .inl (Option.mem_toList.1 hnew)
  | allocate _ _ _ _ _ =>
    obtain ⟨rfl, rfl, rfl⟩ := Duty.bring.inj (List.mem_singleton.1 hnew)
    exact .inr rfl
  | stamp _ => exact .inl (congrArg some (List.mem_singleton.1 hnew).symm)
  | drain _ _ _ _ _ => exact absurd hnew (not_mem _)
  | fetch _ _ _ _ | clean _ _ _ _ _ =>
    exact absurd (List.mem_append.1 hnew) (by simp [not_mem])
  | append _ _ _ _ =>
    split at hnew <;> simp at hnew
  | disable _ | rouse | nudge _ => simp at hnew
  | _ => simp at hnew

/-- A worker gets a task only by choosing. -/
theorem hold_of_new (h : Event l d new hired l') (hnew : .post w (.hold t) ∈ new) :
    d = some (.post w (.hold t)) ∨ d = some (.post w .pick) := by
  have not_mem (ts : List TaskId) : Duty.post w (.hold t) ∉ ts.flatMap Duty.discard := by
    intro hmem
    obtain ⟨_, -, h | h | h⟩ := Duty.mem_discard.1 hmem <;> cases h
  cases h with
  | plain d | know d => exact .inl (Option.mem_toList.1 hnew)
  | drain _ _ _ _ _ => exact absurd hnew (not_mem _)
  | fetch _ _ _ _ =>
    obtain ⟨rfl, -⟩ : w = _ ∧ t = _ := by simpa [not_mem] using hnew
    exact .inr rfl
  | clean _ _ _ _ ha =>
    rcases ha with ⟨rfl, -⟩ | ⟨rfl, -⟩ <;> exact absurd (List.mem_append.1 hnew) (by simp [not_mem])
  | lookOut _ _ ha =>
    rcases ha with rfl | rfl <;> simp at hnew
  | append _ _ _ _ =>
    split at hnew <;> simp at hnew
  | _ => simp at hnew

end Event

namespace System

variable {s s' first : System} {m : Move} {ms : List Move} {t : TaskId} {w : WorkerId}
  {i : ThreadId} {ch : Choices} {th : Thread} {a : Action} {rest : List Action} {turn : Turn}
  {chosen : Option TaskId} {stale : List TaskId}

/-- The task is in no queue, and nobody brings it to one. -/
structure Off (s : System) (t : TaskId) : Prop where
  /-- The task exists. -/
  known : t < s.ledger.tasks.size
  /-- It is in no queue. -/
  queued : ∀ {u : UnitId} {st : Stock}, s.ledger.stocks[u]? = some st → t ∉ st.list.toList
  /-- Nobody brings it to one. -/
  bring : ∀ u m, .bring u m t ∉ s.duties

/-- A task that is in no queue does not come to one again. -/
theorem Off.move (h : s.Off t) (hs : s.Lawful) (m : Move) : (s.move m).Off t := by
  obtain ⟨d, new, hired, hshift⟩ := hs.shift_move m
  refine ⟨hshift.event.extends.lt_tasks h.known, fun hst ht => ?_, fun u n hd => ?_⟩
  · rcases hshift.event.queued_of hst ht with ⟨st, hst, ht⟩ | ⟨n, rfl⟩
    · exact h.queued hst ht
    · exact h.bring _ _ (hshift.mem _ rfl)
  · rcases hshift.of_mem hd with hd | hd | ⟨w, -, hd⟩
    · exact h.bring u n hd
    · rcases hshift.event.bring_of_new hd with rfl | rfl
      · exact h.bring u n (hshift.mem _ rfl)
      · exact absurd h.known (Nat.lt_irrefl _)
    · cases hd

theorem Off.foldl (h : s.Off t) (hs : s.Lawful) (ms : List Move) : (ms.foldl System.move s).Off t := by
  induction ms generalizing s with
  | nil => exact h
  | cons m ms ih => exact ih (h.move hs m) (hs.move m)

/-- A task that a worker has got is in no queue any more. -/
theorem Lawful.off_of_work (hs : s.Lawful) {d : Duty} (hd : d ∈ s.duties)
    (hwork : d.part? t = some .work) : s.Off t := by
  have hpos := share_pos_iff.2 ⟨d, hd, hwork⟩
  have ht : t < s.ledger.tasks.size := by
    by_contra hnot
    rw [share_eq_zero hs.known (Nat.not_lt.1 hnot)] at hpos
    exact absurd hpos (Nat.lt_irrefl 0)
  obtain ⟨x, hx⟩ := Table.exists_getElem? ht
  have hkeeper := (hs.custody t x hx).keeper
  refine ⟨ht, fun {u st} hst hmem => ?_, fun u n hbring => ?_⟩
  · have hcount := (List.count_pos_iff.2 hmem).trans_le
      (Table.le_total hst fun st : Stock => st.list.toList.count t)
    change 0 < s.ledger.queued t at hcount
    split at hkeeper <;> omega
  · have := share_pos_iff.2 ⟨_, hbring, show (Duty.bring u n t).part? t = some .bring by
      simp [Duty.part?]⟩
    split at hkeeper <;> omega

/-! ### Choosing -/

/-- In a move a worker has the selector of its queue, in which there are tasks, pick among them. -/
structure Chooses (s : System) (m : Move) (w : WorkerId) (chosen : Option TaskId)
    (stale : List TaskId) : Prop where
  /-- The worker looks into its queue. -/
  ran : s.ran m = some (.worker w .choose)
  /-- There are tasks in it, and the selector picks what its policy says of them. -/
  picks : ∃ worker unit b', s.broker.workers[w]? = some worker ∧
    s.broker.units[worker.unit]? = some unit ∧ unit.queue.list.isEmpty = false ∧
    s.broker.select? worker.unit unit.queue = some (chosen, stale, b') ∧
    unit.queue.selector.Picks s.broker.isObsolete s.broker.merit unit.queue.list.toList chosen
      stale

/-- The tasks in a queue exist, and so do their methods. -/
theorem Lawful.knows (hs : s.Lawful) {u : UnitId} {unit : TierUnit}
    (hunit : s.broker.units[u]? = some unit) : s.broker.Knows unit.queue.list.toList := by
  intro t ht
  obtain ⟨x, hx⟩ := Table.exists_getElem? (hs.sound.queued (stock_of_unit hunit) t ht)
  obtain ⟨n, hn⟩ := hs.sound.exists_method hx
  exact ⟨x, n, hx, hn⟩

/-- A worker that looks into its queue finds it empty, or the selector picks. -/
theorem Lawful.chooses (hs : s.Lawful) (h : s.ran m = some (.worker w .choose)) :
    ∃ worker unit, s.broker.workers[w]? = some worker ∧
      s.broker.units[worker.unit]? = some unit ∧
      (unit.queue.list.isEmpty = true ∨ ∃ chosen stale, s.Chooses m w chosen stale) := by
  obtain ⟨i, ch, th, rest, turn, hruns⟩ := exists_runs h
  have hknown := hs.known _ (mem_duties.2 ⟨_, hruns.mem_pending, rfl⟩)
  obtain ⟨worker, unit, hw, hu, -⟩ := Action.worker_run hs.sound hknown.1 hruns.run
  refine ⟨worker, unit, hw, hu, ?_⟩
  cases hempty : unit.queue.list.isEmpty with
  | true => exact .inl rfl
  | false =>
    have hsound := hs.sound.list (stock_of_unit hu)
    obtain ⟨chosen, stale, b', hselect, hpicks⟩ :=
      s.broker.exists_picks worker.unit unit.queue hsound (hs.knows hu)
    exact .inr ⟨chosen, stale, h, worker, unit, b', hw, hu, hempty, hselect, hpicks⟩

/-- Nothing obsolete is chosen. -/
theorem Chooses.not_obsolete (h : s.Chooses m w (some t) stale) : s.broker.isObsolete t = false := by
  obtain ⟨worker, unit, b', -, -, -, -, hpicks⟩ := h.picks
  exact hpicks.not_obsolete rfl

/-- What is picked is in a queue. -/
theorem Chooses.queued (h : s.Chooses m w chosen stale) (ht : t ∈ stale ++ chosen.toList) :
    ∃ (u : UnitId) (st : Stock), s.ledger.stocks[u]? = some st ∧ t ∈ st.list.toList := by
  obtain ⟨worker, unit, b', -, hu, -, -, hpicks⟩ := h.picks
  exact ⟨worker.unit, unit.queue.stock, stock_of_unit hu, hpicks.subperm.subset ht⟩

/-- What a worker does that chooses: it takes what is picked off its queue, and goes on with the chosen
task, once the obsolete ones are finished. -/
theorem Chooses.after (h : s.Chooses m w chosen stale) (hs : s.Lawful)
    (hruns : s.Runs m i ch th a rest turn) :
    Withdrawn s.broker.tasks stale chosen.toList turn.broker.tasks ∧
      ∀ t, .post w (.hold t) ∈ JitBroker.duties turn.next → chosen = some t := by
  obtain rfl := Option.some.inj (hruns.ran.symm.trans h.ran)
  obtain ⟨worker, unit, b', hw, hu, hempty, hselect, -⟩ := h.picks
  have hsound := hs.sound.list (stock_of_unit hu)
  have htasks : Withdrawn s.broker.tasks stale chosen.toList b'.tasks := by
    obtain ⟨chosen', stale', b'', hselect', list, tasks, -, hwithdrawn, hledger⟩ :=
      s.broker.exists_select worker.unit unit hsound
    obtain ⟨rfl, rfl, rfl⟩ : chosen = chosen' ∧ stale = stale' ∧ b' = b'' := by
      simpa using hselect.symm.trans hselect'
    rwa [show b'.tasks = tasks from congrArg Ledger.tasks hledger]
  have not_mem (t : TaskId) : Duty.post w (.hold t) ∉ stale.flatMap Duty.discard := by
    intro hmem
    obtain ⟨_, -, h | h | h⟩ := Duty.mem_discard.1 hmem <;> cases h
  have hrun := hruns.run
  simp only [Action.run, hw, hu, WorkerStep.run, hempty, Bool.false_eq_true, if_false, hselect]
    at hrun
  cases hstale : stale.isEmpty with
  | true =>
    rw [hstale, if_pos rfl] at hrun
    cases chosen with
    | some t' =>
      obtain rfl := Option.some.inj hrun
      refine ⟨htasks, fun t ht => ?_⟩
      have heq : t = t' := by simpa [JitBroker.duties, Action.duty?, WorkerStep.phase] using ht
      rw [heq]
    | none =>
      obtain rfl := Option.some.inj hrun
      exact ⟨htasks, fun t ht => by simp [JitBroker.duties, Action.duty?, WorkerStep.phase] at ht⟩
  | false =>
    rw [hstale, if_neg Bool.false_ne_true] at hrun
    obtain rfl := Option.some.inj hrun
    refine ⟨htasks, fun t ht => ?_⟩
    rw [duties_append, duties_stale, List.mem_append] at ht
    have ht := ht.resolve_left (not_mem t)
    cases chosen with
    | some t' =>
      have heq : t = t' := by simpa [JitBroker.duties, Action.duty?, WorkerStep.phase] using ht
      rw [heq]
    | none => simp [JitBroker.duties, Action.duty?, WorkerStep.phase] at ht

/-- Where nothing is run, nobody gets other duties. -/
theorem duties_of_ran (h : s.ran m = none) : (s.move m).duties = s.duties := by
  cases m with
  | call c n => exact duties_call s c n
  | operate o => rfl
  | step i ch => rw [move_step_of_ran h]

/-- The step of a thread is a shift of ledger and duties. -/
theorem Runs.shift (hs : s.Lawful) (h : s.Runs m i ch th a rest turn) :
    Shift s.ledger s.duties a.duty? (JitBroker.duties turn.next) turn.hired (s.move m).ledger
      (s.move m).duties := by
  have hduty (d : Duty) (hd : d ∈ a.duty?) : d ∈ s.duties := mem_duties.2 ⟨a, h.mem_pending, hd⟩
  rw [h.turned]
  exact ⟨Action.event hs.sound (fun d hd => hs.ready d (hduty d hd)) h.run, hduty,
    duties_turned h.thread h.agenda⟩

theorem eq_choose_of_duty (h : a.duty? = some (.post w .pick)) : a = .worker w .choose := by
  cases a with
  | worker w' st => cases st <;> simp_all [Action.duty?, WorkerStep.phase]
  | request st => cases st <;> cases h
  | task st =>
    cases st with
    | complete t who => cases who <;> cases h
    | _ => cases h
  | control st => cases st <;> cases h
  | _ => cases h

/-- A task that a worker has got was chosen, and was not obsolete then. -/
theorem exists_chooses (hs : first.Lawful)
    (hnone : ∀ w t, .post w (.hold t) ∉ first.duties) (ms : List Move) {w : WorkerId} {t : TaskId}
    (h : .post w (.hold t) ∈ (ms.foldl System.move first).duties) :
    ∃ (before : List Move) (m : Move) (after : List Move) (stale : List TaskId),
      ms = before ++ m :: after ∧
        (before.foldl System.move first).Chooses m w (some t) stale := by
  induction ms using List.reverseRecOn with
  | nil => exact absurd h (hnone w t)
  | append_singleton ms m ih =>
    have hlawful := hs.foldl ms
    rw [List.foldl_concat] at h
    have old (h : .post w (.hold t) ∈ (ms.foldl System.move first).duties) :
        ∃ before m' after stale, ms ++ [m] = before ++ m' :: after ∧
          (before.foldl System.move first).Chooses m' w (some t) stale := by
      obtain ⟨before, m', after, stale, rfl, hchooses⟩ := ih h
      exact ⟨before, m', after ++ [m], stale, by simp, hchooses⟩
    cases hran : (ms.foldl System.move first).ran m with
    | none => exact old (duties_of_ran hran ▸ h)
    | some a =>
      obtain ⟨i, ch, th, rest, turn, hruns⟩ := exists_runs hran
      have hshift := hruns.shift hlawful
      rcases hshift.of_mem h with h | hnew | ⟨w', -, h⟩
      · exact old h
      · rcases hshift.event.hold_of_new hnew with hd | hd
        · exact old (hshift.mem _ hd)
        · obtain rfl := eq_choose_of_duty hd
          obtain ⟨worker, unit, hw, hu, hempty | ⟨chosen, stale, hchooses⟩⟩ := hlawful.chooses hran
          · have hrun := hruns.run
            simp only [Action.run, hw, hu, WorkerStep.run, hempty, if_true] at hrun
            obtain rfl := Option.some.inj hrun
            simp [JitBroker.duties, Action.duty?, WorkerStep.phase] at hnew
          · obtain rfl := (hchooses.after hlawful hruns).2 t hnew
            exact ⟨ms, m, [], stale, rfl, hchooses⟩
      · cases h

end System

/-! ### What becomes of obsolete tasks -/

/-- Whether an action is to complete a task as stale. -/
def Action.scraps (t : TaskId) : Action → Bool
  | .task (.complete t' .stale) => t' == t
  | _ => false

/-- Whether a back-end is at work on a task. -/
def Action.compiles (t : TaskId) : Action → Bool
  | .worker _ (.compile c) | .worker _ (.attach c _) => c.task == t
  | _ => false

theorem Action.scraps_iff {a : Action} {t : TaskId} :
    a.scraps t = true ↔ a.part? t = some .scrap := by
  cases a with
  | task s =>
    cases s with
    | complete t' who => cases who <;> simp [scraps, part?, duty?, TaskStep.duty?, Duty.part?]
    | _ => simp [scraps, part?, duty?, TaskStep.duty?, Duty.part?]
  | request s => cases s <;> simp [scraps, part?, duty?, RequestStep.duty?, Duty.part?]
  | control s => cases s <;> simp [scraps, part?, duty?, ControlStep.duty?, Duty.part?]
  | worker w s => simp [scraps, part?, duty?, Duty.part?]
  | _ => simp [scraps, part?, duty?]

theorem Action.part_of_compiles {a : Action} {t : TaskId} (h : a.compiles t = true) :
    ∃ d, a.duty? = some d ∧ d.part? t = some .work := by
  unfold compiles at h
  split at h
  · exact ⟨_, rfl, by simp [WorkerStep.phase, Duty.part?, Phase.task?, beq_iff_eq.1 h]⟩
  · exact ⟨_, rfl, by simp [WorkerStep.phase, Duty.part?, Phase.task?, beq_iff_eq.1 h]⟩
  · cases h

namespace System

variable {s first : System} {m : Move} {ms : List Move} {t : TaskId} {w : WorkerId}
  {chosen : Option TaskId} {stale : List TaskId}

/-- Parts in a task are counted by the actions that have them. -/
theorem share_duties (s : System) (t : TaskId) (p : Part) :
    share s.duties t p = s.pending.countP (·.part? t = some p) := by
  rw [duties, pending, Multiset.filterMap_coe, share, Multiset.coe_countP, Multiset.coe_countP,
    List.countP_filterMap]
  refine List.countP_congr fun a _ => ?_
  rw [Action.part?]
  cases a.duty? <;> simp

/-- A task that was found obsolete is completed as stale, once, and reaches no back-end. -/
structure Discarded (first : System) (ms : List Move) (t : TaskId) : Prop where
  /-- It has been completed, or one thread is to complete it as stale. -/
  once : (first.trace ms).countP (·.completes t)
    + (ms.foldl System.move first).pending.countP (·.scraps t) = 1
  /-- If it has been completed, then as stale. -/
  stale : ∀ a ∈ first.trace ms, a.completes t = true → a.scraps t = true
  /-- At no time is a back-end at work on it. -/
  idle : ∀ before after, ms = before ++ after →
    ∀ a ∈ (before.foldl System.move first).pending, a.compiles t = false

/-- Nobody works on a task that is stale. -/
theorem Lawful.not_work (hs : s.Lawful) {x : Task} (hx : s.broker.tasks[t]? = some x)
    (hstale : x.stale = true) {d : Duty} (hd : d ∈ s.duties) : d.part? t ≠ some .work := by
  intro hwork
  have hkeeper := (hs.custody t x hx).keeper
  rw [hstale, Bool.or_true, if_pos rfl] at hkeeper
  have := share_pos_iff.2 ⟨d, hd, hwork⟩
  omega

/-- What is completed while a task is stale is not completed by its worker. -/
theorem Lawful.scraps_of_completes (hs : s.Lawful) {x : Task}
    (hx : s.broker.tasks[t]? = some x) (hstale : x.stale = true) {a : Action} (ha : a ∈ s.pending)
    (hc : a.completes t = true) : a.scraps t = true := by
  rcases Action.completes_iff.1 hc with hd | hd
  · rw [Action.scraps_iff, Action.part?, hd]
    simp [Duty.part?]
  · exact absurd (by simp [Duty.part?])
      (hs.not_work hx hstale (d := .finish t) (mem_duties.2 ⟨a, ha, hd⟩))

/-- A task that is in a queue is not complete. -/
theorem Lawful.open_of_queued (hs : s.Lawful) {x : Task} (hx : s.broker.tasks[t]? = some x)
    {u : UnitId} {st : Stock} (hst : s.ledger.stocks[u]? = some st) (ht : t ∈ st.list.toList) :
    x.complete = false := by
  have hcount := (List.count_pos_iff.2 ht).trans_le
    (Table.le_total hst fun st : Stock => st.list.toList.count t)
  change 0 < s.ledger.queued t at hcount
  have hkeeper := (hs.custody t x hx).keeper
  by_contra hcomplete
  rw [Bool.eq_true_of_not_eq_false hcomplete, Bool.true_or, if_pos rfl] at hkeeper
  omega

/-- A task is complete as often as it was completed. -/
theorem completes_trace {b : Broker} (hb : b.Fresh) (ms : List Move) (t : TaskId) :
    ((launch b).trace ms).countP (·.completes t) =
      (ms.foldl System.move (launch b)).marked t Task.complete := by
  have hnone : (launch b).marked t Task.complete = 0 :=
    marked_of_none (by rw [launch, hb.tasks]; rfl) _
  have := (lawful_launch hb).countP_trace (t := t) (c := (·.completes t)) (f := Task.complete)
    (fun h _ => h) (fun h => h.complete.resolve_right (by simp))
    (fun hs ht ha h => hs.marked_complete_step ht ha h) ms
  rw [this, hnone, Nat.add_zero]

/-- A worker marks what is reported as obsolete. -/
theorem Chooses.marks (h : s.Chooses m w chosen stale) (hs : s.Lawful) (ht : t ∈ stale)
    (ms : List Move) :
    ∃ x, (ms.foldl System.move (s.move m)).broker.tasks[t]? = some x ∧ x.stale = true := by
  obtain ⟨i, ch, th, rest, turn, hruns⟩ := exists_runs h.ran
  obtain ⟨u, st, hst, hmem⟩ := h.queued (List.mem_append_left _ ht)
  obtain ⟨x, hx⟩ := Table.exists_getElem? (hs.sound.queued hst t hmem)
  obtain ⟨unloaded, hx'⟩ := (h.after hs hruns).1.task hx
  obtain ⟨x', hlater, hev⟩ := ((hs.move m).extends_foldl ms).task (t := t) (by
    rw [hruns.turned]
    exact hx')
  exact ⟨x', hlater, hev.stale (by simp [ht])⟩

/-- What is reported as obsolete is completed as stale, once, and reaches no back-end. -/
theorem Chooses.discarded {b : Broker} (hb : b.Fresh) {before after : List Move}
    (h : (before.foldl System.move (launch b)).Chooses m w chosen stale) (ht : t ∈ stale) :
    Discarded (launch b) (before ++ m :: after) t := by
  have hs := (lawful_launch hb).foldl before
  obtain ⟨u, st, hst, hmem⟩ := h.queued (List.mem_append_left _ ht)
  obtain ⟨x, hx⟩ := Table.exists_getElem? (hs.sound.queued hst t hmem)
  have hopen := hs.open_of_queued hx hst hmem
  refine ⟨?_, fun a ha hc => ?_, fun before' after' heq a ha => ?_⟩
  · obtain ⟨x', hx', hstale⟩ := h.marks hs ht after
    have hlawful := (lawful_launch hb).foldl (before ++ m :: after)
    rw [completes_trace hb]
    rw [List.foldl_append, List.foldl_cons] at hlawful ⊢
    have hscrap := (hlawful.custody t x' hx').scrap
    rw [share_duties] at hscrap
    simp only [← Action.scraps_iff, hstale, Bool.true_and] at hscrap
    rw [marked_of_some hx', hscrap]
    cases x'.complete <;> rfl
  · rw [trace_append, trace, List.mem_append, List.mem_append] at ha
    rcases ha with ha | ha | ha
    · -- Before it was reported, it was not completed.
      have hnone := completes_trace hb before t
      rw [marked_of_some hx, hopen, Bool.toNat_false] at hnone
      exact absurd hc (Bool.not_eq_true _ ▸ List.countP_eq_zero.1 hnone a ha)
    · rw [h.ran] at ha
      obtain rfl := List.mem_singleton.1 ha
      cases hc
    · rw [trace_eq_gather] at ha
      obtain ⟨ms₁, m', ms₂, rfl, hran⟩ := exists_of_mem_gather ha
      obtain ⟨i, ch, th, rest, turn, hruns⟩ := exists_runs hran
      obtain ⟨x', hx', hstale⟩ := h.marks hs ht ms₁
      exact ((hs.move m).foldl ms₁).scraps_of_completes hx' hstale hruns.mem_pending hc
  · by_contra hcompiles
    obtain ⟨d, hd, hwork⟩ := Action.part_of_compiles (Bool.eq_true_of_not_eq_false hcompiles)
    have hduty := mem_duties.2 ⟨a, ha, hd⟩
    have hs' := (lawful_launch hb).foldl before'
    rcases List.append_eq_append_iff.1 heq with ⟨_ | ⟨m', ms⟩, rfl, hrest⟩ | ⟨ms, rfl, -⟩
    · rw [List.append_nil] at hduty hs'
      exact (hs'.off_of_work hduty hwork).queued hst hmem
    · obtain ⟨rfl, rfl⟩ := List.cons.inj hrest
      obtain ⟨x', hx', hstale⟩ := h.marks hs ht ms
      rw [List.foldl_append] at hduty hs'
      exact hs'.not_work hx' hstale hduty hwork
    · have hoff := (hs'.off_of_work hduty hwork).foldl hs' ms
      rw [List.foldl_append] at hst
      exact hoff.queued hst hmem

/-! ### Every run -/

/-- How workers come to their tasks in a run. -/
structure Selecting (first : System) (ms : List Move) : Prop where
  /-- A worker that looks into its queue finds it empty, or the selector picks what its policy says. -/
  picks : ∀ {before m after w}, ms = before ++ m :: after →
    (before.foldl System.move first).ran m = some (.worker w .choose) →
    ∃ worker unit, (before.foldl System.move first).broker.workers[w]? = some worker ∧
      (before.foldl System.move first).broker.units[worker.unit]? = some unit ∧
      (unit.queue.list.isEmpty = true ∨
        ∃ chosen stale, (before.foldl System.move first).Chooses m w chosen stale)
  /-- A task that a worker takes up was chosen for it, and was not obsolete then. -/
  pulled : ∀ {w t}, .worker w (.adopt t) ∈ (ms.foldl System.move first).pending →
    ∃ before m after stale, ms = before ++ m :: after ∧
      (before.foldl System.move first).Chooses m w (some t) stale ∧
      (before.foldl System.move first).broker.isObsolete t = false
  /-- Tasks that were reported as obsolete are discarded. -/
  discarded : ∀ {before m after w chosen stale}, ms = before ++ m :: after →
    (before.foldl System.move first).Chooses m w chosen stale →
    ∀ t ∈ stale, Discarded first ms t

/-- By hotness, whatever linear order the rates are values of and however they are made of count and
age, the obsolete candidates are reported, and of the others the first one of the highest merit is
chosen. Whatever is in a queue, its selector picks what its policy says, with the rates that doubles
give; and in every run of a broker, a worker takes up only what was chosen for it while it was not
obsolete, and what was reported as obsolete is completed as stale, once, and reaches no back-end. -/
theorem selecting_of_run {config : Config} {parts : Broker.Parts} {b : Broker}
    (hb : Broker.assemble config parts = .ok b) (ms : List Move) :
    (∀ {R : Type} [LinearOrder R] (rate : Nat → Nat → R) (cs : List Candidate), ∃ chosen stale,
      Selection.byRank rate cs = ⟨chosen.map Candidate.slot, stale.map Candidate.slot⟩ ∧
        Selector.Hottest Candidate.obsolete (fun c => c.rank.merit rate) cs chosen stale) ∧
    (∀ (b : Broker) (u : UnitId) (queue : CompileQueue), queue.list.Sound →
      b.Knows queue.list.toList → ∃ chosen stale b',
        b.select? u queue = some (chosen, stale, b') ∧
        queue.selector.Picks b.isObsolete b.merit queue.list.toList chosen stale) ∧
    Selecting (launch b) ms := by
  have hfresh := Broker.fresh_assemble hb
  refine ⟨fun rate cs => ⟨_, _, rfl, Selection.hottest_foldl rate cs⟩,
    fun b u queue hsound hknown => b.exists_picks u queue hsound hknown, ?_, ?_, ?_⟩
  · rintro before m after w rfl hran
    exact ((lawful_launch hfresh).foldl before).chooses hran
  · intro w t hmem
    obtain ⟨before, m, after, stale, heq, hchooses⟩ :=
      exists_chooses (lawful_launch hfresh) (by simp) ms (mem_duties.2 ⟨_, hmem, rfl⟩)
    exact ⟨before, m, after, stale, heq, hchooses, hchooses.not_obsolete⟩
  · rintro before m after w chosen stale rfl hchooses t ht
    exact hchooses.discarded hfresh ht

/-- Two methods are requested before the worker of the small broker looks into the queue, and the first
of them is redefined. -/
def soloRedefined : List Move :=
  soloStart ++ [.operate (.addMethod { name := "g", className := "C" })]
    ++ soloRequest 2 0 ++ soloRequest 3 1 ++ [.operate (.redefine 0)] ++ times 1 4

/-- Then the worker chooses the second task, completes the first one as stale, and takes up the second
one. -/
theorem selecting_of_soloRedefined :
    Selecting (launch .solo) (soloRedefined ++ times 1 7) ∧
      (soloRedefined.foldl move (launch .solo)).broker.units.toList.map (fun unit =>
          (unit.queue.list.toList, ((soloRedefined.foldl move (launch .solo)).broker.select? 0
            unit.queue).map fun picked => (picked.1, picked.2.1))) =
        [([0, 1], some (some 1, [0]))] ∧
      ((launch .solo).trace (soloRedefined ++ times 1 7)).countP (·.scraps 0) = 1 ∧
      ((soloRedefined ++ times 1 7).foldl move (launch .solo)).threads[1]?.map
        (fun th => JitBroker.duties th.agenda) = some [.post 0 (.hold 1)] ∧
      ((soloRedefined ++ times 1 30).foldl move (launch .solo)).threads.toList.countP
        (·.agenda.any (·.compiles 1)) = 1 :=
  ⟨(selecting_of_run Broker.assemble_solo _).2.2, by decide +kernel⟩

end System

end JitBroker
