import JitBroker.Proofs.Rest.Bells

/-!
# Nobody waits for nothing

Bells ring when they have to, and whoever takes a lock gives it back. So in every state
(`System.Alert`) a worker that has heard all bells sleeps on a queue without tasks; whoever waits
for a back-end waits while another worker starts it; the lock of the crews, if it is taken, is with
somebody who goes on; and a worker that is parked, and has heard all bells, is parked while there is
a guard.
-/

namespace JitBroker

variable {me : Caller} {ch : Choices} {b b' : Broker} {turn : Turn} {a a' : Action}

/-! ### Every action -/

/-- After a turn in the place of an action, whoever waits still waits for something. -/
structure Turn.Alert (b : Broker) (a : Action) (turn : Turn) : Prop where
  /-- A queue that gains a task rings its bell, and a crew that has a worker has one still. -/
  unit : ∀ {u : UnitId} {x : TierUnit}, b.units[u]? = some x →
    ∃ x', turn.broker.units[u]? = some x' ∧ x.Follows x'
  /-- The broker is started by one action. -/
  initialized : turn.broker.initialized = b.initialized ∨
    a = .crew .open ∧ turn.broker.initialized = true
  /-- A worker that falls asleep has heard all bells of its queue, which has no task. -/
  asleep : ∀ {w : WorkerId} {bell due : Nat}, .worker w (.asleep bell due) ∈ turn.next →
    ∃ p x', b.ledger.posts[w]? = some p ∧ turn.broker.units[p.unit]? = some x' ∧
      x'.queue.bell = bell ∧ x'.queue.list.toList = []
  /-- A back-end that is starting was, and is still, or is started by a worker now. -/
  init : ∀ {u : UnitId} {x' : TierUnit}, turn.broker.units[u]? = some x' → x'.init = .running →
    (∃ x, b.units[u]? = some x ∧ x.init = .running ∧
      ∀ w p, a = .worker w .starting → b.ledger.posts[w]? = some p → p.unit ≠ u) ∨
      ∃ w p, .worker w .starting ∈ turn.next ∧ b.ledger.posts[w]? = some p ∧ p.unit = u
  /-- The lock of the crews is with those who hire. -/
  crewLock : turn.broker.crewLock.isSome = true →
    b.crewLock.isSome = true ∧ (∀ c, a = .crew c → c.isLocked = false) ∨
      ∃ c, .crew c ∈ turn.next ∧ c.isLocked = true
  /-- A gate that loses its last guard rings its bell. -/
  gate : b.gate.Follows turn.broker.gate
  /-- A worker that parks has seen a guard. -/
  parked : ∀ {bell : Nat}, .gate (.parked bell) ∈ turn.next →
    bell = turn.broker.gate.bell ∧ 0 < turn.broker.gate.guards

namespace Turn.Alert

/-- A turn is alert if it starts no back-end, and whoever begins to wait has something to wait
for. -/
theorem of_stirs {lock : Option ThreadId} {started : Bool}
    (hb : b.Stirs { turn.broker with crewLock := lock, initialized := started })
    (hsize : turn.broker.units.size = b.units.size)
    (hinit : turn.broker.initialized = b.initialized ∨
      a = .crew .open ∧ turn.broker.initialized = true)
    (hasleep : ∀ {w : WorkerId} {bell due : Nat}, .worker w (.asleep bell due) ∈ turn.next →
      ∃ p x', b.ledger.posts[w]? = some p ∧ turn.broker.units[p.unit]? = some x' ∧
        x'.queue.bell = bell ∧ x'.queue.list.toList = [])
    (hparked : ∀ {bell : Nat}, .gate (.parked bell) ∈ turn.next →
      bell = turn.broker.gate.bell ∧ 0 < turn.broker.gate.guards)
    (hstart : ∀ w, a ≠ .worker w .starting)
    (hcrew : turn.broker.crewLock.isSome = true →
      b.crewLock.isSome = true ∧ (∀ c, a = .crew c → c.isLocked = false) ∨
        ∃ c, .crew c ∈ turn.next ∧ c.isLocked = true) : turn.Alert b a where
  unit hu := by
    obtain ⟨x', hx', hfollows, -⟩ := hb.unit hu
    exact ⟨x', hx', hfollows⟩
  initialized := hinit
  asleep := hasleep
  init {u x'} hx' hinit := by
    obtain ⟨x, hx⟩ := Table.exists_getElem? (hsize ▸ Table.lt_size_of_getElem? hx')
    obtain ⟨y, hy, -, heq⟩ := hb.unit hx
    obtain rfl := Option.some.inj (hx'.symm.trans hy)
    exact .inl ⟨x, hx, heq ▸ hinit, fun w _ ha => absurd ha (hstart w)⟩
  crewLock := hcrew
  gate := hb.gate
  parked := hparked

/-- It is if nobody begins to wait, and nobody hires. -/
theorem of_awake (hb : b.Stirs turn.broker) (hsize : turn.broker.units.size = b.units.size)
    (hnext : turn.next.all (!·.dozes) = true) (hstart : ∀ w, a ≠ .worker w .starting)
    (hcrew : ∀ c, a ≠ .crew c) : turn.Alert b a :=
  of_stirs hb hsize (.inl hb.initialized)
    (fun ha => absurd (List.all_eq_true.1 hnext _ ha) Bool.false_ne_true)
    (fun ha => absurd (List.all_eq_true.1 hnext _ ha) Bool.false_ne_true) hstart
    fun h => .inl ⟨hb.crewLock ▸ h, fun c hc => absurd hc (hcrew c)⟩

/-- Each unit after a turn is one from before. -/
theorem exists_unit (h : turn.Alert b a) (hsize : turn.broker.units.size = b.units.size)
    {u : UnitId} {x' : TierUnit} (hx' : turn.broker.units[u]? = some x') :
    ∃ x, b.units[u]? = some x ∧ x.Follows x' := by
  obtain ⟨x, hx⟩ := Table.exists_getElem? (hsize ▸ Table.lt_size_of_getElem? hx')
  obtain ⟨y, hy, hfollows⟩ := h.unit hx
  exact ⟨x, hx, Option.some.inj (hx'.symm.trans hy) ▸ hfollows⟩

end Turn.Alert

/-- Where no worker is at work, and nobody is at the gate, nobody begins to wait. -/
theorem Turn.Ordered.awake (h : turn.Ordered b a) (hworker : a.worker? = none)
    (hgate : a.urgency = .prompt ∨ a.urgency = .patient) : turn.next.all (!·.dozes) = true := by
  refine List.all_eq_true.2 fun a' ha' => ?_
  obtain ⟨hurgency, -, hsame⟩ := h.succeeds a' ha'
  rw [hworker, or_self] at hsame
  cases a' with
  | worker w s => cases hsame
  | gate s => rcases hgate with hgate | hgate <;> rw [hgate] at hurgency <;> cases hurgency
  | _ => rfl

/-- Another state of a back-end does not change queue and crew. -/
theorem Broker.follows_of_init (b : Broker) (v : UnitId) (init : InitState) {u : UnitId}
    {x : TierUnit} (hx : b.units[u]? = some x) :
    ∃ x', (b.modifyUnit v fun x => { x with init := init }).units[u]? = some x' ∧ x.Follows x' := by
  by_cases huv : v = u
  · subst huv
    exact ⟨_, Table.getElem?_modify_self hx _, .refl _, rfl, id⟩
  · exact ⟨x, (Table.getElem?_modify_of_ne huv _).trans hx, .refl _⟩

namespace WorkerStep

variable {w : WorkerId} {worker : Worker} {unit : TierUnit}

/-- A worker that finds its queue empty has heard all bells of it when it falls asleep. -/
theorem lookEmpty_alert (hw : b.workers[w]? = some worker)
    (hu : b.units[worker.unit]? = some unit) (hsound : b.ledger.Sound)
    (hturn : turn.Ordered b (.worker w .lookEmpty))
    (hsize : turn.broker.units.size = b.units.size)
    (h : lookEmpty.run me ch b w worker unit = some turn) :
    turn.Alert b (.worker w .lookEmpty) := by
  have hpost : b.ledger.posts[w]? = some worker.post := by simp [hw]
  have hb := (stirs hu hsound h WorkerStep.noConfusion WorkerStep.noConfusion).1
  refine .of_stirs hb hsize (.inl hb.initialized) (fun {w' bell due} ha => ?_)
    (fun {bell} ha => ?_) (fun w h => by cases h) fun hlock => .inl ⟨hb.crewLock ▸ hlock,
      fun c hc => by cases hc⟩
  · obtain ⟨-, -, hsame⟩ := hturn.succeeds _ ha
    obtain rfl : w' = w := by simpa [Action.worker?] using hsame
    obtain ⟨x', hx', hbell, hlist, hempty⟩ := lookEmpty_asleep hu h ha
    obtain ⟨es, hes⟩ := hsound.list (show b.ledger.stocks[worker.unit]? = some unit.queue.stock by
      simp [hu])
    refine ⟨_, x', hpost, hx', hbell, hlist ▸ hes.toList_eq.trans ?_⟩
    rw [hes.isEmpty_iff.1 hempty, List.map_nil]
  · rw [run] at h
    split at h <;> obtain rfl := Option.some.inj h <;> cases List.mem_singleton.1 ha

/-- A worker begins to start the back-end, or waits until another one has done so. -/
theorem start_alert (hw : b.workers[w]? = some worker)
    (hsize : turn.broker.units.size = b.units.size)
    (h : start.run me ch b w worker unit = some turn) : turn.Alert b (.worker w .start) := by
  have hpost : b.ledger.posts[w]? = some worker.post := by simp [hw]
  rcases start_turn h with ⟨hb, hnext⟩ | ⟨hinit, hnext, hb⟩
  · refine .of_awake (hb ▸ .refl b) hsize hnext ?_ ?_
    · exact fun w h => by cases h
    · exact fun c h => by cases h
  · refine ⟨fun hx => hb ▸ b.follows_of_init _ _ hx, .inl (hb ▸ rfl), fun ha => ?_,
      fun {u x'} hx' hrunning => ?_, fun hlock => ?_, hb ▸ .refl _, fun ha => ?_⟩
    · rw [hnext] at ha
      cases List.mem_singleton.1 ha
    · rw [hb] at hx'
      obtain ⟨x, hx, ⟨hne, rfl⟩ | ⟨rfl, -⟩⟩ := Table.exists_of_modify hx'
      · exact .inl ⟨x', hx, hrunning, fun w' p ha => by cases ha⟩
      · exact .inr ⟨w, _, hnext ▸ List.mem_singleton_self _, hpost, rfl⟩
    · rw [hb] at hlock
      exact .inl ⟨hlock, fun c hc => by cases hc⟩
    · rw [hnext] at ha
      cases List.mem_singleton.1 ha

/-- A back-end that has started is not starting any more. -/
theorem starting_alert (hw : b.workers[w]? = some worker)
    (h : starting.run me ch b w worker unit = some turn) :
    turn.Alert b (.worker w .starting) := by
  have hpost : b.ledger.posts[w]? = some worker.post := by simp [hw]
  obtain ⟨hnext, init, hinit, hb⟩ := starting_turn h
  refine ⟨fun hx => hb ▸ b.follows_of_init _ _ hx, .inl (hb ▸ rfl), fun ha => ?_,
    fun {u x'} hx' hrunning => ?_, fun hlock => ?_, hb ▸ .refl _, fun ha => ?_⟩
  · exact absurd (List.all_eq_true.1 hnext _ ha) Bool.false_ne_true
  · rw [hb] at hx'
    obtain ⟨x, hx, ⟨hne, rfl⟩ | ⟨rfl, rfl⟩⟩ := Table.exists_of_modify hx'
    · refine .inl ⟨x', hx, hrunning, fun w' p ha hp => ?_⟩
      cases ha
      obtain rfl := Option.some.inj (hp.symm.trans hpost)
      exact hne
    · exact absurd hrunning hinit
  · rw [hb] at hlock
    exact .inl ⟨hlock, fun c hc => by cases hc⟩
  · exact absurd (List.all_eq_true.1 hnext _ ha) Bool.false_ne_true

/-- A worker that makes a step leaves whoever waits with something to wait for. -/
theorem alert {s : WorkerStep} (hw : b.workers[w]? = some worker)
    (hu : b.units[worker.unit]? = some unit) (hsound : b.ledger.Sound)
    (hturn : turn.Ordered b (.worker w s)) (hsize : turn.broker.units.size = b.units.size)
    (h : s.run me ch b w worker unit = some turn) : turn.Alert b (.worker w s) := by
  cases s with
  | lookEmpty => exact lookEmpty_alert hw hu hsound hturn hsize h
  | start => exact start_alert hw hsize h
  | starting => exact starting_alert hw h
  | _ =>
    obtain ⟨hb, hnext⟩ := stirs hu hsound h WorkerStep.noConfusion WorkerStep.noConfusion
    refine .of_awake hb hsize (hnext WorkerStep.noConfusion) ?_ ?_
    · exact fun w h => by cases h
    · exact fun c h => by cases h

end WorkerStep

/-- So does every action. -/
theorem Action.alert (hsound : b.ledger.Sound) (hready : ∀ d ∈ a.duty?, Duty.Ready b.ledger d)
    (hunits : ∀ u ∈ a.units, u < b.units.size) (h : a.run me ch b = some turn) :
    turn.Alert b a := by
  have hturn := Action.ordered hsound hready hunits h
  have hsize := Broker.size_units_of_steady (Action.run_regular h).units
  cases a with
  | request s =>
    exact .of_awake (RequestStep.stirs h) hsize (hturn.awake rfl (.inr rfl)) (fun w h => by cases h)
      (fun c h => by cases h)
  | task s =>
    exact .of_awake (TaskStep.stirs h) hsize (hturn.awake rfl (.inl rfl)) (fun w h => by cases h)
      (fun c h => by cases h)
  | control s =>
    have hurgency :
        (Action.control s).urgency = .prompt ∨ (Action.control s).urgency = .patient := by
      cases hs : s.isPrompt <;> simp [urgency, hs]
    exact .of_awake (ControlStep.stirs hsound h) hsize (hturn.awake rfl hurgency)
      (fun w h => by cases h) (fun c h => by cases h)
  | gate s =>
    obtain ⟨hb, hbell, hparked⟩ := GateStep.stirs h
    refine .of_stirs hb hsize (.inl hb.initialized) (fun ha => ?_) (fun ha => ?_)
      (fun w h => by cases h) fun hlock => .inl ⟨hb.crewLock ▸ hlock, fun c hc => by cases hc⟩
    · obtain ⟨-, -, hsame⟩ := hturn.succeeds _ ha
      simp [worker?] at hsame
    · obtain ⟨rfl, hguards⟩ := hparked _ ha
      exact ⟨hbell.symm, hguards⟩
  | worker w s =>
    obtain ⟨worker, unit, hw, hu, h⟩ := worker_run hsound (hready _ rfl).1 h
    exact WorkerStep.alert hw hu hsound hturn hsize h
  | crew s =>
    have hurgency : (Action.crew s).urgency = .prompt ∨ (Action.crew s).urgency = .patient := by
      cases hs : s.isPrompt <;> simp [urgency, hs]
    have hnext := hturn.awake rfl hurgency
    obtain ⟨hb, hlock, hinit⟩ := CrewStep.stirs hunits h
    refine .of_stirs hb hsize (hinit.imp_right fun h => ⟨congrArg Action.crew h.1, h.2⟩)
      (fun ha => absurd (List.all_eq_true.1 hnext _ ha) Bool.false_ne_true)
      (fun ha => absurd (List.all_eq_true.1 hnext _ ha) Bool.false_ne_true) (fun w h => by cases h)
      fun hsome => (hlock hsome).imp_left fun h => ⟨h.1, fun c hc => ?_⟩
    cases hc
    exact h.2
  | answer r =>
    exact .of_awake (.of_some h (.refl b)) hsize (hturn.awake rfl (.inr rfl))
      (fun w h => by cases h) (fun c h => by cases h)
  | fault => cases h

/-! ### Every state -/

namespace System

variable {s s' : System} {i : ThreadId} {th : Thread} {rest : List Action}

/-- Whoever waits waits for something. -/
structure Alert (s : System) : Prop where
  /-- A worker that sleeps, and has heard all bells, sleeps on a queue without tasks. -/
  asleep : ∀ {w : WorkerId} {bell due : Nat} {p : Post} {x : TierUnit},
    .worker w (.asleep bell due) ∈ s.pending → s.ledger.posts[w]? = some p →
      s.broker.units[p.unit]? = some x →
      bell ≤ x.queue.bell ∧ (bell = x.queue.bell → x.queue.list.toList = [])
  /-- A back-end that is starting is started by a worker. -/
  init : ∀ {u : UnitId} {x : TierUnit}, s.broker.units[u]? = some x → x.init = .running →
    ∃ w p, .worker w .starting ∈ s.pending ∧ s.ledger.posts[w]? = some p ∧ p.unit = u
  /-- The lock of the crews is with somebody who hires. -/
  crewLock : s.broker.crewLock.isSome = true → ∃ c, .crew c ∈ s.pending ∧ c.isLocked = true
  /-- A worker that is parked, and has heard all bells, is parked while there is a guard. -/
  parked : ∀ {bell : Nat}, .gate (.parked bell) ∈ s.pending →
    bell ≤ s.broker.gate.bell ∧ (bell = s.broker.gate.bell → 0 < s.broker.gate.guards)

namespace Alert

/-- Queues that ring their bells when they have to leave sleepers asleep on queues without tasks. -/
theorem asleep_of_follows {bell : Nat} {q q' : CompileQueue} (h : q.Follows q')
    (hq : bell ≤ q.bell ∧ (bell = q.bell → q.list.toList = [])) :
    bell ≤ q'.bell ∧ (bell = q'.bell → q'.list.toList = []) := by
  rcases h with h | ⟨heq, hsub⟩
  · exact ⟨hq.1.trans h.le, fun hbell => absurd hq.1 (Nat.not_le.2 (hbell ▸ h))⟩
  · rw [heq]
    refine ⟨hq.1, fun hbell => List.eq_nil_iff_forall_not_mem.2 fun t ht => ?_⟩
    exact List.not_mem_nil (hq.2 hbell ▸ hsub ht)

/-- So does a gate. -/
theorem parked_of_follows {bell : Nat} {g g' : PauseGate} (h : g.Follows g')
    (hg : bell ≤ g.bell ∧ (bell = g.bell → 0 < g.guards)) :
    bell ≤ g'.bell ∧ (bell = g'.bell → 0 < g'.guards) := by
  rcases h with h | ⟨heq, hkeep⟩
  · exact ⟨hg.1.trans h.le, fun hbell => absurd hg.1 (Nat.not_le.2 (hbell ▸ h))⟩
  · exact ⟨hg.1.trans_eq heq.symm, fun hbell => hkeep (hg.2 (hbell.trans heq))⟩

/-- A step leaves whoever waits with something to wait for. -/
theorem step (h : s.Alert) (hs : s.Lawful) (ho : s.Ordered) (hstep : s.step i ch = some s') :
    s'.Alert := by
  obtain ⟨th, a, rest, turn, hth, ha, hrun, rfl, hshift⟩ := hs.shift hstep
  have hmem : a ∈ s.pending := mem_pending.2 ⟨i, th, hth, ha ▸ List.mem_cons_self⟩
  have hturn := Action.alert hs.sound (fun d hd => hs.ready d (mem_duties.2 ⟨a, hmem, hd⟩))
    (ho.unit a hmem) hrun
  have hsize := Broker.size_units_of_steady (Action.run_regular hrun).units
  have hpost {w : WorkerId} {p : Post} (hp : s.ledger.posts[w]? = some p) :
      ∃ p', (s.turned i turn).ledger.posts[w]? = some p' ∧ p'.unit = p.unit :=
    hshift.event.extends.post hp
  constructor
  case asleep =>
    intro w bell due p' x' hasleep hp' hx'
    rcases mem_turned_cases hth ha hasleep (fun w h => by cases h) with hold | hnew
    · obtain ⟨p, hp⟩ := Table.exists_getElem? (hs.known _ (mem_duties.2 ⟨_, hold, rfl⟩)).1
      obtain ⟨y, hy, hunit⟩ := hpost hp
      obtain rfl := Option.some.inj (hp'.symm.trans hy)
      rw [hunit] at hx'
      obtain ⟨x, hx, hfollows⟩ := hturn.exists_unit hsize hx'
      exact asleep_of_follows hfollows.queue (h.asleep hold hp hx)
    · obtain ⟨p, z, hp, hz, hbell, hempty⟩ := hturn.asleep hnew
      obtain ⟨y, hy, hunit⟩ := hpost hp
      obtain rfl := Option.some.inj (hp'.symm.trans hy)
      rw [hunit] at hx'
      obtain rfl := Option.some.inj (hx'.symm.trans hz)
      exact ⟨hbell.ge, fun _ => hempty⟩
  case init =>
    intro u x' hx' hrunning
    rcases hturn.init hx' hrunning with ⟨x, hx, hrunning, hother⟩ | ⟨w, p, hnew, hp, hu⟩
    · obtain ⟨w, p, hold, hp, hu⟩ := h.init hx hrunning
      obtain ⟨p', hp', hunit⟩ := hpost hp
      refine ⟨w, p', mem_turned_of_ne hth ha hold fun heq => ?_, hp', hunit.trans hu⟩
      exact hother w p heq.symm hp hu
    · obtain ⟨p', hp', hunit⟩ := hpost hp
      exact ⟨w, p', mem_turned_of_next hth hnew, hp', hunit.trans hu⟩
  case crewLock =>
    intro hsome
    rcases hturn.crewLock hsome with ⟨hsome, hother⟩ | ⟨c, hnew, hc⟩
    · obtain ⟨c, hold, hc⟩ := h.crewLock hsome
      refine ⟨c, mem_turned_of_ne hth ha hold fun heq => ?_, hc⟩
      exact Bool.false_ne_true ((hother c heq.symm).symm.trans hc)
    · exact ⟨c, mem_turned_of_next hth hnew, hc⟩
  case parked =>
    intro bell hparked
    rcases mem_turned_cases hth ha hparked (fun w h => by cases h) with hold | hnew
    · exact parked_of_follows hturn.gate (h.parked hold)
    · obtain ⟨rfl, hguards⟩ := hturn.parked hnew
      exact ⟨Nat.le_refl _, fun _ => hguards⟩

theorem call (h : s.Alert) (c : Call) (n : Nat) : (s.call c n).Alert := by
  have hold {a' : Action} (ha' : a' ∈ (s.call c n).pending) (hdozes : a'.dozes = true) :
      a' ∈ s.pending := by
    refine (mem_pending_call.1 ha').resolve_right fun hnew => ?_
    obtain ⟨hurgency, -, hworker, -⟩ := Call.none_of_mem hnew
    cases a' with
    | worker w s => cases hworker
    | gate s => rcases hurgency with h | h <;> cases h
    | _ => cases hdozes
  have hnew {a' : Action} (ha' : a' ∈ s.pending) : a' ∈ (s.call c n).pending :=
    mem_pending_call.2 (.inl ha')
  refine ⟨fun ha' => h.asleep (hold ha' rfl), fun hx hrunning => ?_, fun hsome => ?_,
    fun ha' => h.parked (hold ha' rfl)⟩
  · obtain ⟨w, p, hw, hp, hu⟩ := h.init hx hrunning
    exact ⟨w, p, hnew hw, hp, hu⟩
  · obtain ⟨c', hc', hlocked⟩ := h.crewLock hsome
    exact ⟨c', hnew hc', hlocked⟩

theorem operate (h : s.Alert) (o : Operation) : (s.operate o).Alert := by
  have hb := s.broker.stirs_operate o
  have hsize := Broker.size_units_of_steady (s.broker.operate_steady o).units
  have hposts : (s.operate o).ledger.posts = s.ledger.posts := by
    rcases s.broker.ledger_operate o with h | h <;> exact (congrArg Ledger.posts h :)
  refine ⟨fun {w bell due p x'} ha hp hx' => ?_, fun {u x'} hx' hrunning => ?_, fun hsome => ?_,
    fun ha => ?_⟩
  · obtain ⟨x, hx, hfollows, -⟩ := hb.exists_unit hsize hx'
    exact asleep_of_follows hfollows.queue (h.asleep ha (hposts ▸ hp) hx)
  · obtain ⟨x, hx, -, hinit⟩ := hb.exists_unit hsize hx'
    rw [hposts]
    exact h.init hx (hinit ▸ hrunning)
  · exact h.crewLock (hb.crewLock ▸ hsome)
  · exact parked_of_follows hb.gate (h.parked ha)

end Alert

/-- At first nobody waits for anything. -/
theorem alert_launch {config : Config} {parts : Broker.Parts}
    (hb : Broker.assemble config parts = .ok b) : (launch b).Alert := by
  refine ⟨fun ha => Action.noConfusion (mem_pending_launch ha), fun {u x} hx hrunning => ?_,
    fun hsome => ?_, fun ha => Action.noConfusion (mem_pending_launch ha)⟩
  · obtain ⟨t, -, kind, rfl⟩ := Broker.unit_of_assemble hb x (Table.mem_toList_iff.2 ⟨u, hx⟩)
    cases hrunning
  · obtain ⟨units, -, rfl⟩ := Broker.exists_of_assemble hb
    cases hsome

/-- In every state that a system can get into, whoever waits waits for something. -/
theorem Reachable.alert {config : Config} {parts : Broker.Parts}
    (hb : Broker.assemble config parts = .ok b) (h : Reachable (launch b) s) : s.Alert :=
  h.invariant (alert_launch hb)
    (fun hr h hstep => h.step (hr.lawful (Broker.fresh_assemble hb))
      (hr.ordered (Broker.fresh_assemble hb)) hstep)
    (fun c n _ h => h.call c n) (fun o _ h => h.operate o)

end System

end JitBroker
