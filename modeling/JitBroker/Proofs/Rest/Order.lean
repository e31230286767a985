import JitBroker.Proofs.Setting

/-!
# The order of agendas

An action may be held up by a lock for a moment, and some actions for much longer: a requester
sleeps until its task is complete, a worker parks until the last guard is dropped, or is inside its
back-end. What comes after such an action in an agenda waits with it. So it matters that nothing on
which others depend does: whatever is *prompt*, which is held up by locks only, comes before
everything that is not (`Action.precedes`), and whoever has a lock is at the head of its agenda.

* `Action.ordered`: what a step puts in the place of its action is in order, and may precede
  whatever the action preceded;
* `System.Reachable.ordered`: so the agendas are in order in every state.
-/

namespace JitBroker

/-! ### Before and after -/

/-- What may hold up an action. -/
inductive Urgency where
  /-- Nothing but a lock. -/
  | prompt
  /-- The guards of the pause gate. -/
  | gate
  /-- What a worker waits for. -/
  | worker
  /-- Anything else. -/
  | patient
  deriving DecidableEq

/-- Whether a step of control is part of disabling compilation, or comes of a full segment. -/
def ControlStep.isPrompt : ControlStep → Bool
  | .full _ | .react | .countStop | .disable | .drain _ | .ring _ | .rouse | .nudge _ => true
  | _ => false

/-- Whether a step of a crew is that of a worker, and not one of starting the broker. -/
def CrewStep.isPrompt : CrewStep → Bool
  | .grow _ | .depth _ _ | .weigh _ _ _ | .expand _ _ | .hire _ _ => true
  | _ => false

/-- What may hold up an action. -/
def Action.urgency : Action → Urgency
  | .task _ => .prompt
  | .control s => if s.isPrompt then .prompt else .patient
  | .crew s => if s.isPrompt then .prompt else .patient
  | .gate _ => .gate
  | .worker _ _ => .worker
  | .request _ | .answer _ | .fault => .patient

/-- Whether a step of a request is made under the lock of a queue. -/
def RequestStep.isLocked : RequestStep → Bool
  | .stillEnabled _ | .stillMissing _ | .stillAllowed _ | .claim _ | .number _ | .exclude _ _
  | .unclaim _ _ | .allocate _ _ | .stamp _ _ | .append _ _ => true
  | _ => false

/-- Whether a step of a crew is made under the lock of the crews. -/
def CrewStep.isLocked : CrewStep → Bool
  | .hire _ _ | .staff _ _ _ => true
  | _ => false

/-- Whether an action is run under a lock that was taken before. -/
def Action.isLocked : Action → Bool
  | .request s => s.isLocked
  | .worker _ .staying | .worker _ .choose | .worker _ .lookStaying | .worker _ .lookEmpty
  | .worker _ .overdue => true
  | .crew s => s.isLocked
  | _ => false

/-- Whether a step of a worker may come after a step at the gate. -/
def WorkerStep.afterGate : WorkerStep → Bool
  | .fetch | .compile _ | .judge _ => true
  | _ => false

/-- Whether an action with this urgency may come before another one: it may before a compile, which
is under way, and before what is held up by no less. -/
def Urgency.allows : Urgency → Action → Bool
  | .prompt, _ => true
  | .worker, _ => false
  | .gate, .worker _ s => s.afterGate
  | .gate, _ => false
  | .patient, .worker _ (.compile _) => true
  | .patient, a => a.urgency == .patient

/-- Whether the second action may come after the first one in an agenda. -/
def Action.precedes (a a' : Action) : Bool := !a'.isLocked && a.urgency.allows a'

/-- Whether an action with the second urgency may stand where one with the first stood. -/
def Urgency.yields (x x' : Urgency) : Bool :=
  x' == x || x == .worker || x == .patient && x' == .prompt

variable {a a₀ a' : Action}

theorem Urgency.eq_of_yields {x x' : Urgency} (h : x.yields x' = true) :
    x' = x ∨ x = .worker ∨ x' = .prompt := by
  revert h
  cases x <;> cases x' <;> decide

/-- What may stand in the place of an action precedes what the action preceded. -/
theorem Action.precedes_of_yields (h : a.urgency.yields a₀.urgency = true)
    (ha : a.precedes a' = true) : a₀.precedes a' = true := by
  simp only [precedes, Bool.and_eq_true] at ha ⊢
  obtain ⟨hlocked, ha⟩ := ha
  refine ⟨hlocked, ?_⟩
  rcases Urgency.eq_of_yields h with heq | heq | heq
  · rwa [heq]
  -- Nothing comes after a step of a worker.
  · rw [heq, Urgency.allows] at ha
    cases ha
  · rw [heq, Urgency.allows]

/-- The units that a step of control or of a crew is to look up, unless that is its duty. -/
def Action.units : Action → List UnitId
  | .control (.ring u) => [u]
  | .crew (.grow u) | .crew (.depth u _) | .crew (.weigh u _ _) | .crew (.expand u _)
  | .crew (.hire u _) => [u]
  | .crew (.launch us) => us
  | .crew (.staff u _ us) => u :: us
  | _ => []

/-- The worker whose step an action is. -/
def Action.worker? : Action → Option WorkerId
  | .worker w _ => some w
  | _ => none

/-- Whether an action is part of starting the broker. -/
def Action.starts : Action → Bool
  | .crew s => !s.isPrompt
  | _ => false

/-- An action may stand where another one stood: it is held up by no more, the units that it looks
up exist, and if it is the step of a worker, or of starting the broker, the other one was. -/
structure Action.Succeeds (b : Broker) (a a' : Action) : Prop where
  /-- It is held up by no more. -/
  urgency : a.urgency.yields a'.urgency = true
  /-- Its units exist. -/
  unit : ∀ u ∈ a'.units, u < b.units.size
  /-- Steps of a worker come from steps of the same worker. -/
  worker : a'.worker? = none ∨ a'.worker? = a.worker?
  /-- Steps of starting the broker come from such steps. -/
  start : a'.starts = true → a.starts = true

/-- What a turn puts in the place of an action is in order, and may stand there. -/
structure Turn.Ordered (b : Broker) (a : Action) (turn : Turn) : Prop where
  /-- It is in order. -/
  order : turn.next.Pairwise (·.precedes ·)
  /-- It may stand there. -/
  succeeds : ∀ a' ∈ turn.next, a.Succeeds b a'

/-! ### Every step -/

variable {me : Caller} {ch : Choices} {b b' : Broker} {turn : Turn}

/-- Most actions look up no unit. -/
theorem Action.Succeeds.of_none (hurgency : a.urgency.yields a'.urgency = true)
    (hunit : a'.units = []) (hworker : a'.worker? = none)
    (hstart : a'.starts = true → a.starts = true) : a.Succeeds b a' :=
  ⟨hurgency, fun _ h => absurd (hunit ▸ h) List.not_mem_nil, .inl hworker, hstart⟩

/-- A worker may go on with any step. -/
theorem Action.Succeeds.worker_step {w : WorkerId} {s s' : WorkerStep} :
    (Action.worker w s).Succeeds b (.worker w s') :=
  ⟨rfl, fun _ h => absurd h List.not_mem_nil, .inr rfl, fun h => h⟩

namespace Turn.Ordered

variable {r : Option Reply} {hired : Option WorkerId} {a₁ a₂ : Action}

theorem of_some {turn' : Turn} (h : some turn' = some turn) (ht : turn'.Ordered b a) :
    turn.Ordered b a := by
  obtain rfl := Option.some.inj h
  exact ht

/-- A turn may put nothing in the place of an action. -/
theorem nil : Ordered b a { broker := b', next := [], reply := r, hired := hired } :=
  ⟨.nil, fun _ h => absurd h List.not_mem_nil⟩

/-- Or one action. -/
theorem single (h : a.Succeeds b a') :
    Ordered b a { broker := b', next := [a'], reply := r, hired := hired } :=
  ⟨List.pairwise_singleton _ _, fun _ ha' => List.mem_singleton.1 ha' ▸ h⟩

/-- Or two. -/
theorem pair (h₁ : a.Succeeds b a₁) (h₂ : a.Succeeds b a₂) (h : a₁.precedes a₂ = true) :
    Ordered b a { broker := b', next := [a₁, a₂], reply := r, hired := hired } where
  order := List.pairwise_pair.2 h
  succeeds _ ha' := by
    rcases List.mem_pair.1 ha' with rfl | rfl
    · exact h₁
    · exact h₂

end Turn.Ordered

/-- A prompt action that is run without a lock. -/
structure Action.Chore (b : Broker) (a : Action) : Prop where
  /-- It is prompt. -/
  urgency : a.urgency = .prompt
  /-- It is not run under a lock that was taken before. -/
  locked : a.isLocked = false
  /-- Its units exist. -/
  unit : ∀ u ∈ a.units, u < b.units.size

namespace Action.Chore

theorem succeeds (h : a'.Chore b) (ha : a.urgency.yields .prompt = true) : a.Succeeds b a' where
  urgency := h.urgency ▸ ha
  unit := h.unit
  worker := by
    cases a' with
    | worker w s => cases h.urgency
    | _ => exact .inl rfl
  start hstart := by
    have hurgency := h.urgency
    cases a' with
    | crew s => simp_all [Action.starts, Action.urgency]
    | _ => cases hstart

theorem precedes (h : a.Chore b) (ha' : a'.isLocked = false) : a.precedes a' = true := by
  simp only [Action.precedes, ha', h.urgency, Urgency.allows, Bool.not_false, Bool.and_self]

/-- To end a stale task is such an action. -/
theorem stale (ts : List TaskId) : ∀ a ∈ ts.flatMap Action.stale, a.Chore b := by
  intro a ha
  obtain ⟨t, -, ha⟩ := List.mem_flatMap.1 ha
  obtain ⟨s, -, rfl⟩ := List.mem_map.1 ha
  exact ⟨rfl, rfl, fun _ h => absurd h List.not_mem_nil⟩

end Action.Chore

/-- A turn may put such actions before others that are in order. -/
theorem Turn.Ordered.chores {r : Option Reply} {hired : Option WorkerId} {as rest : List Action}
    (has : ∀ a' ∈ as, a'.Chore b) (ha : a.urgency.yields .prompt = true)
    (hrest : Turn.Ordered b a { broker := b', next := rest })
    (hlocked : ∀ a' ∈ rest, a'.isLocked = false) :
    Turn.Ordered b a { broker := b', next := as ++ rest, reply := r, hired := hired } where
  order := by
    refine List.pairwise_append.2 ⟨?_, hrest.order, fun a₁ h₁ a₂ h₂ =>
      (has a₁ h₁).precedes (hlocked a₂ h₂)⟩
    exact List.pairwise_of_forall_mem_list fun a₁ h₁ a₂ h₂ =>
      (has a₁ h₁).precedes (has a₂ h₂).locked
  succeeds a' ha' := by
    rcases List.mem_append.1 ha' with ha' | ha'
    · exact (has a' ha').succeeds ha
    · exact hrest.succeeds a' ha'

/-- Or nothing but such actions. -/
theorem Turn.Ordered.of_chores {r : Option Reply} {hired : Option WorkerId} {as : List Action}
    (has : ∀ a' ∈ as, a'.Chore b) (ha : a.urgency.yields .prompt = true) :
    Turn.Ordered b a { broker := b', next := as, reply := r, hired := hired } :=
  have hnil : Turn.Ordered b a { broker := b', next := [] } := .nil
  List.append_nil as ▸ .chores has ha hnil fun _ h => absurd h List.not_mem_nil

/-- A patient action may leave others that are patient. -/
theorem Turn.Ordered.of_patient {as : List Action} (ha : a.urgency = .patient)
    (has : as.all (fun a' => decide
      (a'.urgency = .patient ∧ a'.isLocked = false ∧ a'.units = [] ∧ a'.starts = false)) = true) :
    Turn.Ordered b a { broker := b', next := as } where
  order := List.pairwise_of_forall_mem_list fun a₁ h₁ a₂ h₂ => by
    obtain ⟨hurgency, hlocked, -⟩ := of_decide_eq_true (List.all_eq_true.1 has a₂ h₂)
    rw [Action.precedes, hlocked, (of_decide_eq_true (List.all_eq_true.1 has a₁ h₁)).1]
    cases a₂ with
    | worker w s => cases hurgency
    | _ => simp only [Urgency.allows, hurgency, beq_self_eq_true, Bool.not_false, Bool.and_self]
  succeeds a' ha' := by
    obtain ⟨hurgency, -, hunits, hstarts⟩ := of_decide_eq_true (List.all_eq_true.1 has a' ha')
    refine .of_none (by rw [ha, hurgency]; rfl) hunits ?_ fun h =>
      absurd (hstarts.symm.trans h) Bool.false_ne_true
    cases a' with
    | worker w s => cases hurgency
    | _ => rfl

namespace RequestStep

variable {s : RequestStep} {q : Inquiry} {t : TaskId} {x : Task}

theorem leave_ordered {gaveUp : Bool} (h : leave b' q t x gaveUp = some turn) :
    turn.Ordered b (.request s) := by
  unfold leave at h
  split at h
  · exact .of_some h (.single (.of_none rfl rfl rfl id))
  · exact .of_some h .nil

theorem wakeUp_ordered {watch : Option Watch} (h : wakeUp b' ch q t x watch = some turn) :
    turn.Ordered b (.request s) := by
  unfold wakeUp at h
  repeat' split at h
  all_goals first
    | exact leave_ordered h
    | exact .of_some h (.single (.of_none rfl rfl rfl id))

theorem ordered (h : s.run me ch b = some turn) : turn.Ordered b (.request s) := by
  cases s <;> rw [run] at h <;> (try simp only at h) <;> repeat' split at h
  all_goals first
    | exact .of_some h .nil
    | exact .of_some h (.single (.of_none rfl rfl rfl id))
    | exact .of_some h (.pair (.of_none rfl rfl rfl id) (.of_none rfl rfl rfl id) rfl)
    | exact wakeUp_ordered h
    | exact leave_ordered h
    | cases h

end RequestStep

/-- Ending a task is prompt to its end. -/
theorem TaskStep.ordered {s : TaskStep} (hready : ∀ d ∈ s.duty?, Duty.Ready b.ledger d)
    (h : s.run b = some turn) : turn.Ordered b (.task s) := by
  cases s with
  | unmark t =>
    obtain ⟨x, hx⟩ := Table.exists_getElem? (t := b.tasks) (hready _ rfl)
    rw [run, hx] at h
    exact .of_some h .nil
  | complete t who =>
    obtain ⟨x, hx, hopen⟩ : ∃ x, b.tasks[t]? = some x ∧ x.complete = false := by
      cases who <;> exact hready _ rfl
    rw [run, hx] at h
    simp only [hopen, Bool.false_eq_true, if_false] at h
    split at h
    · exact .of_some h .nil
    · exact .of_some h (.single (.of_none rfl rfl rfl id))
  | free t who =>
    obtain ⟨x, hx, hcomplete, hfreed⟩ := hready _ rfl
    rw [run, show b.tasks[t]? = some x from hx] at h
    simp only [hcomplete, hfreed, Bool.not_true, Bool.or_self, Bool.false_eq_true, if_false] at h
    exact .of_some h .nil
  | _ => exact .of_some h .nil

theorem GateStep.ordered {s : GateStep} (h : s.run b = some turn) : turn.Ordered b (.gate s) := by
  cases s <;> rw [run] at h <;> repeat' split at h
  all_goals first
    | exact .of_some h .nil
    | exact .of_some h (.single (.of_none rfl rfl rfl id))
    | cases h

/-- A worker that enlarges its crew knows its unit. -/
theorem CrewStep.ordered {s : CrewStep} (hunit : ∀ u ∈ (Action.crew s).units, u < b.units.size)
    (h : s.run me ch b = some turn) : turn.Ordered b (.crew s) := by
  rcases s with u | ⟨u, n⟩ | ⟨u, n, k⟩ | ⟨u, n⟩ | ⟨u, n⟩ | (_ | ⟨u, us⟩) | ⟨u, _ | n, us⟩ | _ <;>
    rw [run] at h <;> (try simp only at h) <;> repeat' split at h
  all_goals first
    | exact .of_some h .nil
    | exact .of_some h (.single (.of_none rfl rfl rfl id))
    | exact .of_some h (.single ⟨rfl, hunit, .inl rfl, id⟩)
    | exact .of_some h (.single
        ⟨rfl, fun u' h' => hunit u' (List.mem_cons_of_mem _ h'), .inl rfl, id⟩)
    | exact .of_some h (.pair (.of_none rfl rfl rfl fun _ => rfl)
        (.of_none rfl rfl rfl fun _ => rfl) rfl)
    | exact absurd (hunit _ List.mem_cons_self)
        (Nat.not_lt.2 ((Table.getElem?_eq_none_iff _ _).1 ‹_›))
    | cases h

namespace ControlStep

/-- Those who stop jobs or disable compilation do nothing that is held up. -/
theorem chore {s : ControlStep} (hs : s.isPrompt = true)
    (hunit : ∀ u ∈ (Action.control s).units, u < b.units.size) : (Action.control s).Chore b :=
  ⟨by simp [Action.urgency, hs], rfl, hunit⟩

/-- A list of such steps. -/
theorem chores {ss : List ControlStep} (hs : ∀ s ∈ ss, s.isPrompt = true)
    (hunit : ∀ u, .ring u ∈ ss → u < b.units.size) : ∀ a ∈ ss.map Action.control, a.Chore b := by
  intro a ha
  obtain ⟨s, hmem, rfl⟩ := List.mem_map.1 ha
  refine chore (hs s hmem) fun u hu => ?_
  cases s with
  | ring u' => exact List.mem_singleton.1 hu ▸ hunit u' hmem
  | _ => exact absurd hu List.not_mem_nil

theorem ordered {s : ControlStep} (hsound : b.ledger.Sound)
    (hready : ∀ d ∈ s.duty?, Duty.Ready b.ledger d)
    (hunit : ∀ u ∈ (Action.control s).units, u < b.units.size) (h : s.run me b = some turn) :
    turn.Ordered b (.control s) := by
  cases s with
  | disable =>
    rw [run] at h
    split at h
    · exact .of_some h .nil
    · refine .of_some h (.of_chores (chores ?_ ?_) rfl)
      · simp only [List.mem_append, List.mem_flatMap, List.mem_pair, List.mem_singleton]
        rintro s (⟨u, -, rfl | rfl⟩ | rfl) <;> rfl
      · simp [Broker.unitIds]
  | drain u =>
    obtain ⟨unit, hu⟩ :=
      Table.exists_getElem? (t := b.units) (by simpa [Duty.Ready] using hready _ rfl)
    have hstock : b.ledger.stocks[u]? = some unit.queue.stock := by simp [hu]
    rw [run, hu] at h
    simp only at h
    split at h
    · obtain ⟨ts, b', hdrain, -⟩ := b.exists_drain u unit.queue (hsound.list hstock)
      rw [hdrain] at h
      exact .of_some h (.of_chores (Action.Chore.stale ts) rfl)
    · cases h
  | rouse =>
    rw [run] at h
    split at h
    · cases h
    · refine .of_some h (.of_chores (chores ?_ ?_) rfl)
      · exact List.forall_mem_map.2 fun _ _ => rfl
      · simp
  | nudge w =>
    obtain ⟨worker, hworker⟩ :=
      Table.exists_getElem? (t := b.workers) (by simpa [Duty.Ready] using hready _ rfl)
    rw [run, hworker] at h
    cases hc : worker.current <;> simp only [hc] at h
    · exact .of_some h .nil
    · exact .of_some h (.single (.of_none rfl rfl rfl id))
  | ring u =>
    obtain ⟨unit, hu⟩ := Table.exists_getElem? (hunit u List.mem_cons_self)
    rw [run, hu] at h
    simp only at h
    split at h
    · exact .of_some h .nil
    · cases h
  | shutdown =>
    rw [run] at h
    split at h
    · exact .of_some h .nil
    · rw [next, List.map_append] at h
      refine .of_some h (.chores (chores ?_ ?_) rfl (.of_patient rfl ?_) ?_)
      · simp only [List.mem_cons, List.mem_map]
        rintro s (rfl | ⟨u, -, rfl⟩) <;> rfl
      · simp [Broker.unitIds]
      · split <;> rfl
      · split
        · exact fun _ ha => absurd ha List.not_mem_nil
        · exact fun _ ha => List.mem_singleton.1 ha ▸ rfl
  | joinAll =>
    rw [run] at h
    split at h
    · cases h
    · refine .of_some h (.of_patient rfl ?_)
      rw [List.map_map, List.all_map]
      exact List.all_eq_true.2 fun _ _ => rfl
  | detach d =>
    rw [run] at h
    split at h
    · refine .of_some h (.of_patient rfl ?_)
      cases Broker.unitOf? _ d.tier <;> rfl
    · exact .of_some h .nil
  | again ds summary =>
    cases ds with
    | nil => exact .of_some h .nil
    | cons d ds =>
      rw [run] at h
      repeat' split at h
      all_goals first
        | exact .of_some h (.single (.of_none rfl rfl rfl id))
        | exact .of_some h (.pair (.of_none rfl rfl rfl id) (.of_none rfl rfl rfl id) rfl)
  | _ =>
    rw [run] at h
    repeat' split at h
    all_goals first
      | exact .of_some h .nil
      | exact .of_some h (.single (.of_none rfl rfl rfl id))
      | cases h

end ControlStep

/-- A call is in order. -/
theorem Call.ordered (c : Call) : c.agenda.Pairwise (·.precedes ·) := by
  cases c <;> first | exact List.pairwise_singleton _ _ | exact List.pairwise_pair.2 rfl

/-- A call is no step of a worker, nor at the gate. -/
theorem Call.none_of_mem {c : Call} (h : a ∈ c.agenda) :
    (a.urgency = .prompt ∨ a.urgency = .patient) ∧ a.units = [] ∧ a.worker? = none ∧
      a.starts = false := by
  cases c <;> simp only [agenda, List.mem_cons, List.not_mem_nil, or_false] at h
  all_goals first
    | (obtain rfl := h
       first | exact ⟨.inl rfl, rfl, rfl, rfl⟩ | exact ⟨.inr rfl, rfl, rfl, rfl⟩)
    | (rcases h with rfl | rfl <;>
        first | exact ⟨.inl rfl, rfl, rfl, rfl⟩ | exact ⟨.inr rfl, rfl, rfl, rfl⟩)

namespace WorkerStep

variable {w : WorkerId} {worker : Worker} {unit : TierUnit} {s : WorkerStep} {c : CompileRun}

/-- A back-end may make a call. -/
theorem call_ordered (call : Call) :
    Turn.Ordered b (.worker w (.compile c))
      { broker := b', next := call.agenda ++ [.worker w (.compile c)] } where
  order := by
    refine List.pairwise_append.2 ⟨call.ordered, List.pairwise_singleton _ _, fun a ha a' ha' => ?_⟩
    obtain rfl := List.mem_singleton.1 ha'
    rcases (Call.none_of_mem ha).1 with hurgency | hurgency <;>
      rw [Action.precedes, hurgency] <;> rfl
  succeeds a ha := by
    rcases List.mem_append.1 ha with ha | ha
    · obtain ⟨hurgency, hunit, hworker, hstarts⟩ := Call.none_of_mem ha
      refine .of_none (by rcases hurgency with h | h <;> rw [h] <;> rfl) hunit hworker fun h => ?_
      exact absurd (hstarts.symm.trans h) Bool.false_ne_true
    · obtain rfl := List.mem_singleton.1 ha
      exact .worker_step

theorem obey_ordered {task : Task} {move : BackendMove}
    (h : obey b w c task unit move = some turn) : turn.Ordered b (.worker w (.compile c)) := by
  cases move with
  | call call => exact .of_some h (call_ordered call)
  | _ =>
    rw [obey] at h
    repeat' split at h
    all_goals first
      | exact .of_some h (.single .worker_step)
      | exact .of_some h (.pair (.of_none rfl rfl rfl id) .worker_step rfl)

theorem ordered (hunit : worker.unit < b.units.size) (h : s.run me ch b w worker unit = some turn) :
    turn.Ordered b (.worker w s) := by
  cases s with
  | compile c =>
    rw [run] at h
    split at h
    · exact .of_some h (.single (.of_none rfl rfl rfl id))
    · cases h
    · exact obey_ordered h
  | choose =>
    rw [run] at h
    repeat' split at h
    all_goals first
      | exact .of_some h (.single (.of_none rfl rfl rfl id))
      | exact .of_some h (.single .worker_step)
      | exact .of_some h (.chores (Action.Chore.stale _) rfl (.single .worker_step)
          fun _ ha => List.mem_singleton.1 ha ▸ rfl)
  | judge c =>
    rw [run] at h
    cases hf : c.report.cacheFull <;> rw [hf] at h
    · exact .of_some h (.single .worker_step)
    · exact .of_some h (.pair (.of_none rfl rfl rfl id) .worker_step rfl)
  | settle =>
    rw [run] at h
    split at h
    · exact .of_some h (.pair
        ⟨rfl, fun u hu => List.mem_singleton.1 hu ▸ hunit, .inl rfl, id⟩ .worker_step rfl)
    · exact .of_some h (.single .worker_step)
  | _ =>
    rw [run] at h
    (try simp only at h)
    repeat' split at h
    all_goals first
      | exact .of_some h .nil
      | exact .of_some h (.single .worker_step)
      | exact .of_some h (.single (.of_none rfl rfl rfl id))
      | exact .of_some h (.pair (.of_none rfl rfl rfl id) .worker_step rfl)
      | cases h

end WorkerStep

/-- What a step puts in the place of its action is in order, and may stand there. -/
theorem Action.ordered (hsound : b.ledger.Sound) (hready : ∀ d ∈ a.duty?, Duty.Ready b.ledger d)
    (hunit : ∀ u ∈ a.units, u < b.units.size) (h : a.run me ch b = some turn) :
    turn.Ordered b a := by
  cases a with
  | request s => exact RequestStep.ordered h
  | task s => exact TaskStep.ordered hready h
  | control s => exact ControlStep.ordered hsound hready hunit h
  | gate s => exact GateStep.ordered h
  | worker w s =>
    obtain ⟨worker, unit, -, hu, h⟩ := worker_run hsound (hready _ rfl).1 h
    exact WorkerStep.ordered (Table.lt_size_of_getElem? hu) h
  | crew s => exact CrewStep.ordered hunit h
  | answer r => exact .of_some h .nil
  | fault => cases h

/-! ### Every state -/

theorem Broker.size_units_of_steady {b b' : Broker} (h : b'.unitConfigs = b.unitConfigs) :
    b'.units.size = b.units.size := by
  simpa [unitConfigs] using congrArg Table.size h

namespace System

variable {s s' first : System} {i : ThreadId}

/-- The agendas are in order, the units that actions look up exist, and only the thread of a worker
makes its steps. -/
structure Ordered (s : System) : Prop where
  /-- The agendas are in order. -/
  order : ∀ {j : ThreadId} {th : Thread}, s.threads[j]? = some th →
    th.agenda.Pairwise (·.precedes ·)
  /-- The units that are looked up exist. -/
  unit : ∀ a ∈ s.pending, ∀ u ∈ a.units, u < s.broker.units.size
  /-- The steps of a worker are made by its thread. -/
  worker : ∀ {j : ThreadId} {th : Thread}, s.threads[j]? = some th → ∀ a ∈ th.agenda,
    a.worker? = none ∨ a.worker? = th.worker

namespace Ordered

/-- The thread that makes a step is in order after it. -/
theorem after {th : Thread} {rest : List Action} (h : s.Ordered) (hth : s.threads[i]? = some th)
    (ha : th.agenda = a :: rest) (hturn : turn.Ordered s.broker a) :
    (th.after turn).agenda.Pairwise (·.precedes ·) ∧
      ∀ a' ∈ (th.after turn).agenda, a'.worker? = none ∨ a'.worker? = th.worker := by
  have horder := h.order hth
  have hworker := h.worker hth
  rw [ha] at horder hworker
  obtain ⟨hfirst, hrest⟩ := List.pairwise_cons.1 horder
  rw [Thread.agenda_after ha]
  constructor
  · refine List.pairwise_append.2 ⟨hturn.order, hrest, fun a₀ h₀ a' ha' => ?_⟩
    exact Action.precedes_of_yields (hturn.succeeds a₀ h₀).urgency (hfirst a' ha')
  · intro a' ha'
    rcases List.mem_append.1 ha' with ha' | ha'
    · rcases (hturn.succeeds a' ha').worker with hnone | heq
      · exact .inl hnone
      · exact heq ▸ hworker a List.mem_cons_self
    · exact hworker a' (List.mem_cons_of_mem _ ha')

/-- A step leaves the agendas in order. -/
theorem step (h : s.Ordered) (hs : s.Lawful) (hstep : s.step i ch = some s') : s'.Ordered := by
  obtain ⟨th, a, rest, turn, hth, ha, hrun, rfl⟩ := step_eq_some_iff.1 hstep
  have hmem : a ∈ s.pending := mem_pending.2 ⟨i, th, hth, ha ▸ List.mem_cons_self⟩
  have hturn := Action.ordered hs.sound (fun d hd => hs.ready d (mem_duties.2 ⟨a, hmem, hd⟩))
    (h.unit a hmem) hrun
  obtain ⟨horder, hworker⟩ := h.after hth ha hturn
  have hsize := Broker.size_units_of_steady (Action.run_regular hrun).units
  refine ⟨fun {j th'} hth' => ?_, fun a' ha' u hu => ?_, fun {j th'} hth' => ?_⟩
  · rcases threadsAfter_cases hth hth' with ⟨rfl, rfl⟩ | ⟨-, hold⟩ | ⟨-, w, -, rfl⟩
    · exact horder
    · exact h.order hold
    · exact List.pairwise_singleton _ _
  · rw [broker_turned, hsize]
    rcases mem_pending_turned hth ha ha' with hold | hnew
    · exact h.unit a' hold u hu
    · rcases List.mem_append.1 hnew with hnew | hnew
      · exact (hturn.succeeds a' hnew).unit u hu
      · obtain ⟨w, -, rfl⟩ := List.mem_map.1 hnew
        exact absurd hu List.not_mem_nil
  · rcases threadsAfter_cases hth hth' with ⟨rfl, rfl⟩ | ⟨-, hold⟩ | ⟨-, w, -, rfl⟩
    · exact hworker
    · exact h.worker hold
    · exact fun a' ha' => List.mem_singleton.1 ha' ▸ .inr rfl

theorem call (h : s.Ordered) (c : Call) (n : Nat) : (s.call c n).Ordered where
  order {j th} hth := by
    rcases thread_call_cases hth with hold | rfl
    · exact h.order hold
    · exact c.ordered
  unit a ha u hu := by
    rcases mem_pending_call.1 ha with ha | ha
    · exact h.unit a ha u hu
    · exact absurd ((Call.none_of_mem ha).2.1 ▸ hu) List.not_mem_nil
  worker {j th} hth := by
    rcases thread_call_cases hth with hold | rfl
    · exact h.worker hold
    · exact fun a ha => .inl (Call.none_of_mem ha).2.2.1

theorem operate (h : s.Ordered) (o : Operation) : (s.operate o).Ordered where
  order := h.order
  unit a ha u hu := by
    have hsize := Broker.size_units_of_steady (s.broker.operate_steady o).units
    exact (h.unit a ha u hu).trans_eq hsize.symm
  worker := h.worker

end Ordered

theorem ordered_launch (b : Broker) : (launch b).Ordered := by
  refine ⟨fun h => agenda_launch h ▸ List.pairwise_singleton _ _, fun a ha u hu => ?_,
    fun h a ha => ?_⟩
  · rw [mem_pending_launch ha] at hu
    exact List.mem_range.1 hu
  · rw [agenda_launch h, List.mem_singleton] at ha
    exact .inl (ha ▸ rfl)

/-- In every state that a system can get into, the agendas are in order. -/
theorem Reachable.ordered {b : Broker} (hb : b.Fresh) (h : Reachable (launch b) s) : s.Ordered :=
  h.invariant (ordered_launch b) (fun hr h hstep => h.step (hr.lawful hb) hstep)
    (fun c n _ h => h.call c n) (fun o _ h => h.operate o)

end System

end JitBroker
