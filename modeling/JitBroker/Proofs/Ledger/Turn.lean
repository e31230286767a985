import JitBroker.Proofs.Agenda
import JitBroker.Proofs.Ledger.Control
import JitBroker.Proofs.Ledger.Request
import JitBroker.Proofs.Ledger.Worker

/-!
# Steps as events

Every step of a thread is an event, if the step finds what it looks for (`Action.event`). Together
with the duties of all threads (`System.duties`) this makes a system a small machine: its state is
a ledger and a collection of duties, and a step is a `Shift` of the two (`System.shift_of_step`).
-/

namespace JitBroker

/-- A step of a worker finds the worker and its unit. -/
theorem Action.worker_run {me : Caller} {ch : Choices} {b : Broker} {turn : Turn} {w : WorkerId}
    {step : WorkerStep} (hsound : b.ledger.Sound) (hw : w < b.ledger.posts.size)
    (h : (Action.worker w step).run me ch b = some turn) :
    ∃ worker unit, b.workers[w]? = some worker ∧ b.units[worker.unit]? = some unit ∧
      step.run me ch b w worker unit = some turn := by
  obtain ⟨worker, hw⟩ := Table.exists_getElem? (t := b.workers) (by simpa using hw)
  have hunit := hsound.unit (show b.ledger.posts[w]? = some worker.post by simp [hw])
  obtain ⟨unit, hu⟩ := Table.exists_getElem? (t := b.units) (by simpa using hunit)
  have hu : b.units[worker.unit]? = some unit := hu
  rw [run, hw] at h
  simp only [hu] at h
  exact ⟨worker, unit, hw, hu, h⟩

/-- What a step does. -/
theorem Action.event {me : Caller} {ch : Choices} {b : Broker} {turn : Turn} {a : Action}
    (hsound : b.ledger.Sound) (hready : ∀ d ∈ a.duty?, Duty.Ready b.ledger d)
    (h : a.run me ch b = some turn) :
    Event b.ledger a.duty? (JitBroker.duties turn.next) turn.hired turn.broker.ledger := by
  cases a with
  | request s => exact RequestStep.event hsound hready h
  | task s => exact TaskStep.event hready h
  | control s => exact ControlStep.event hsound hready h
  | gate s => exact GateStep.event h
  | worker w s =>
    have hready := hready _ rfl
    obtain ⟨worker, unit, hw, hu, h⟩ := worker_run hsound hready.1 h
    exact WorkerStep.event hw hu hsound hready h
  | crew s => exact CrewStep.event h
  | answer r =>
    obtain rfl := Option.some.inj h
    exact .plain none
  | fault => exact absurd h (by simp [run])

/-- One step of the machine of ledger and duties: an event, whose duty was pending, and those that it
brings, which are pending after it, also that of a worker who is hired. -/
structure Shift (l : Ledger) (ds : Multiset Duty) (d : Option Duty) (new : List Duty)
    (hired : Option WorkerId) (l' : Ledger) (ds' : Multiset Duty) : Prop where
  /-- It is an event. -/
  event : Event l d new hired l'
  /-- The duty of the event was pending. -/
  mem : ∀ d' ∈ d, d' ∈ ds
  /-- Other duties are pending in its place. -/
  balance : ds' + ↑d.toList = ds + ↑(new ++ hired.toList.map fun w => Duty.post w .idle)

theorem Shift.of_mem {l l' : Ledger} {ds ds' : Multiset Duty} {d : Option Duty} {new : List Duty}
    {hired : Option WorkerId} (h : Shift l ds d new hired l' ds') {d' : Duty} (hd : d' ∈ ds') :
    d' ∈ ds ∨ d' ∈ new ∨ ∃ w ∈ hired, d' = .post w .idle := by
  have := Multiset.mem_add.2 (.inl hd : d' ∈ ds' ∨ d' ∈ (↑d.toList : Multiset Duty))
  rw [h.balance, Multiset.mem_add, Multiset.mem_coe, List.mem_append] at this
  simpa [eq_comm] using this

theorem Shift.mem_or {l l' : Ledger} {ds ds' : Multiset Duty} {d : Option Duty} {new : List Duty}
    {hired : Option WorkerId} (h : Shift l ds d new hired l' ds') {d' : Duty}
    (hd : d' ∈ ds ∨ d' ∈ new) : d' ∈ ds' ∨ d = some d' := by
  have : d' ∈ ds + ↑(new ++ hired.toList.map fun w => Duty.post w .idle) := by
    rw [Multiset.mem_add, Multiset.mem_coe, List.mem_append]
    exact hd.imp_right .inl
  rw [← h.balance, Multiset.mem_add, Multiset.mem_coe, Option.mem_toList] at this
  exact this

/-- What an event brings is pending after it. -/
theorem Shift.mem_of_new {l l' : Ledger} {ds ds' : Multiset Duty} {d : Option Duty}
    {new : List Duty} {hired : Option WorkerId} (h : Shift l ds d new hired l' ds') {d' : Duty}
    (hd' : d' ∈ new) : d' ∈ ds' := by
  cases d with
  | none => exact (h.mem_or (.inr hd')).resolve_right nofun
  | some d =>
    obtain ⟨rest, rfl⟩ := Multiset.exists_cons_of_mem (h.mem d rfl)
    have hbalance : ds' + {d} =
        rest + ↑(new ++ hired.toList.map fun w => Duty.post w .idle) + {d} := by
      refine h.balance.trans ?_
      rw [← Multiset.singleton_add]
      abel
    rw [add_right_cancel hbalance, Multiset.mem_add, Multiset.mem_coe, List.mem_append]
    exact .inr (.inl hd')

namespace System

variable {s s' : System} {i : ThreadId} {ch : Choices}

/-- The ledger of the broker. -/
def ledger (s : System) : Ledger := s.broker.ledger

/-- The stock of a unit is what is in its queue. -/
theorem stock_of_unit {u : UnitId} {unit : TierUnit} (h : s.broker.units[u]? = some unit) :
    s.ledger.stocks[u]? = some unit.queue.stock := by
  rw [ledger, Broker.getElem?_stocks, h, Option.map_some]

/-- The duties of all threads. -/
def duties (s : System) : Multiset Duty := s.pending.filterMap Action.duty?

theorem mem_duties {d : Duty} : d ∈ s.duties ↔ ∃ a ∈ s.pending, a.duty? = some d := by
  simp [duties]

/-- The duties of the first actions of a thread, and all others. -/
theorem duties_park {t : Thread} {pre rest : List Action} (ht : s.threads[i]? = some t)
    (ha : t.agenda = pre ++ rest) :
    s.duties = ↑(JitBroker.duties pre) + (s.park i rest).duties := by
  rw [duties, pending_park ht ha, Multiset.filterMap_add, Multiset.filterMap_coe]
  rfl

/-- A step consumes the duty of its action and brings others. -/
theorem duties_turned {t : Thread} {a : Action} {rest : List Action} {turn : Turn}
    (ht : s.threads[i]? = some t) (ha : t.agenda = a :: rest) :
    (s.turned i turn).duties + ↑a.duty?.toList =
      s.duties + ↑(JitBroker.duties turn.next ++ turn.hired.toList.map fun w => Duty.post w .idle) := by
  have hbrings : List.filterMap Action.duty? turn.brings =
      JitBroker.duties turn.next ++ turn.hired.toList.map fun w => Duty.post w .idle := by
    unfold Turn.brings
    rw [List.filterMap_append]
    cases turn.hired <;> rfl
  exact hbrings ▸ filterMap_pending_turned Action.duty? ht ha

@[simp] theorem duties_call (s : System) (c : Call) (n : Nat) : (s.call c n).duties = s.duties := by
  have h := JitBroker.duties_call c
  rw [JitBroker.duties] at h
  simp [duties, call, h]

@[simp] theorem duties_operate (s : System) (o : Operation) : (s.operate o).duties = s.duties := rfl

@[simp] theorem ledger_call (s : System) (c : Call) (n : Nat) : (s.call c n).ledger = s.ledger := rfl

/-- A step of a thread is a shift of ledger and duties. -/
theorem shift_of_step (hsound : s.ledger.Sound) (hready : ∀ d ∈ s.duties, Duty.Ready s.ledger d)
    (h : s.step i ch = some s') : ∃ t a rest turn, s.threads[i]? = some t ∧ t.agenda = a :: rest ∧
      a.run (t.caller i) ch s.broker = some turn ∧ s' = s.turned i turn ∧
      Shift s.ledger s.duties a.duty? (JitBroker.duties turn.next) turn.hired s'.ledger s'.duties := by
  obtain ⟨t, a, rest, turn, ht, ha, hrun, rfl⟩ := step_eq_some_iff.1 h
  have hmem : a ∈ s.pending := mem_pending.2 ⟨i, t, ht, ha ▸ List.mem_cons_self⟩
  have hduty (d : Duty) (hd : d ∈ a.duty?) : d ∈ s.duties := mem_duties.2 ⟨a, hmem, hd⟩
  have hevent := Action.event hsound (fun d hd => hready d (hduty d hd)) hrun
  exact ⟨t, a, rest, turn, ht, ha, hrun, rfl, hevent, hduty, duties_turned ht ha⟩

/-- A call, for which nothing is done yet, is a shift that changes nothing. -/
theorem shift_call (s : System) (c : Call) (n : Nat) :
    Shift s.ledger s.duties none [] none (s.call c n).ledger (s.call c n).duties := by
  rw [ledger_call, duties_call]
  exact ⟨.plain none, nofun, rfl⟩

/-- What is done from outside is a shift. -/
theorem shift_operate (s : System) (o : Operation) :
    Shift s.ledger s.duties none [] none (s.operate o).ledger (s.operate o).duties := by
  refine ⟨?_, nofun, rfl⟩
  rcases s.broker.ledger_operate o with h | h
  · exact (Event.plain none).cast h
  · exact (Event.know none).cast h

end System

end JitBroker
