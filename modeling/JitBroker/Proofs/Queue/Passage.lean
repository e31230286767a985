import JitBroker.Proofs.Queue.Shelf
import JitBroker.Proofs.Rest.Alert
import JitBroker.Proofs.Task.Picked

/-!
# The passage of tasks through queues

The queues of a broker, with the slots that tasks have on record, are shelves (`Ledger.shelves`), and
three kinds of actions tell them something (`Broker.orders`): a requester adds its task, a worker that
chooses removes what is picked, and whoever drains a queue removes all there is. Nothing that is told
makes the shelves fail, and nothing else changes them (`System.Lawful.serves`).

So a queue loses what is picked, or everything, and keeps the order of all others
(`System.Lawful.loses`). If tasks are chosen in order of arrival, those that have left a queue are
always the first ones that came to it, and they left in the order in which they came
(`System.Lawful.inTurn`).

The main theorem is `System.passage_of_run`.
-/

namespace JitBroker

open Shelves

/-- Emptying all slots of a list gives its tasks, oldest first. -/
theorem CompileQueue.unlinkAll?_entries {q q' : CompileQueue} {ts : List TaskId}
    (h : q.list.Sound) (hq : q.unlinkAll? (q.list.entries.map (·.1)) = some (ts, q')) :
    ts = q.list.toList := by
  obtain ⟨es, hes⟩ := h
  obtain ⟨q'', hq'', -⟩ := exists_unlinkAll_map hes (List.Subperm.refl es)
  rw [hes.entries_eq] at hq
  rw [hes.toList_eq]
  exact congrArg Prod.fst (Option.some.inj (hq.symm.trans hq''))

/-! ### Queues as shelves -/

namespace Ledger

variable {l : Ledger} {t : TaskId} {u : UnitId}

/-- The lists of the queues, and the slots of the tasks. -/
def shelves (l : Ledger) : Shelves where
  lists := l.stocks.map (·.list)
  recorded t := l.tasks[t]?.bind (·.slot)

theorem getElem?_shelves {st : Stock} (h : l.stocks[u]? = some st) :
    l.shelves.lists[u]? = some st.list := by
  rw [shelves, Table.getElem?_map, h, Option.map_some]

@[simp] theorem shelves_lock (l : Ledger) (u : UnitId) (v : Bool) :
    (l.lock u v).shelves = l.shelves := by
  have h : (l.stocks.modify u fun st => { st with locked := v }).map (·.list) =
      l.stocks.map (·.list) := Table.map_modify_of_eq (fun _ => by rfl) _ u
  simp only [shelves, lock, h]

/-- The shelves after a queue was replaced, and its tasks with it. -/
theorem shelves_setStock (l : Ledger) (u : UnitId) (st : Stock) (tasks : Table Task) :
    ({ l.setStock u st with tasks := tasks } : Ledger).shelves = {
      lists := l.shelves.lists.modify u fun _ => st.list
      recorded := fun t => tasks[t]?.bind (·.slot) } := by
  have h : (l.stocks.modify u fun _ => st).map (·.list) =
      (l.stocks.map (·.list)).modify u fun _ => st.list := Table.map_modify (fun _ => by rfl) _ u
  simp only [shelves, setStock, h]

theorem recorded_modify {x : Task} (hx : l.tasks[t]? = some x) (f : Task → Task) :
    (fun t' => (l.tasks.modify t f)[t']?.bind (·.slot)) =
      Function.update l.shelves.recorded t (f x).slot := by
  funext t'
  by_cases heq : t' = t
  · rw [heq, Table.getElem?_modify_self hx, Function.update_self, Option.bind_some]
  · rw [Table.getElem?_modify_of_ne (Ne.symm heq), Function.update_of_ne heq]
    rfl

/-- Tasks that are taken off a queue have no slot any more. -/
theorem recorded_withdrawn {stale chosen : List TaskId} {tasks : Table Task}
    (h : Withdrawn l.tasks stale chosen tasks) :
    (fun t => tasks[t]?.bind (·.slot)) =
      fun t => if t ∈ stale ++ chosen then none else l.shelves.recorded t := by
  funext t
  simp only [shelves, List.mem_append]
  cases hx : l.tasks[t]? with
  | none =>
    have hx' : tasks[t]? = none := by
      rw [Table.getElem?_eq_none_iff, h.size, ← Table.getElem?_eq_none_iff, hx]
    rw [hx', Option.bind_none, ite_self]
  | some x =>
    obtain ⟨unloaded, hx'⟩ := h.task hx
    rw [hx', Option.bind_some, Option.bind_some]

/-- A new task has no slot. -/
theorem recorded_add {x : Task} (hx : x.slot = none) (l : Ledger) :
    (fun t => (l.tasks.add x)[t]?.bind (·.slot)) = l.shelves.recorded := by
  funext t
  simp only [shelves, Table.getElem?_add]
  split
  · rename_i heq
    rw [Option.bind_some, hx, (Table.getElem?_eq_none_iff _ _).2 heq.ge, Option.bind_none]
  · rfl

/-- A change of a task but for its slot does not show. -/
theorem shelves_modifyTask {f : Task → Task} (hf : ∀ x, (f x).slot = x.slot) (l : Ledger)
    (t : TaskId) : (l.modifyTask t f).shelves = l.shelves := by
  have h (t' : TaskId) : (l.tasks.modify t f)[t']?.bind (·.slot) = l.tasks[t']?.bind (·.slot) := by
    rw [Table.getElem?_modify]
    split
    · rw [Option.bind_map]
      exact congrArg _ (funext hf)
    · rfl
  simp only [shelves, modifyTask, h]

end Ledger

/-- Most events do not change what is in which slot. -/
theorem Event.shelves_eq {l l' : Ledger} {d : Option Duty} {new : List Duty}
    {hired : Option WorkerId} (h : Event l d new hired l')
    (hbring : ∀ u m t, d ≠ some (.bring u m t)) (hdrain : ∀ u, d ≠ some (.drain u))
    (hpick : ∀ w, d ≠ some (.post w .pick)) : l'.shelves = l.shelves := by
  cases h with
  | allocate _ r id blocking now =>
    have hnone : (Task.ofRequest r id blocking now).slot = none := rfl
    rw [Ledger.shelves, Ledger.recorded_add hnone]
    rfl
  | stamp _ | append _ _ _ _ => exact absurd rfl (hbring _ _ _)
  | drain _ _ _ _ _ => exact absurd rfl (hdrain _)
  | fetch _ _ _ _ | clean _ _ _ _ _ => exact absurd rfl (hpick _)
  | enter _ _ | refuse _ | lookIn _ _ _ | lookOut _ _ _ | unclaim =>
    exact Ledger.shelves_lock _ _ _
  | fallAsleep _ _ _ | findDisabled _ _ | wakeComplete _ _ | leave _ _ | spoil | ring _ _ _
    | close _ _ _ | wake | publish _ => exact Ledger.shelves_modifyTask (fun _ => by rfl) l _
  | free _ =>
    exact Ledger.shelves_modifyTask (f := fun x => { x with freed := true }) (fun _ => by rfl) l _
  | _ => rfl

/-! ### What actions tell the queues -/

namespace Action

variable {a : Action} {u : UnitId} {m : MethodId} {t : TaskId}

/-- A task is brought to its queue in two steps. -/
theorem eq_of_bring (h : a.duty? = some (.bring u m t)) :
    ∃ q, a = .request (.stamp q t) ∨ a = .request (.append q t) := by
  cases a with
  | request st =>
    cases st with
    | stamp q t' =>
      cases h
      exact ⟨q, .inl rfl⟩
    | append q t' =>
      cases h
      exact ⟨q, .inr rfl⟩
    | _ => cases h
  | task st =>
    cases st with
    | complete t who => cases who <;> cases h
    | _ => cases h
  | control st => cases st <;> cases h
  | _ => cases h

theorem eq_of_drain (h : a.duty? = some (.drain u)) : a = .control (.drain u) := by
  cases a with
  | request st => cases st <;> cases h
  | task st =>
    cases st with
    | complete t who => cases who <;> cases h
    | _ => cases h
  | control st =>
    cases st with
    | drain u' =>
      cases h
      rfl
    | _ => cases h
  | _ => cases h

end Action

namespace Broker

variable {b : Broker} {w : WorkerId} {u : UnitId}

/-- What a worker that chooses takes off its queue: the obsolete tasks, and the one to run. -/
def pick? (b : Broker) (w : WorkerId) : Option (UnitId × List TaskId × Option TaskId) := do
  let worker ← b.workers[w]?
  let unit ← b.units[worker.unit]?
  if unit.queue.list.isEmpty then none
  else
    let (chosen, stale, _) ← b.select? worker.unit unit.queue
    return (worker.unit, stale, chosen)

/-- What an action tells the queues. -/
def orders (b : Broker) : Action → List Order
  | .request (.append q t) => [.add q.unit t]
  | .worker w .choose =>
    match b.pick? w with
    | some (u, stale, chosen) => b.ledger.shelves.removals u (stale ++ chosen.toList)
    | none => []
  | .control (.drain u) =>
    match b.units[u]? with
    | some unit => b.ledger.shelves.removals u unit.queue.list.toList
    | none => []
  | _ => []

theorem getElem?_shelves {unit : TierUnit} (hu : b.units[u]? = some unit) :
    b.ledger.shelves.lists[u]? = some unit.queue.list := by
  have hst : b.ledger.stocks[u]? = some unit.queue.stock := by
    rw [getElem?_stocks, hu, Option.map_some]
  exact Ledger.getElem?_shelves hst

theorem exists_of_shelves {l : TaskList} (h : b.ledger.shelves.lists[u]? = some l) :
    ∃ unit, b.units[u]? = some unit ∧ unit.queue.list = l := by
  rw [Ledger.shelves, Table.getElem?_map, getElem?_stocks, Option.map_map] at h
  exact Option.map_eq_some_iff.1 h

theorem pick?_eq_some {worker : Worker} {unit : TierUnit} {chosen : Option TaskId}
    {stale : List TaskId} {b' : Broker} (hw : b.workers[w]? = some worker)
    (hu : b.units[worker.unit]? = some unit) (hempty : unit.queue.list.isEmpty = false)
    (h : b.select? worker.unit unit.queue = some (chosen, stale, b')) :
    b.pick? w = some (worker.unit, stale, chosen) := by
  simp [pick?, hw, hu, hempty, h]

end Broker

namespace System

variable {s first : System} {m : Move} {ms : List Move} {i : ThreadId} {ch : Choices} {th : Thread}
  {a : Action} {rest : List Action} {turn : Turn} {u : UnitId} {unit : TierUnit} {t : TaskId}
  {w : WorkerId} {q : Inquiry} {chosen : Option TaskId} {stale : List TaskId}

/-- The queues, with the slots of the tasks. -/
def shelves (s : System) : Shelves := s.ledger.shelves

/-- What a move tells the queues. -/
def told (s : System) (m : Move) : Option (List Order) := (s.ran m).map s.broker.orders

/-- What the moves of a run tell the queues, one after the other. -/
def ordersTold (s : System) (ms : List Move) : List Order := (s.gather told ms).flatten

theorem ordersTold_concat (s : System) (ms : List Move) (m : Move) :
    s.ordersTold (ms ++ [m]) =
      s.ordersTold ms ++ ((ms.foldl System.move s).told m).toList.flatten := by
  rw [ordersTold, gather_concat, List.flatten_append, ordersTold]

/-- A queue that is to be drained exists. -/
theorem Lawful.exists_unit_of_drain (hs : s.Lawful) (h : .control (.drain u) ∈ s.pending) :
    ∃ unit, s.broker.units[u]? = some unit := by
  have hu : u < s.ledger.stocks.size := hs.ready _ (mem_duties.2 ⟨_, h, rfl⟩)
  exact Table.exists_getElem? (by simpa [ledger] using hu)

namespace Runs

theorem shelves_move (h : s.Runs m i ch th a rest turn) :
    (s.move m).shelves = turn.broker.ledger.shelves := by
  rw [h.turned]
  rfl

/-- A requester that brings a task to a queue adds it. -/
theorem serves_append (hs : s.Lawful) (hsound : s.shelves.Sound)
    (h : s.Runs m i ch th (.request (.append q t)) rest turn) :
    s.shelves.Serves [.add q.unit t] (s.move m).shelves := by
  obtain ⟨hu, -, x, hx, -, hslot⟩ := hs.ready _ (mem_duties.2 ⟨_, h.mem_pending, rfl⟩)
  obtain ⟨unit, hunit⟩ := Table.exists_getElem? (t := s.broker.units) (by simpa [ledger] using hu)
  have hx : s.broker.tasks[t]? = some x := hx
  have hl : s.shelves.lists[q.unit]? = some unit.queue.list := Broker.getElem?_shelves hunit
  have hnone : s.shelves.recorded t = none := by
    rw [← hslot]
    exact congrArg (Option.bind · Task.slot) hx
  have hledger : turn.broker.ledger =
      { s.ledger.setStock q.unit (unit.queue.push t).2.giveBack.stock with
        tasks := s.ledger.tasks.modify t fun x =>
          { x with slot := some (unit.queue.list.push t).1 } } := by
    have hledger := s.broker.ledger_modifyQueue_const q.unit (unit.queue.push t).2.giveBack
    have hrun := h.run
    simp only [Action.run, RequestStep.run, hunit, hx, hslot, Option.isSome_none,
      Bool.false_eq_true, if_false] at hrun
    rw [ledger, ← hledger]
    split at hrun <;> obtain rfl := Option.some.inj hrun <;> rfl
  have hserve : s.shelves.serve? (.add q.unit t) = some (s.move m).shelves := by
    rw [h.shelves_move, hledger, Ledger.shelves_setStock, Ledger.recorded_modify hx, serve?, add?,
      hl, hnone]
    rfl
  refine .cons ⟨Table.lt_size_of_getElem? hl, fun l hmem ht => ?_⟩ hserve (.nil _)
  obtain ⟨v, hv⟩ := Table.mem_toList_iff.1 hmem
  obtain ⟨slot, hslot, -⟩ := hsound.mem_entries hv ht
  cases hnone.symm.trans hslot

/-- A worker that chooses removes what is picked. -/
theorem serves_choose (hs : s.Lawful) (hsound : s.shelves.Sound)
    (h : s.Runs m i ch th (.worker w .choose) rest turn) :
    s.shelves.Serves (s.broker.orders (.worker w .choose)) (s.move m).shelves := by
  have hknown := hs.known _ (mem_duties.2 ⟨_, h.mem_pending, rfl⟩)
  obtain ⟨worker, unit, hw, hu, hrun⟩ := Action.worker_run hs.sound hknown.1 h.run
  rw [h.shelves_move, Broker.orders]
  rw [WorkerStep.run] at hrun
  split at hrun
  · rename_i hempty
    obtain rfl := Option.some.inj hrun
    rw [show s.broker.pick? w = none by simp [Broker.pick?, hw, hu, hempty],
      Broker.ledger_giveBack, Ledger.shelves_lock]
    exact .nil _
  · rename_i hempty
    obtain ⟨chosen, stale, b', hselect, slots, q', tasks, hunlink, -, hwithdrawn, hledger⟩ :=
      s.broker.exists_select_queue worker.unit unit (hs.sound.list (stock_of_unit hu))
    have hturn : turn.broker.ledger.shelves = b'.ledger.shelves := by
      rw [hselect] at hrun
      simp only at hrun
      repeat' split at hrun
      all_goals
        obtain rfl := Option.some.inj hrun
        simp
    rw [Broker.pick?_eq_some hw hu (Bool.eq_false_of_not_eq_true hempty) hselect, hturn, hledger,
      Ledger.shelves_setStock, Ledger.recorded_withdrawn (l := s.ledger) hwithdrawn]
    exact hsound.serveAll_unlinkAll (Broker.getElem?_shelves hu) hunlink

/-- Whoever drains a queue removes all there is. -/
theorem serves_drain (hs : s.Lawful) (hsound : s.shelves.Sound)
    (h : s.Runs m i ch th (.control (.drain u)) rest turn) :
    s.shelves.Serves (s.broker.orders (.control (.drain u))) (s.move m).shelves := by
  obtain ⟨unit, hunit⟩ := hs.exists_unit_of_drain h.mem_pending
  have hlist := hs.sound.list (stock_of_unit hunit)
  obtain ⟨ts, b', hdrain, q', tasks, hunlink, -, -, hwithdrawn, hledger⟩ :=
    s.broker.exists_drain_queue u unit.queue hlist
  have hrun := h.run
  simp only [Action.run, ControlStep.run, hunit, hdrain] at hrun
  split at hrun
  · obtain rfl := Option.some.inj hrun
    rw [h.shelves_move, Broker.orders, hunit]
    simp only
    rw [hledger, Ledger.shelves_setStock, Ledger.recorded_withdrawn (l := s.ledger) hwithdrawn,
      ← CompileQueue.unlinkAll?_entries hlist hunlink, List.append_nil]
    exact hsound.serveAll_unlinkAll (Broker.getElem?_shelves hunit) hunlink
  · cases hrun

/-- Setting a claim again tells nothing. -/
theorem shelves_stamp (h : s.Runs m i ch th (.request (.stamp q t)) rest turn) :
    (s.move m).shelves = s.shelves := by
  have hrun := h.run
  rw [h.shelves_move]
  simp only [Action.run, RequestStep.run] at hrun
  split at hrun
  · obtain rfl := Option.some.inj hrun
    rfl
  · obtain rfl := Option.some.inj hrun
    rw [Broker.ledger_modifyMethod_queued]
    exact Ledger.shelves_modifyTask (fun _ => by rfl) s.ledger t

/-- Whatever an action tells the queues may be told, and makes of them what they are after it. -/
theorem serves (hs : s.Lawful) (hsound : s.shelves.Sound) (h : s.Runs m i ch th a rest turn) :
    s.shelves.Serves (s.broker.orders a) (s.move m).shelves := by
  unfold Broker.orders
  split
  · exact h.serves_append hs hsound
  · exact h.serves_choose hs hsound
  · exact h.serves_drain hs hsound
  · rename_i happend hchoose hdrain
    have hshelves : (s.move m).shelves = s.shelves := by
      by_cases hstamp : ∃ q t, a = .request (.stamp q t)
      · obtain ⟨q, t, rfl⟩ := hstamp
        exact h.shelves_stamp
      · refine (h.shift hs).event.shelves_eq (fun u n t hd => ?_)
          (fun u hd => hdrain u (Action.eq_of_drain hd)) fun w hd => hchoose w (eq_choose_of_duty hd)
        obtain ⟨q, ha | ha⟩ := Action.eq_of_bring hd
        · exact hstamp ⟨q, t, ha⟩
        · exact happend q t ha
    exact hshelves ▸ .nil _

end Runs

/-- Other moves tell nothing. -/
theorem shelves_of_ran (h : s.ran m = none) : (s.move m).shelves = s.shelves := by
  cases m with
  | call c n => rfl
  | operate o =>
    rcases s.broker.ledger_operate o with h | h <;> exact (congrArg Ledger.shelves h).trans rfl
  | step i ch => rw [move_step_of_ran h]

/-- So it is with every move. -/
theorem Lawful.serves (hs : s.Lawful) (hsound : s.shelves.Sound) (m : Move) :
    s.shelves.Serves (s.told m).toList.flatten (s.move m).shelves := by
  cases hran : s.ran m with
  | none =>
    rw [told, hran, shelves_of_ran hran]
    exact .nil _
  | some a =>
    obtain ⟨i, ch, th, rest, turn, hruns⟩ := exists_runs hran
    rw [told, hran, Option.map_some, Option.toList_some, List.flatten_singleton]
    exact hruns.serves hs hsound

/-- At first no task is on any list. -/
theorem shelves_launch {b : Broker} (hb : b.Fresh) :
    (launch b).shelves = Shelves.empty b.units.size := by
  have hlists : (launch b).shelves.lists = (Shelves.empty b.units.size).lists := by
    refine Table.ext_getElem? fun u => ?_
    rw [Shelves.getElem?_empty]
    split
    · rename_i hu
      obtain ⟨unit, hunit⟩ := Table.exists_getElem? hu
      obtain ⟨hlist, -⟩ := hb.unit unit (Table.mem_toList_iff.2 ⟨u, hunit⟩)
      rw [← hlist]
      exact Broker.getElem?_shelves hunit
    · rename_i hu
      rw [Table.getElem?_eq_none_iff]
      simpa [shelves, Ledger.shelves] using Nat.not_lt.1 hu
  have hrecorded : (launch b).shelves.recorded = (Shelves.empty b.units.size).recorded := by
    funext t
    simp [shelves, Ledger.shelves, Shelves.empty, hb.tasks]
  exact Shelves.ext hlists hrecorded

/-- So it is along a run. -/
theorem serves_of_run {b : Broker} (hb : b.Fresh) (ms : List Move) :
    (Shelves.empty b.units.size).Serves ((launch b).ordersTold ms)
      (ms.foldl System.move (launch b)).shelves := by
  induction ms using List.reverseRecOn with
  | nil => exact shelves_launch hb ▸ .nil _
  | append_singleton ms m ih =>
    rw [ordersTold_concat, List.foldl_concat]
    exact ih.append (((lawful_launch hb).foldl ms).serves (ih.sound (sound_empty _)) m)

/-! ### What queues lose -/

/-- Tasks that are in a list have their slots on record. -/
theorem recorded_of_subset {ts : List TaskId} (hsound : s.shelves.Sound)
    (hu : s.broker.units[u]? = some unit) (hts : ts ⊆ unit.queue.list.toList) :
    ∀ t ∈ ts, ∃ slot, s.shelves.recorded t = some slot := by
  intro t ht
  obtain ⟨slot, hslot, -⟩ := hsound.mem_entries (Broker.getElem?_shelves hu) (hts ht)
  exact ⟨slot, hslot⟩

/-- A queue loses some of its tasks and keeps the order of the others, and no other queue changes. -/
structure Loses (s s' : System) (u : UnitId) (ts : List TaskId) : Prop where
  /-- The tasks were in the queue, the others still are, in the same order. -/
  queue : ∃ unit unit', s.broker.units[u]? = some unit ∧ s'.broker.units[u]? = some unit' ∧
    ts ⊆ unit.queue.list.toList ∧ ts.Nodup ∧
    unit'.queue.list.toList = unit.queue.list.toList.filter (· ∉ ts)
  /-- The other queues have the tasks that they had. -/
  others : ∀ {v : UnitId} {unit' : TierUnit}, v ≠ u → s'.broker.units[v]? = some unit' →
    ∃ unit, s.broker.units[v]? = some unit ∧ unit'.queue.list.toList = unit.queue.list.toList

/-- Whatever tells a queue to give back some of its tasks makes it lose just them. -/
theorem Lawful.loses (hs : s.Lawful) (hsound : s.shelves.Sound) {ts : List TaskId}
    (hu : s.broker.units[u]? = some unit) (hts : ts ⊆ unit.queue.list.toList) (hnodup : ts.Nodup)
    (htold : s.told m = some (s.shelves.removals u ts)) : s.Loses (s.move m) u ts := by
  have hserves := hs.serves hsound m
  rw [htold, Option.toList_some, List.flatten_singleton] at hserves
  have edits {v : UnitId} {unit' : TierUnit} (hv : (s.move m).broker.units[v]? = some unit') :
      ∃ x, s.broker.units[v]? = some x ∧ unit'.queue.list.toList =
        if u = v then x.queue.list.toList.diff ts else x.queue.list.toList := by
    obtain ⟨l, hl, heq⟩ := hserves.edits hsound (Broker.getElem?_shelves hv)
    obtain ⟨x, hx, rfl⟩ := Broker.exists_of_shelves hl
    exact ⟨x, hx, heq.trans (edit_removals (recorded_of_subset hsound hu hts) _)⟩
  constructor
  case queue =>
    have hsize : (s.move m).broker.units.size = s.broker.units.size := by
      simpa [ledger] using (hs.extends_move m).stocks
    obtain ⟨unit', hu'⟩ := Table.exists_getElem? (hsize ▸ Table.lt_size_of_getElem? hu)
    obtain ⟨x, hx, heq⟩ := edits hu'
    obtain rfl := Option.some.inj (hu.symm.trans hx)
    have hdiff : unit.queue.list.toList.diff ts = unit.queue.list.toList.filter (· ∉ ts) :=
      (hsound.nodup (Broker.getElem?_shelves hu)).sdiff_eq_filter
    exact ⟨unit, unit', hu, hu', hts, hnodup, by rw [heq, if_pos rfl, hdiff]⟩
  case others =>
    intro v unit' hne hv
    obtain ⟨x, hx, heq⟩ := edits hv
    exact ⟨x, hx, by rw [heq, if_neg (Ne.symm hne)]⟩

/-- A worker that chooses tells its queue to give back what is picked. -/
theorem Chooses.told (h : s.Chooses m w chosen stale) : ∃ worker unit,
    s.broker.workers[w]? = some worker ∧ s.broker.units[worker.unit]? = some unit ∧
      s.told m = some (s.shelves.removals worker.unit (stale ++ chosen.toList)) ∧
      s.broker.pick? w = some (worker.unit, stale, chosen) ∧
      unit.queue.selector.Picks s.broker.isObsolete s.broker.merit
        unit.queue.list.toList chosen stale := by
  obtain ⟨worker, unit, b', hw, hu, hempty, hselect, hpicks⟩ := h.picks
  have hpick := Broker.pick?_eq_some hw hu hempty hselect
  refine ⟨worker, unit, hw, hu, ?_, hpick, hpicks⟩
  rw [System.told, h.ran, Option.map_some, Broker.orders, hpick]
  rfl

/-- Whoever drains a queue tells it to give back all there is. -/
theorem told_of_drain (h : s.ran m = some (.control (.drain u)))
    (hu : s.broker.units[u]? = some unit) :
    s.told m = some (s.shelves.removals u unit.queue.list.toList) := by
  rw [told, h, Option.map_some, Broker.orders, hu]
  rfl

/-- A worker that looks into an empty queue picks nothing. -/
theorem Lawful.pick_cases (hs : s.Lawful) (h : s.ran m = some (.worker w .choose)) :
    s.broker.pick? w = none ∨ ∃ chosen stale, s.Chooses m w chosen stale := by
  obtain ⟨worker, unit, hw, hu, hempty | hchooses⟩ := hs.chooses h
  · exact .inl (by simp [Broker.pick?, hw, hu, hempty])
  · exact .inr hchooses

/-- A move tells the queues nothing, or adds a task to one, or removes some of the tasks in one, the
oldest if they are chosen in order of arrival. -/
theorem Lawful.told_cases (hs : s.Lawful) (m : Move) :
    (s.told m).toList.flatten = [] ∨ (∃ u t, (s.told m).toList.flatten = [.add u t]) ∨
      ∃ u unit ts, s.broker.units[u]? = some unit ∧ s.told m = some (s.shelves.removals u ts) ∧
        ts ⊆ unit.queue.list.toList ∧
        (unit.queue.selector = .fifo → ts <+: unit.queue.list.toList) := by
  cases hran : s.ran m with
  | none => exact .inl (by rw [told, hran]; rfl)
  | some a =>
    by_cases hchoose : ∃ w, a = .worker w .choose
    · obtain ⟨w, rfl⟩ := hchoose
      rcases hs.pick_cases hran with hpick | ⟨chosen, stale, hchooses⟩
      · refine .inl ?_
        rw [told, hran, Option.map_some, Broker.orders, hpick]
        rfl
      · obtain ⟨worker, unit, -, hu, htold, -, hpicks⟩ := hchooses.told
        refine .inr (.inr ⟨worker.unit, unit, _, hu, htold, hpicks.subperm.subset, fun hfifo => ?_⟩)
        rw [hfifo] at hpicks
        obtain ⟨behind, hsplit⟩ := hpicks.split
        exact ⟨behind, hsplit.symm⟩
    by_cases hdrain : ∃ u unit, a = .control (.drain u) ∧ s.broker.units[u]? = some unit
    · obtain ⟨u, unit, rfl, hu⟩ := hdrain
      exact .inr (.inr ⟨u, unit, _, hu, told_of_drain hran hu, List.Subset.refl _,
        fun _ => List.prefix_refl _⟩)
    rw [told, hran, Option.map_some, Option.toList_some, List.flatten_singleton]
    unfold Broker.orders
    split
    · exact .inr (.inl ⟨_, _, rfl⟩)
    · exact absurd ⟨_, rfl⟩ hchoose
    · split
      · exact absurd ⟨_, _, rfl, ‹_›⟩ hdrain
      · exact .inl rfl
    · exact .inl rfl

end System

/-! ### Order of arrival -/

/-- The task that an order puts into a list. -/
def Order.arriving (u : Nat) : Order → Option TaskId
  | .add v t => if v = u then some t else none
  | .remove _ _ _ => none

/-- The task that an order takes out of a list. -/
def Order.leaving (u : Nat) : Order → Option TaskId
  | .add _ _ => none
  | .remove v _ t => if v = u then some t else none

/-- The tasks that came to a list, in this order. -/
def arrivals (os : List Order) (u : Nat) : List TaskId := os.filterMap (Order.arriving u)

/-- The tasks that left a list, in this order. -/
def departures (os : List Order) (u : Nat) : List TaskId := os.filterMap (Order.leaving u)

theorem arrivals_append (os os' : List Order) (u : Nat) :
    arrivals (os ++ os') u = arrivals os u ++ arrivals os' u := List.filterMap_append

theorem departures_append (os os' : List Order) (u : Nat) :
    departures (os ++ os') u = departures os u ++ departures os' u := List.filterMap_append

theorem arrivals_removals (s : Shelves) (u v : Nat) (ts : List TaskId) :
    arrivals (s.removals u ts) v = [] := by
  refine List.filterMap_eq_nil_iff.2 fun o ho => ?_
  obtain ⟨t, -, ho⟩ := List.mem_filterMap.1 ho
  obtain ⟨slot, -, rfl⟩ := Option.map_eq_some_iff.1 ho
  rfl

theorem departures_removals {s : Shelves} {ts : List TaskId} (u v : Nat)
    (h : ∀ t ∈ ts, ∃ slot, s.recorded t = some slot) :
    departures (s.removals u ts) v = if u = v then ts else [] := by
  induction ts with
  | nil => simp [removals, departures]
  | cons t ts ih =>
    obtain ⟨⟨slot, hslot⟩, h⟩ := List.forall_mem_cons.1 h
    rw [removals_cons hslot, departures, List.filterMap_cons, ← departures, ih h, Order.leaving]
    by_cases huv : u = v <;> simp [huv]

/-- What is deleted first from a list leaves the rest. -/
theorem diff_append_left (ts rest : List TaskId) : (ts ++ rest).diff ts = rest := by
  induction ts with
  | nil => rfl
  | cons t ts ih => rw [List.cons_append, List.diff_cons, List.erase_cons_head, ih]

namespace System

variable {s first : System} {m : Move} {ms : List Move} {u : UnitId} {unit unit' : TierUnit}
  {config : Config} {parts : Broker.Parts} {b : Broker}

/-- In order of arrival, whatever leaves a queue in a move is what came first. -/
theorem Lawful.inTurn (hs : s.Lawful) (hsound : s.shelves.Sound)
    (hu : s.broker.units[u]? = some unit) (hfifo : unit.queue.selector = .fifo) (m : Move) :
    unit.queue.list.toList ++ arrivals (s.told m).toList.flatten u =
      departures (s.told m).toList.flatten u ++
        (s.told m).toList.flatten.foldl (Order.edit u) unit.queue.list.toList := by
  rcases hs.told_cases m with h | ⟨v, t, h⟩ | ⟨v, x, ts, hv, h, hsub, hprefix⟩
  · simp [h, arrivals, departures]
  · by_cases hvu : v = u <;>
      simp [h, arrivals, departures, Order.arriving, Order.leaving, Order.edit, hvu]
  · have hrecorded := recorded_of_subset hsound hv hsub
    rw [h, Option.toList_some, List.flatten_singleton, arrivals_removals,
      departures_removals v u hrecorded, edit_removals hrecorded, List.append_nil]
    split
    · rename_i hvu
      subst hvu
      obtain rfl := Option.some.inj (hu.symm.trans hv)
      obtain ⟨rest, hrest⟩ := hprefix hfifo
      rw [← hrest, diff_append_left]
    · rfl

/-- A queue keeps its policy. -/
theorem Lawful.exists_unit (hs : s.Lawful) (ho : s.Ordered) (m : Move)
    (hu : (s.move m).broker.units[u]? = some unit') :
    ∃ unit, s.broker.units[u]? = some unit ∧ unit.Follows unit' := by
  cases hran : s.ran m with
  | some a =>
    obtain ⟨i, ch, th, rest, turn, h⟩ := exists_runs hran
    have halert := Action.alert hs.sound
      (fun d hd => hs.ready d (mem_duties.2 ⟨a, h.mem_pending, hd⟩)) (ho.unit a h.mem_pending) h.run
    rw [h.turned] at hu
    exact halert.exists_unit (Broker.size_units_of_steady (Action.run_regular h.run).units) hu
  | none =>
    cases m with
    | call c n => exact ⟨unit', hu, .refl _⟩
    | operate o =>
      have hsize := Broker.size_units_of_steady (s.broker.operate_steady o).units
      obtain ⟨unit, hunit, hfollows, -⟩ := (s.broker.stirs_operate o).exists_unit hsize hu
      exact ⟨unit, hunit, hfollows⟩
    | step i ch =>
      rw [move_step_of_ran hran] at hu
      exact ⟨unit', hu, .refl _⟩

/-- In every state that a system can get into, the queues have the policy that they were given. -/
theorem Reachable.selector (hb : Broker.assemble config parts = .ok b) (h : Reachable (launch b) s)
    (hu : s.broker.units[u]? = some unit) : unit.queue.selector = parts.selector := by
  have hfresh := Broker.fresh_assemble hb
  induction h generalizing unit with
  | first =>
    obtain ⟨tier, hqueue⟩ := Broker.queue_of_assemble hb unit (Table.mem_toList_iff.2 ⟨u, hu⟩)
    rw [hqueue]
    rfl
  | move m hr ih =>
    obtain ⟨x, hx, hfollows⟩ := (hr.lawful hfresh).exists_unit (hr.ordered hfresh) m hu
    exact hfollows.selector.trans (ih hx)

/-- In order of arrival, those that have left a queue are the first ones that came to it. -/
theorem arrivals_of_fifo (hb : Broker.assemble config parts = .ok b) (hfifo : parts.selector = .fifo)
    (ms : List Move) (hu : (ms.foldl System.move (launch b)).broker.units[u]? = some unit) :
    arrivals ((launch b).ordersTold ms) u =
      departures ((launch b).ordersTold ms) u ++ unit.queue.list.toList := by
  have hfresh := Broker.fresh_assemble hb
  induction ms using List.reverseRecOn generalizing unit with
  | nil =>
    rw [(hfresh.unit unit (Table.mem_toList_iff.2 ⟨u, hu⟩)).1]
    rfl
  | append_singleton ms m ih =>
    have hr : Reachable (launch b) (ms.foldl System.move (launch b)) :=
      reachable_iff_foldl.2 ⟨ms, rfl⟩
    have hs := hr.lawful hfresh
    have hsound := (serves_of_run hfresh ms).sound (sound_empty _)
    rw [List.foldl_concat] at hu
    obtain ⟨l, hl, hedit⟩ := (hs.serves hsound m).edits hsound (Broker.getElem?_shelves hu)
    obtain ⟨x, hx, rfl⟩ := Broker.exists_of_shelves hl
    have hturn := hs.inTurn hsound hx ((hr.selector hb hx).trans hfifo) m
    rw [ordersTold_concat, arrivals_append, departures_append, ih hx, List.append_assoc, hturn, hedit,
      List.append_assoc]

/-- The task that a worker of a unit takes up in a move, if one chooses. -/
def pulls (u : UnitId) (s : System) (m : Move) : Option TaskId :=
  match s.ran m with
  | some (.worker w .choose) =>
    (s.broker.pick? w).bind fun (v, _, chosen) => if v = u then chosen else none
  | _ => none

/-- A task that is taken up leaves its queue. -/
theorem Lawful.pulls_sublist (hs : s.Lawful) (hsound : s.shelves.Sound) (u : UnitId) (m : Move) :
    (s.pulls u m).toList.Sublist (departures (s.told m).toList.flatten u) := by
  rw [pulls]
  split
  · rename_i w hran
    rcases hs.pick_cases hran with hpick | ⟨chosen, stale, hchooses⟩
    · rw [hpick]
      exact List.nil_sublist _
    · obtain ⟨worker, unit, -, hu, htold, hpick, hpicks⟩ := hchooses.told
      have hrecorded := recorded_of_subset hsound hu hpicks.subperm.subset
      rw [hpick, htold, Option.toList_some, List.flatten_singleton, departures_removals _ _ hrecorded,
        Option.bind_some]
      simp only
      split
      · exact List.sublist_append_right _ _
      · exact List.nil_sublist _
  · exact List.nil_sublist _

/-- So it is along a run. -/
theorem pulled_sublist (hb : b.Fresh) (u : UnitId) (ms : List Move) :
    ((launch b).gather (pulls u) ms).Sublist (departures ((launch b).ordersTold ms) u) := by
  induction ms using List.reverseRecOn with
  | nil => exact List.nil_sublist _
  | append_singleton ms m ih =>
    have hsound := (serves_of_run hb ms).sound (sound_empty _)
    rw [gather_concat, ordersTold_concat, departures_append]
    exact ih.append (((lawful_launch hb).foldl ms).pulls_sublist hsound u m)

/-! ### Every run -/

/-- How tasks pass through the queues of a broker in a run. -/
structure Passage (selector : Selector) (first : System) (ms : List Move) : Prop where
  /-- The queues are told what lists may be told, and become what lists become that are told so. -/
  served : (Shelves.empty first.broker.units.size).Serves (first.ordersTold ms)
    (ms.foldl System.move first).shelves
  /-- They have the tasks that came and have not left. -/
  keeps : (ms.foldl System.move first).shelves.Keeps (contents (first.ordersTold ms))
  /-- When a worker chooses, its queue loses the obsolete tasks and the chosen one, and no others. -/
  passes : ∀ {before m after w chosen stale}, ms = before ++ m :: after →
    (before.foldl System.move first).Chooses m w chosen stale →
    ∃ worker, (before.foldl System.move first).broker.workers[w]? = some worker ∧
      (before.foldl System.move first).Loses ((before ++ [m]).foldl System.move first) worker.unit
        (stale ++ chosen.toList)
  /-- When a queue is drained, it loses all it has. -/
  drains : ∀ {before m after u}, ms = before ++ m :: after →
    (before.foldl System.move first).ran m = some (.control (.drain u)) →
    ∃ unit, (before.foldl System.move first).broker.units[u]? = some unit ∧
      (before.foldl System.move first).Loses ((before ++ [m]).foldl System.move first) u
        unit.queue.list.toList
  /-- If tasks are chosen in order of arrival, those that have left a queue are the first ones that
  came to it, and those that were taken up were so in the order in which they came. -/
  fifo : selector = .fifo → ∀ {u unit},
    (ms.foldl System.move first).broker.units[u]? = some unit →
    arrivals (first.ordersTold ms) u = departures (first.ordersTold ms) u ++ unit.queue.list.toList ∧
      (first.gather (pulls u) ms).Sublist (arrivals (first.ordersTold ms) u)

/-- Lists that are told to take in tasks that are on no list, and to give back those in slots that are
in use, have the tasks that were put at their ends and not deleted since; and the queues of a broker
are such lists in every run, lose just what is picked or drained, and give tasks in order of arrival if
that is their policy. -/
theorem passage_of_run (hb : Broker.assemble config parts = .ok b) (ms : List Move) :
    (∀ (n : Nat) (os : List Order), (Shelves.empty n).Admitted os →
      ∃ s, (Shelves.empty n).serveAll? os = some s ∧ s.lists.size = n ∧ s.Keeps (contents os)) ∧
      Passage parts.selector (launch b) ms := by
  have hfresh := Broker.fresh_assemble hb
  have sound (ms : List Move) : (ms.foldl System.move (launch b)).shelves.Sound :=
    (serves_of_run hfresh ms).sound (sound_empty _)
  have lawful (ms : List Move) := (lawful_launch hfresh).foldl ms
  refine ⟨fun n os h => Shelves.keeps_of_admitted n h, ?_⟩
  constructor
  case served => exact serves_of_run hfresh ms
  case keeps =>
    obtain ⟨s, hs, -, hkeeps⟩ := Shelves.keeps_of_admitted _ (serves_of_run hfresh ms).admitted
    exact Option.some.inj (hs.symm.trans (serves_of_run hfresh ms).eq_some) ▸ hkeeps
  case passes =>
    intro before m after w chosen stale _ hchooses
    obtain ⟨worker, unit, hw, hu, htold, -, hpicks⟩ := hchooses.told
    have hnodup := (sound before).nodup (Broker.getElem?_shelves hu)
    obtain ⟨ts, hperm, hsub⟩ := hpicks.subperm
    rw [List.foldl_concat]
    exact ⟨worker, hw, (lawful before).loses (sound before) hu hpicks.subperm.subset
      (hperm.nodup_iff.1 (hsub.nodup hnodup)) htold⟩
  case drains =>
    intro before m after u _ hran
    obtain ⟨i, ch, th, rest, turn, hruns⟩ := exists_runs hran
    obtain ⟨unit, hunit⟩ := (lawful before).exists_unit_of_drain hruns.mem_pending
    rw [List.foldl_concat]
    exact ⟨unit, hunit, (lawful before).loses (sound before) hunit (List.Subset.refl _)
      ((sound before).nodup (Broker.getElem?_shelves hunit)) (told_of_drain hran hunit)⟩
  case fifo =>
    intro hfifo u unit hu
    have harrivals := arrivals_of_fifo hb hfifo ms hu
    refine ⟨harrivals, ?_⟩
    rw [harrivals]
    exact (pulled_sublist hfresh u ms).trans (List.sublist_append_left _ _)

end System

/-- What a small broker is built from whose worker takes the tasks in order of arrival. -/
def Broker.Parts.inTurn : Parts := { Parts.solo with selector := .fifo }

/-- A small broker whose worker takes the tasks in order of arrival. -/
def Broker.inTurn : Broker := (assemble .solo .inTurn).toOption.getD default

theorem Broker.assemble_inTurn : assemble .solo .inTurn = .ok inTurn := rfl

namespace System

/-- Three methods are requested, the first one is redefined, and the worker looks into the queue. -/
def inTurnThree : List Move :=
  soloStart ++ [.operate (.addMethod { name := "g", className := "C" }),
      .operate (.addMethod { name := "h", className := "C" })]
    ++ soloRequest 2 0 ++ soloRequest 3 1 ++ soloRequest 4 2 ++ [.operate (.redefine 0)] ++ times 1 5

/-- The first two tasks have left the queue, and only the second one was taken up. When compilation is
disabled, the third one leaves it too. -/
theorem passage_of_inTurnThree :
    Passage .fifo (launch .inTurn) inTurnThree ∧
      (∃ s, (Shelves.empty 1).serveAll? ((launch .inTurn).ordersTold inTurnThree) = some s ∧
        s.lists.size = 1 ∧ s.Keeps (contents ((launch .inTurn).ordersTold inTurnThree))) ∧
      arrivals ((launch .inTurn).ordersTold inTurnThree) 0 = [0, 1, 2] ∧
      departures ((launch .inTurn).ordersTold inTurnThree) 0 = [0, 1] ∧
      (launch .inTurn).gather (pulls 0) inTurnThree = [1] ∧
      departures ((launch .inTurn).ordersTold (inTurnThree ++ .call .disable 0 :: times 5 2)) 0 =
        [0, 1, 2] :=
  have hrun := passage_of_run Broker.assemble_inTurn inTurnThree
  ⟨hrun.2, hrun.1 1 _ hrun.2.served.admitted, by decide +kernel⟩

end System

end JitBroker
