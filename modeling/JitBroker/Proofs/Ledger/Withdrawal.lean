import JitBroker.Proofs.Ledger.Basic

/-!
# Taking tasks off a queue

A worker that looks for a task, and whoever disables compilation, takes tasks off a queue. What this
does to the records of the tasks is the same in both cases (`Withdrawn`): tasks that will not run
are marked as stale, and no task that is taken off has a slot any more.

On a sound list neither can fail, and the queue is left as it is once the tasks are out of their
slots: `Broker.exists_select_queue`, `Broker.exists_drain_queue`.
-/

namespace JitBroker

/-- The second table is the first one after some tasks were taken off a queue, stale ones and those
that are to run. -/
structure Withdrawn (tasks : Table Task) (stale chosen : List TaskId) (tasks' : Table Task) :
    Prop where
  /-- There are no other tasks. -/
  size : tasks'.size = tasks.size
  /-- Tasks change in three marks at most. -/
  task : ∀ {t : Nat} {x : Task}, tasks[t]? = some x → ∃ unloaded, tasks'[t]? = some { x with
    stale := x.stale || decide (t ∈ stale)
    unloaded := unloaded
    slot := if t ∈ stale ∨ t ∈ chosen then none else x.slot }

namespace Withdrawn

variable {tasks tasks' tasks'' : Table Task} {stale chosen stale' chosen' : List TaskId}

theorem refl (tasks : Table Task) : Withdrawn tasks [] [] tasks where
  size := rfl
  task {t x} h := ⟨x.unloaded, by simpa using h⟩

theorem trans (h : Withdrawn tasks stale chosen tasks')
    (h' : Withdrawn tasks' stale' chosen' tasks'') :
    Withdrawn tasks (stale ++ stale') (chosen ++ chosen') tasks'' where
  size := h'.size.trans h.size
  task {t x} hx := by
    obtain ⟨un, hx⟩ := h.task hx
    obtain ⟨un', hx⟩ := h'.task hx
    refine ⟨un', hx.trans ?_⟩
    by_cases h₁ : t ∈ stale <;> by_cases h₂ : t ∈ stale' <;> by_cases h₃ : t ∈ chosen <;>
      by_cases h₄ : t ∈ chosen' <;> simp [h₁, h₂, h₃, h₄]

/-- One task is marked as stale. -/
theorem ofStale (tasks : Table Task) (t : TaskId) (unloaded : Task → Bool) :
    Withdrawn tasks [t] []
      (tasks.modify t fun x => { x with stale := true, unloaded := unloaded x, slot := none }) where
  size := Table.size_modify _ _ _
  task {t' x} h := by
    by_cases ht : t = t'
    · subst ht
      exact ⟨unloaded x, by simp [Table.getElem?_modify_self h]⟩
    · exact ⟨x.unloaded, by simp [Table.getElem?_modify_of_ne ht, h, Ne.symm ht]⟩

/-- One task is to run. -/
theorem ofChosen (tasks : Table Task) (t : TaskId) :
    Withdrawn tasks [] [t] (tasks.modify t fun x => { x with slot := none }) where
  size := Table.size_modify _ _ _
  task {t' x} h := by
    by_cases ht : t = t'
    · subst ht
      exact ⟨x.unloaded, by simp [Table.getElem?_modify_self h]⟩
    · exact ⟨x.unloaded, by simp [Table.getElem?_modify_of_ne ht, h, Ne.symm ht]⟩

/-- What is done to one task after the other is done to all of them. -/
theorem foldl {f : Broker → TaskId → Broker}
    (hf : ∀ b t, f b t = { b with tasks := (f b t).tasks } ∧ Withdrawn b.tasks [t] [] (f b t).tasks)
    (ts : List TaskId) (b : Broker) :
    ts.foldl f b = { b with tasks := (ts.foldl f b).tasks } ∧
      Withdrawn b.tasks ts [] (ts.foldl f b).tasks := by
  induction ts generalizing b with
  | nil => exact ⟨rfl, .refl _⟩
  | cons t ts ih =>
    obtain ⟨heq, hone⟩ := hf b t
    obtain ⟨hrest, hall⟩ := ih (f b t)
    refine ⟨?_, hone.trans hall⟩
    rw [List.foldl_cons, hrest, heq]

end Withdrawn

namespace Broker

theorem setStale_withdrawn (b : Broker) (t : TaskId) :
    b.setStale t = { b with tasks := (b.setStale t).tasks } ∧
      Withdrawn b.tasks [t] [] (b.setStale t).tasks := by
  unfold setStale
  split
  · exact ⟨rfl, .ofStale b.tasks t _⟩
  · rename_i h
    refine ⟨rfl, rfl, fun {t' x} hx => ⟨x.unloaded, ?_⟩⟩
    have : t' ≠ t := fun e => by simp [← e, hx] at h
    simpa [this] using hx

/-- A candidate stands for the entry that it was made from. -/
theorem slot_candidate {b : Broker} {e : Nat × TaskId} {c : Candidate}
    (h : b.candidate? e = some c) : c.slot = e.1 := by
  simp only [candidate?, Option.bind_eq_bind, Option.bind_eq_some_iff] at h
  obtain ⟨_, _, _, _, h⟩ := h
  exact (Option.some.inj h) ▸ rfl

/-- The slots that a selector is offered are in use. -/
theorem slots_candidates (b : Broker) (es : TaskList.Entries) :
    ((es.filterMap b.candidate?).map (·.slot)).Sublist (es.map (·.1)) := by
  induction es with
  | nil => exact List.Sublist.refl _
  | cons e es ih =>
    cases hc : b.candidate? e with
    | none =>
      rw [List.filterMap_cons_none hc]
      exact ih.cons _
    | some c =>
      rw [List.filterMap_cons_some hc, List.map_cons, List.map_cons, slot_candidate hc]
      exact ih.cons_cons _

/-- A worker that looks for a task takes one task and some stale ones out of their slots, or none. -/
theorem exists_select_queue (b : Broker) (u : UnitId) (unit : TierUnit)
    (h : unit.queue.list.Sound) :
    ∃ chosen stale b', b.select? u unit.queue = some (chosen, stale, b') ∧
      ∃ slots q' tasks, unit.queue.unlinkAll? slots = some (stale ++ chosen.toList, q') ∧
        unit.queue.list.Sheds (stale ++ chosen.toList) q'.list ∧
        Withdrawn b.tasks stale chosen.toList tasks ∧
        b'.ledger =
          { b.ledger.setStock u { unit.queue.stock with list := q'.list } with tasks := tasks } := by
  obtain ⟨es, hes⟩ := h
  obtain ⟨sel, hsel⟩ : ∃ sel, unit.queue.selector.select (b.candidates unit.queue) = sel := ⟨_, rfl⟩
  have hslots : sel.slots.Subperm (es.map (·.1)) := by
    rw [← hsel]
    refine (Selector.slots_select _ _).trans ?_
    rw [candidates, hes.entries_eq]
    exact (slots_candidates b es).subperm
  have hnodup : sel.slots.Nodup := by
    obtain ⟨l, hperm, hsub⟩ := hslots
    exact hperm.nodup_iff.1 (hsub.nodup hes.nodup_slots)
  obtain ⟨ts, q₂, hq⟩ := CompileQueue.exists_unlinkAll hes hnodup hslots.subset
  obtain ⟨stale, q₁, chosen, hq₁, hq₂, rfl⟩ := CompileQueue.unlinkAll?_append_eq_some.1 hq
  obtain ⟨hsheds, -, heq⟩ := CompileQueue.unlinkAll?_sheds hes hq
  -- A selector chooses one slot at most.
  have hone : chosen.length ≤ 1 := by
    obtain ⟨hsound, -, -⟩ := CompileQueue.unlinkAll?_sheds hes hq₁
    obtain ⟨es₁, hes₁⟩ := hsound.sound
    obtain ⟨-, hlength, -⟩ := CompileQueue.unlinkAll?_sheds hes₁ hq₂
    cases hc : sel.chosen <;> simp [hlength, hc]
  have hledger : (b.modifyQueue u fun _ => q₂).ledger =
      b.ledger.setStock u { unit.queue.stock with list := q₂.list } := by
    rw [ledger_modifyQueue_const, heq]
    rfl
  obtain ⟨hb, hw⟩ := Withdrawn.foldl setStale_withdrawn stale (b.modifyQueue u fun _ => q₂)
  have hb := congrArg ledger hb
  simp only [select?, hsel, hq₁, hq₂, Option.bind_eq_bind, Option.bind_some, Option.pure_def]
  match chosen, hone with
  | [], _ =>
    exact ⟨_, _, _, rfl, _, q₂, _, hq, hsheds, hw, hb.trans (hledger ▸ rfl)⟩
  | [t], _ =>
    have hw := hw.trans (.ofChosen _ t)
    rw [List.append_nil] at hw
    refine ⟨_, _, _, rfl, _, q₂, _, hq, hsheds, hw, ?_⟩
    rw [List.foldl_cons, List.foldl_nil, ledger_modifyTask, hb]
    exact hledger ▸ rfl

/-- So the tasks that are left are still there. -/
theorem exists_select (b : Broker) (u : UnitId) (unit : TierUnit) (h : unit.queue.list.Sound) :
    ∃ chosen stale b', b.select? u unit.queue = some (chosen, stale, b') ∧
      ∃ list tasks, unit.queue.list.Sheds (stale ++ chosen.toList) list ∧
        Withdrawn b.tasks stale chosen.toList tasks ∧
        b'.ledger =
          { b.ledger.setStock u { unit.queue.stock with list := list } with tasks := tasks } := by
  obtain ⟨chosen, stale, b', hselect, -, q', tasks, -, h⟩ := b.exists_select_queue u unit h
  exact ⟨chosen, stale, b', hselect, q'.list, tasks, h⟩

/-- Whoever drains a queue takes every task out of its slot, as stale. -/
theorem exists_drain_queue (b : Broker) (u : UnitId) (q : CompileQueue) (h : q.list.Sound) :
    ∃ ts b', b.drain? u q = some (ts, b') ∧
      ∃ q' tasks, q.unlinkAll? (q.list.entries.map (·.1)) = some (ts, q') ∧ q.list.Sheds ts q'.list ∧
        q'.list.toList = [] ∧ Withdrawn b.tasks ts [] tasks ∧
        b'.ledger = { b.ledger.setStock u { q.stock with list := q'.list } with tasks := tasks } := by
  obtain ⟨ts, q', hq', hsheds, hempty, heq⟩ := CompileQueue.exists_unlinkAll_entries h
  obtain ⟨hb, hw⟩ := Withdrawn.foldl (f := fun b t =>
      b.modifyTask t fun x => { x with stale := true, slot := none })
    (fun b t => ⟨rfl, .ofStale b.tasks t (·.unloaded)⟩) ts (b.modifyQueue u fun _ => q'.ring)
  refine ⟨ts, _, by rw [drain?, hq']; rfl, q', _, hq', hsheds, hempty, hw, ?_⟩
  refine (congrArg ledger hb).trans ?_
  have hledger := b.ledger_modifyQueue_const u q'.ring
  rw [show q'.ring.stock = { q.stock with list := q'.list } by rw [heq]; rfl] at hledger
  exact hledger ▸ rfl

/-- So no task is left. -/
theorem exists_drain (b : Broker) (u : UnitId) (q : CompileQueue) (h : q.list.Sound) :
    ∃ ts b', b.drain? u q = some (ts, b') ∧
      ∃ list tasks, q.list.Sheds ts list ∧ list.toList = [] ∧ Withdrawn b.tasks ts [] tasks ∧
        b'.ledger = { b.ledger.setStock u { q.stock with list := list } with tasks := tasks } := by
  obtain ⟨ts, b', hdrain, q', tasks, -, h⟩ := b.exists_drain_queue u q h
  exact ⟨ts, b', hdrain, q'.list, tasks, h⟩

end Broker

end JitBroker
