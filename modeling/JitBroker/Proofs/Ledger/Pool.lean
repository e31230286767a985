import JitBroker.Proofs.Protocol

/-!
# The account of live tasks

The pool only counts: it does not know which tasks it handed out. Its counts agree with the tasks
themselves (`Ledger.Pooled`): those that are live are those that were not freed, they are never more
than the pool may hand out, and each task that was handed out was added to a queue, or is with a
requester that is about to add it.
-/

namespace JitBroker

/-- Whether a duty is to bring a task to its queue. -/
def Duty.carries : Duty → Bool
  | .bring _ _ _ => true
  | _ => false

/-- The account of tasks agrees with the tasks, and with what the queues gained. -/
structure Ledger.Pooled (l : Ledger) (ds : Multiset Duty) : Prop where
  /-- The live tasks are those that were not freed. -/
  live : l.pool.live = l.tasks.total fun x => (!x.freed).toNat
  /-- A task that was handed out is live, or was given back. -/
  allocated : l.pool.allocated = l.pool.freed + l.pool.live
  /-- No more tasks are live than may be. -/
  fits : l.pool.live ≤ l.pool.capacity.toNat
  /-- There never were more of them than the peak. -/
  peak : l.pool.live ≤ l.pool.peakLive
  /-- A task that was handed out came to a queue, or is on its way. -/
  added : l.stocks.total (·.added) + ds.countP (·.carries) = l.pool.allocated

namespace TaskPool

variable {p p' : TaskPool}

/-- What an allocation makes of the account. -/
theorem allocate_eq_some (h : p.allocate? = some p') :
    p.live < p.capacity.toNat ∧ p'.capacity = p.capacity ∧ p'.allocated = p.allocated + 1 ∧
      p'.freed = p.freed ∧ p'.live = p.live + 1 ∧ p'.peakLive = max p.peakLive (p.live + 1) := by
  rw [allocate?] at h
  split at h
  · rename_i hlt
    obtain rfl := Option.some.inj h
    exact ⟨hlt, rfl, rfl, rfl, rfl, rfl⟩
  · cases h

/-- What giving a task back makes of it. -/
theorem free_eq (p : TaskPool) (who : FreedBy) :
    (p.free who).capacity = p.capacity ∧ (p.free who).allocated = p.allocated ∧
      (p.free who).freed = p.freed + 1 ∧ (p.free who).live = p.live - 1 ∧
      (p.free who).peakLive = p.peakLive := by
  cases who <;> simp only [free, freed, true_and, and_true] <;> omega

end TaskPool

theorem Withdrawn.freed_eq {tasks tasks' : Table Task} {stale chosen : List TaskId}
    (h : Withdrawn tasks stale chosen tasks') : tasks'.map (·.freed) = tasks.map (·.freed) := by
  refine Table.ext_getElem? fun t => ?_
  rw [Table.getElem?_map, Table.getElem?_map]
  cases hx : tasks[t]? with
  | some x =>
    obtain ⟨_, hx'⟩ := h.task hx
    rw [hx']
    rfl
  | none =>
    rw [Table.getElem?_eq_none_iff, ← h.size, ← Table.getElem?_eq_none_iff] at hx
    rw [hx]

theorem countP_carries_discard (ts : List TaskId) :
    (ts.flatMap Duty.discard).countP (·.carries) = 0 := by
  refine List.countP_eq_zero.2 fun d hd => ?_
  obtain ⟨t, -, rfl | rfl | rfl⟩ := Duty.mem_discard.1 hd <;> simp [Duty.carries]

namespace Ledger.Pooled

variable {l l' : Ledger} {ds ds' : Multiset Duty} {d : Option Duty} {new : List Duty}
  {w : Option WorkerId}

/-- A total of a part of the records depends on that part only. -/
theorem total_eq {α β : Type} {t t' : Table α} {f : α → β} (h : t'.map f = t.map f) (g : β → Nat) :
    (t'.total fun x => g (f x)) = t.total fun x => g (f x) := by
  rw [← Table.total_map t' f g, ← Table.total_map t f g, h]

/-- What changes neither the account, nor which tasks are freed, nor what the queues gained, keeps
them in agreement. -/
theorem of_same (h : l.Pooled ds) (hpool : l'.pool = l.pool)
    (htasks : l'.tasks.map (·.freed) = l.tasks.map (·.freed))
    (hstocks : l'.stocks.map (·.added) = l.stocks.map (·.added))
    (hds : ds'.countP (·.carries) = ds.countP (·.carries)) : l'.Pooled ds' where
  live := by rw [hpool, h.live, total_eq htasks fun freed => (!freed).toNat]
  allocated := by rw [hpool, h.allocated]
  fits := hpool ▸ h.fits
  peak := hpool ▸ h.peak
  added := by
    have hadded : l'.stocks.total (·.added) = l.stocks.total (·.added) := total_eq hstocks id
    rw [hpool, hadded, hds, h.added]

/-- A task that is handed out is live, and on its way. -/
theorem of_allocate (h : l.Pooled ds) {pool : TaskPool} {x : Task}
    (hpool : l.pool.allocate? = some pool) (hx : x.freed = false)
    (hds : ds'.countP (·.carries) = ds.countP (·.carries) + 1) :
    { l with pool := pool, tasks := l.tasks.add x }.Pooled ds' := by
  obtain ⟨hlt, hcapacity, hallocated, hfreed, hlive, hpeak⟩ := TaskPool.allocate_eq_some hpool
  obtain ⟨live, allocated, fits, peak, added⟩ := h
  refine ⟨?_, ?_, ?_, ?_, ?_⟩ <;> dsimp only
  · rw [Table.total_add, hlive, live, hx]
    rfl
  · omega
  · rw [hcapacity]
    omega
  · omega
  · omega

/-- A task that was live is given back. -/
theorem of_free (h : l.Pooled ds) {t : TaskId} {x : Task} (hx : l.tasks[t]? = some x)
    (hfreed : x.freed = false) (who : FreedBy)
    (hds : ds'.countP (·.carries) = ds.countP (·.carries)) :
    { l.modifyTask t fun x => { x with freed := true } with pool := l.pool.free who }.Pooled ds' := by
  have htotal := Table.total_modify hx (fun x => { x with freed := true }) fun x => (!x.freed).toNat
  rw [hfreed, Bool.not_false, Bool.toNat_true, Bool.not_true, Bool.toNat_false] at htotal
  obtain ⟨hcapacity, hallocated, hback, hlive, hpeak⟩ := l.pool.free_eq who
  obtain ⟨live, allocated, fits, peak, added⟩ := h
  refine ⟨?_, ?_, ?_, ?_, ?_⟩ <;> dsimp only [modifyTask] <;> try rw [hcapacity]
  all_goals omega

/-- A task comes to its queue. -/
theorem of_append (h : l.Pooled ds) {u : UnitId} {t : TaskId} {st : Stock} {list : TaskList}
    {f : Task → Task} (hst : l.stocks[u]? = some st) (hf : ∀ x, (f x).freed = x.freed)
    (hds : ds'.countP (·.carries) + 1 = ds.countP (·.carries)) :
    ((l.setStock u ⟨list, st.added + 1, false⟩).modifyTask t f).Pooled ds' := by
  have htotal := Table.total_modify hst (fun _ => ⟨list, st.added + 1, false⟩) (·.added)
  have htasks := total_eq (Table.map_modify_of_eq hf l.tasks t) fun freed => (!freed).toNat
  obtain ⟨live, allocated, fits, peak, added⟩ := h
  refine ⟨live.trans htasks.symm, allocated, fits, peak, ?_⟩
  dsimp only [modifyTask, setStock] at htotal ⊢
  omega

/-- Every event keeps the account in agreement. -/
theorem shift (h : l.Pooled ds) (hs : Shift l ds d new w l' ds') (hready : ∀ d ∈ ds, d.Ready l) :
    l'.Pooled ds' := by
  have hcount : ds'.countP (·.carries) + d.toList.countP (·.carries) =
      ds.countP (·.carries) + new.countP (·.carries) := by
    have := congrArg (Multiset.countP (·.carries)) hs.balance
    simp only [Multiset.countP_add, Multiset.coe_countP, List.countP_append,
      Bool.decide_eq_true] at this
    rw [this]
    cases w <;> rfl
  have hmem := hs.mem
  have others (hnew : ∀ d ∈ new, d.carries = false) : new.countP (·.carries) = 0 :=
    List.countP_eq_zero.2 fun d hd => by simp [hnew d hd]
  cases hs.event with
  | plain d | know d => exact h.of_same rfl rfl rfl (Nat.add_right_cancel hcount)
  | allocate hpool r id blocking now => exact h.of_allocate hpool rfl hcount
  | stamp depth =>
    exact h.of_same rfl (Table.map_modify_of_eq (fun _ => by rfl) _ _) rfl
      (Nat.add_right_cancel hcount)
  | append hx hst hlist slot =>
    refine h.of_append hst (fun _ => by rfl) (hcount.trans ?_)
    split <;> rfl
  | free who =>
    obtain ⟨x, hx, -, hfreed⟩ := hready _ (hmem _ rfl)
    exact h.of_free hx hfreed who hcount
  | ring hd hx hawaited | close hd hx hawaited =>
    refine h.of_same rfl (Table.map_modify_of_eq (fun _ => by rfl) _ _) rfl ?_
    rcases hd with rfl | rfl <;> exact hcount
  | disable henabled | rouse | nudge hp =>
    rw [others (by grind [Duty.carries])] at hcount
    exact h.of_same rfl rfl rfl hcount
  | drain hst hfree hlist hempty htasks =>
    rw [countP_carries_discard] at hcount
    exact h.of_same rfl htasks.freed_eq (Table.map_modify_of_getElem? hst rfl) hcount
  | fetch hp hst hlist htasks | clean hp hst hlist htasks ha =>
    rw [List.countP_append, countP_carries_discard] at hcount
    exact h.of_same rfl htasks.freed_eq (Table.map_modify_of_getElem? hst rfl) hcount
  | _ =>
    -- What is left changes the lock of a queue, or fields of tasks that do not count.
    refine h.of_same rfl ?_ ?_ hcount
    all_goals first
      | rfl
      | exact Table.map_modify_of_eq (fun _ => by rfl) _ _

/-- The peak is raised by an allocation that needs it, and by nothing else. -/
theorem peakLive_shift (h : l.Pooled ds) (he : Event l d new w l') :
    l'.pool.peakLive = max l.pool.peakLive l'.pool.live := by
  have hpeak := h.peak
  have same (hpool : l'.pool = l.pool) : l'.pool.peakLive = max l.pool.peakLive l'.pool.live := by
    rw [hpool, Nat.max_eq_left hpeak]
  cases he with
  | allocate hpool r id blocking now =>
    obtain ⟨-, -, -, -, hlive, hpeak⟩ := TaskPool.allocate_eq_some hpool
    rw [hlive, hpeak]
  | free who =>
    obtain ⟨-, -, -, hlive, hpeak'⟩ := l.pool.free_eq who
    dsimp only
    rw [hlive, hpeak', Nat.max_eq_left (by omega)]
  | _ => exact same rfl

theorem capacity_shift (he : Event l d new w l') : l'.pool.capacity = l.pool.capacity := by
  cases he with
  | allocate hpool r id blocking now => exact (TaskPool.allocate_eq_some hpool).2.1
  | free who => exact (l.pool.free_eq who).1
  | _ => rfl

end Ledger.Pooled

namespace System

variable {s first : System} {b : Broker}

/-- The account of tasks of a system agrees with its tasks, and with what its threads have to do. -/
def Pooled (s : System) : Prop := s.ledger.Pooled s.duties

theorem Pooled.move (h : s.Pooled) (hs : s.Lawful) (m : Move) : (s.move m).Pooled := by
  obtain ⟨_, _, _, hshift⟩ := hs.shift_move m
  exact Ledger.Pooled.shift h hshift hs.ready

theorem Pooled.peakLive_move (h : s.Pooled) (hs : s.Lawful) (m : Move) :
    (s.move m).broker.pool.peakLive = max s.broker.pool.peakLive (s.move m).broker.pool.live := by
  obtain ⟨_, _, _, hshift⟩ := hs.shift_move m
  exact Ledger.Pooled.peakLive_shift h hshift.event

theorem Lawful.capacity_move (hs : s.Lawful) (m : Move) :
    (s.move m).broker.pool.capacity = s.broker.pool.capacity := by
  obtain ⟨_, _, _, hshift⟩ := hs.shift_move m
  exact Ledger.Pooled.capacity_shift hshift.event

/-- The account starts in agreement. -/
theorem pooled_launch {config : Config} {parts : Broker.Parts}
    (h : Broker.assemble config parts = .ok b) : (launch b).Pooled := by
  have hadded : (launch b).ledger.stocks.total (·.added) = 0 := by
    refine Table.total_eq_zero_iff.2 fun u st hst => ?_
    rw [ledger_launch, Broker.getElem?_stocks, Option.map_eq_some_iff] at hst
    obtain ⟨x, hx, rfl⟩ := hst
    obtain ⟨tier, hqueue⟩ := Broker.queue_of_assemble h x (Table.mem_toList_iff.2 ⟨u, hx⟩)
    rw [hqueue]
    rfl
  obtain ⟨units, -, rfl⟩ := Broker.exists_of_assemble h
  refine ⟨rfl, rfl, Nat.zero_le _, Nat.le_refl _, ?_⟩
  rw [hadded]
  rfl

/-- The account agrees in every state that a system can get into. -/
theorem Reachable.pooled {config : Config} {parts : Broker.Parts}
    (hb : Broker.assemble config parts = .ok b) (h : Reachable (launch b) s) : s.Pooled := by
  induction h with
  | first => exact pooled_launch hb
  | move m hr ih => exact ih.move (hr.lawful (Broker.fresh_assemble hb)) m

end System

end JitBroker
