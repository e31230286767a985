import JitBroker.Proofs.Rest.Order

/-!
# Bells, locks and starts

What a thread waits for is a bell, a lock, a back-end that another thread starts, or the last guard
of the pause gate. The steps that move these are few:

* the bell of a queue rings whenever the queue gains a task (`CompileQueue.Follows`);
* the bell of the gate rings whenever the last guard is dropped (`PauseGate.Follows`);
* a back-end begins and ends to start by a step of a worker (`WorkerStep.start_turn`);
* the lock of the crews is taken and given back by those who hire (`CrewStep.stirs`).

All others leave this part of the broker alone, or ring a bell (`Broker.Stirs`).
-/

namespace JitBroker

/-! ### Bells -/

/-- A queue has rung its bell, or it has gained no task. -/
def CompileQueue.Follows (q q' : CompileQueue) : Prop :=
  q.bell < q'.bell ∨ q'.bell = q.bell ∧ q'.list.toList ⊆ q.list.toList

/-- A gate has rung its bell, or it has still a guard if it had one. -/
def PauseGate.Follows (g g' : PauseGate) : Prop :=
  g.bell < g'.bell ∨ g'.bell = g.bell ∧ (0 < g.guards → 0 < g'.guards)

theorem CompileQueue.Follows.refl (q : CompileQueue) : q.Follows q := .inr ⟨rfl, fun _ h => h⟩

theorem CompileQueue.Follows.trans {q q' q'' : CompileQueue} (h : q.Follows q')
    (h' : q'.Follows q'') : q.Follows q'' := by
  rcases h with h | ⟨heq, hsub⟩ <;> rcases h' with h' | ⟨heq', hsub'⟩
  · exact .inl (h.trans h')
  · exact .inl (heq' ▸ h)
  · exact .inl (heq ▸ h')
  · exact .inr ⟨heq'.trans heq, fun t ht => hsub (hsub' ht)⟩

theorem PauseGate.Follows.refl (g : PauseGate) : g.Follows g := .inr ⟨rfl, id⟩

/-- Taking tasks off a queue rings no bell. -/
theorem CompileQueue.follows_unlinkAll {q q' : CompileQueue} {slots : List Nat} {ts : List TaskId}
    (hq : q.list.Sound) (h : q.unlinkAll? slots = some (ts, q')) :
    q.Follows q' ∧ q'.list.Sound ∧ q'.selector = q.selector := by
  obtain ⟨es, hes⟩ := hq
  obtain ⟨hsheds, -, heq⟩ := unlinkAll?_sheds hes h
  refine ⟨.inr ⟨by rw [heq], fun t ht => hsheds.perm.symm.subset (List.mem_append_right _ ht)⟩, ?_⟩
  exact ⟨hsheds.sound, by rw [heq]⟩

/-! ### Steps -/

/-- What threads look at in a unit while they wait, and the policy of its queue. -/
def TierUnit.front (x : TierUnit) : InitState × Nat × TaskList × Selector × List WorkerId :=
  (x.init, x.queue.bell, x.queue.list, x.queue.selector, x.crew.live)

/-- A unit after a step, if it had a worker has one still, and its queue has rung its bell if it has
gained a task, and has the policy that it had. -/
structure TierUnit.Follows (x x' : TierUnit) : Prop where
  /-- The queue rings its bell. -/
  queue : x.queue.Follows x'.queue
  /-- It keeps its policy. -/
  selector : x'.queue.selector = x.queue.selector
  /-- Some worker stays. -/
  crew : x.crew.live ≠ [] → x'.crew.live ≠ []

theorem TierUnit.Follows.refl (x : TierUnit) : x.Follows x := ⟨.refl _, rfl, id⟩

theorem TierUnit.Follows.trans {x x' x'' : TierUnit} (h : x.Follows x') (h' : x'.Follows x'') :
    x.Follows x'' :=
  ⟨h.queue.trans h'.queue, h'.selector.trans h.selector, h'.crew ∘ h.crew⟩

/-- What becomes of what threads wait for: bells ring as they have to, and nothing else happens. -/
structure Broker.Stirs (b b' : Broker) : Prop where
  /-- Units follow, and no back-end begins or ends to start. -/
  unit : ∀ {u : UnitId} {x : TierUnit}, b.units[u]? = some x →
    ∃ x', b'.units[u]? = some x' ∧ x.Follows x' ∧ x'.init = x.init
  /-- The lock of the crews stays as it is. -/
  crewLock : b'.crewLock = b.crewLock
  /-- The broker is started, or it is not. -/
  initialized : b'.initialized = b.initialized
  /-- A gate that loses its last guard rings its bell. -/
  gate : b.gate.Follows b'.gate

namespace Broker

variable {b b' b'' : Broker}

theorem Stirs.refl (b : Broker) : b.Stirs b where
  unit h := ⟨_, h, .refl _, rfl⟩
  crewLock := rfl
  initialized := rfl
  gate := .refl _

theorem Stirs.trans (h : b.Stirs b') (h' : b'.Stirs b'') : b.Stirs b'' where
  unit hu := by
    obtain ⟨x', hu', hqueue, hinit⟩ := h.unit hu
    obtain ⟨x'', hu'', hqueue', hinit'⟩ := h'.unit hu'
    exact ⟨x'', hu'', hqueue.trans hqueue', hinit'.trans hinit⟩
  crewLock := h'.crewLock.trans h.crewLock
  initialized := h'.initialized.trans h.initialized
  gate := by
    rcases h.gate with h | ⟨heq, hguards⟩ <;> rcases h'.gate with h' | ⟨heq', hguards'⟩
    · exact .inl (h.trans h')
    · exact .inl (heq' ▸ h)
    · exact .inl (heq ▸ h')
    · exact .inr ⟨heq'.trans heq, fun hpos => hguards' (hguards hpos)⟩

/-- Each unit after it is one from before. -/
theorem Stirs.exists_unit (h : b.Stirs b') (hsize : b'.units.size = b.units.size) {u : UnitId}
    {x' : TierUnit} (hx' : b'.units[u]? = some x') :
    ∃ x, b.units[u]? = some x ∧ x.Follows x' ∧ x'.init = x.init := by
  obtain ⟨x, hx⟩ := Table.exists_getElem? (hsize ▸ Table.lt_size_of_getElem? hx')
  obtain ⟨y, hy, hfollows⟩ := h.unit hx
  exact ⟨x, hx, Option.some.inj (hx'.symm.trans hy) ▸ hfollows⟩

/-- Most steps leave all of it as it is. -/
theorem Stirs.of_front (hunits : b'.units.map TierUnit.front = b.units.map TierUnit.front)
    (hcrew : b'.crewLock = b.crewLock) (hinit : b'.initialized = b.initialized)
    (hgate : b'.gate = b.gate) : b.Stirs b' where
  unit {u x} hu := by
    have hfront := congrArg (fun t : Table _ => t[u]?) hunits
    simp only [Table.getElem?_map, hu, Option.map_some, Option.map_eq_some_iff] at hfront
    obtain ⟨x', hu', hx'⟩ := hfront
    simp only [TierUnit.front, Prod.mk.injEq] at hx'
    obtain ⟨hinit, hbell, hlist, hselector, hlive⟩ := hx'
    have hqueue : x.queue.Follows x'.queue := .inr ⟨hbell, by rw [hlist]; exact fun _ h => h⟩
    exact ⟨x', hu', ⟨hqueue, hselector, hlive ▸ id⟩, hinit⟩
  crewLock := hcrew
  initialized := hinit
  gate := hgate ▸ .refl _

theorem Stirs.of_units (hunits : b'.units = b.units) (hcrew : b'.crewLock = b.crewLock)
    (hinit : b'.initialized = b.initialized) (hgate : b'.gate = b.gate) : b.Stirs b' :=
  .of_front (congrArg _ hunits) hcrew hinit hgate

/-- A change that is seen in the records of tasks only stirs nothing. -/
theorem Stirs.of_tasks {tasks : Table Task} (h : b'' = { b' with tasks := tasks })
    (hb : b.Stirs b') : b.Stirs b'' := by
  subst h
  exact ⟨hb.unit, hb.crewLock, hb.initialized, hb.gate⟩

/-- A unit may be changed as it has to. -/
theorem stirs_modifyUnit {u : UnitId} {unit : TierUnit} {f : TierUnit → TierUnit}
    (hu : b.units[u]? = some unit) (hf : unit.Follows (f unit))
    (hinit : (f unit).init = unit.init) : b.Stirs (b.modifyUnit u f) where
  unit {u' x} hx := by
    rw [modifyUnit, Table.getElem?_modify]
    split
    · rename_i heq
      subst heq
      obtain rfl := Option.some.inj (hx.symm.trans hu)
      exact ⟨f x, by rw [hx]; rfl, hf, hinit⟩
    · exact ⟨x, hx, .refl _, rfl⟩
  crewLock := rfl
  initialized := rfl
  gate := .refl _

theorem stirs_modifyQueue {u : UnitId} {unit : TierUnit} {f : CompileQueue → CompileQueue}
    (hu : b.units[u]? = some unit) (hf : unit.queue.Follows (f unit.queue))
    (hselector : (f unit.queue).selector = unit.queue.selector) :
    b.Stirs (b.modifyQueue u f) := stirs_modifyUnit hu ⟨hf, hselector, id⟩ rfl

theorem stirs_modifyCrew {u : UnitId} {unit : TierUnit} {f : Crew → Crew}
    (hu : b.units[u]? = some unit) (hf : (f unit.crew).live ≠ []) :
    b.Stirs (b.modifyCrew u f) := stirs_modifyUnit hu ⟨.refl _, rfl, fun _ => hf⟩ rfl

/-- A worker may be hired. -/
theorem stirs_hire {u : UnitId} {unit : TierUnit} (hu : b.units[u]? = some unit) :
    b.Stirs (b.hire u unit) :=
  ⟨(stirs_modifyCrew (f := fun c => c.publish (c.live ++ [b.workers.size])) hu
    (List.append_ne_nil_of_right_ne_nil _ (List.cons_ne_nil _ _))).unit, rfl, rfl, .refl _⟩

/-- A worker that retires leaves others in its crew. -/
theorem stirs_retireLast {u : UnitId} {unit : TierUnit} {w : WorkerId} {worker : Worker}
    (hu : b.units[u]? = some unit) (h : b.mayRetire w worker unit = true) :
    b.Stirs (b.retireLast u w) := by
  have hlive : (unit.crew.publish unit.crew.live.dropLast).live ≠ [] := by
    simp only [mayRetire, Bool.and_eq_true, decide_eq_true_eq] at h
    refine List.ne_nil_of_length_pos ?_
    simp only [Crew.publish, List.length_dropLast]
    omega
  have hcrew := stirs_modifyCrew (f := fun c => c.publish c.live.dropLast) hu hlive
  exact ⟨hcrew.unit, rfl, rfl, .refl _⟩

theorem stirs_giveBack (b : Broker) (u : UnitId) :
    b.Stirs (b.modifyQueue u CompileQueue.giveBack) :=
  .of_front (Table.map_modify_of_eq (fun _ => by rfl) _ _) rfl rfl rfl

theorem stirs_drain {u : UnitId} {unit : TierUnit} {ts : List TaskId}
    (hu : b.units[u]? = some unit) (hq : unit.queue.list.Sound)
    (h : b.drain? u unit.queue = some (ts, b')) : b.Stirs b' := by
  simp only [drain?, Option.bind_eq_bind, Option.bind_eq_some_iff, Option.pure_def,
    Option.some.injEq, Prod.mk.injEq] at h
  obtain ⟨⟨ts, q'⟩, hq', rfl, rfl⟩ := h
  obtain ⟨hfollows, -, hselector⟩ := CompileQueue.follows_unlinkAll hq hq'
  have hring : unit.queue.Follows q'.ring := hfollows.trans (.inl (Nat.lt_succ_self _))
  exact .of_tasks (Withdrawn.foldl (fun b t => ⟨rfl, .ofStale b.tasks t (·.unloaded)⟩) ts _).1
    (stirs_modifyQueue hu hring hselector)

theorem stirs_select {u : UnitId} {unit : TierUnit} {chosen : Option TaskId} {stale : List TaskId}
    (hu : b.units[u]? = some unit) (hq : unit.queue.list.Sound)
    (h : b.select? u unit.queue = some (chosen, stale, b')) : b.Stirs b' := by
  simp only [select?, Option.bind_eq_bind, Option.bind_eq_some_iff, Option.pure_def,
    Option.some.injEq, Prod.mk.injEq] at h
  obtain ⟨⟨stale, q₁⟩, h₁, ⟨ts, q₂⟩, h₂, -, rfl, rfl⟩ := h
  obtain ⟨hfollows₁, hq₁, hselector₁⟩ := CompileQueue.follows_unlinkAll hq h₁
  obtain ⟨hfollows₂, -, hselector₂⟩ := CompileQueue.follows_unlinkAll hq₁ h₂
  have htake (ts : List TaskId) (b : Broker) :
      b.Stirs (ts.foldl (fun b t => b.modifyTask t fun x => { x with slot := none }) b) := by
    induction ts generalizing b with
    | nil => exact .refl b
    | cons t ts ih => exact (Stirs.of_tasks rfl (.refl b)).trans (ih _)
  refine .trans ?_ (htake ts _)
  exact .of_tasks (Withdrawn.foldl setStale_withdrawn stale _).1
    (stirs_modifyQueue hu (hfollows₁.trans hfollows₂) (hselector₂.trans hselector₁))

/-- What is done from outside rings the bell of the gate when it drops the last guard. -/
theorem stirs_operate (b : Broker) (o : Operation) : b.Stirs (b.operate o) := by
  cases o with
  | pause => exact ⟨(Stirs.refl b).unit, rfl, rfl, .inr ⟨rfl, fun _ => Nat.succ_pos _⟩⟩
  | unpause =>
    rw [operate]
    split
    · exact .refl b
    · refine ⟨(Stirs.refl b).unit, rfl, rfl, ?_⟩
      simp only [PauseGate.release]
      split
      · exact .inl (Nat.lt_succ_self _)
      · exact .inr ⟨rfl, fun _ => by simp only; omega⟩
  | pushDirectives sets =>
    rw [operate]
    split <;> exact .of_units rfl rfl rfl rfl
  | _ => exact .of_units rfl rfl rfl rfl

/-- The broker after a turn that is given in full. -/
theorem Stirs.of_some {turn turn' : Turn} (h : some turn' = some turn)
    (hb : b.Stirs turn'.broker) : b.Stirs turn.broker := by
  obtain rfl := Option.some.inj h
  exact hb

end Broker

variable {me : Caller} {ch : Choices} {b b' : Broker} {turn : Turn}

namespace RequestStep

variable {s : RequestStep} {q : Inquiry} {t : TaskId} {x : Task}

theorem leave_stirs {gaveUp : Bool} (h : leave b' q t x gaveUp = some turn) (hb : b.Stirs b') :
    b.Stirs turn.broker := by
  unfold leave at h
  split at h <;> exact .of_some h (.of_tasks rfl hb)

theorem wakeUp_stirs {watch : Option Watch} (h : wakeUp b ch q t x watch = some turn) :
    b.Stirs turn.broker := by
  unfold wakeUp at h
  repeat' split at h
  all_goals first
    | exact leave_stirs h (.refl b)
    | exact .of_some h (.refl b)

/-- A request rings the bell of the queue to which it brings a task. -/
theorem stirs (h : s.run me ch b = some turn) : b.Stirs turn.broker := by
  cases s with
  | append q t =>
    rw [run] at h
    split at h
    · rename_i unit x hunit hx
      have hpush : unit.queue.Follows (unit.queue.push t).2.giveBack :=
        .inl (Nat.lt_succ_self unit.queue.bell)
      have hb :=
        Broker.stirs_modifyQueue (f := fun _ => (unit.queue.push t).2.giveBack) hunit hpush rfl
      split at h
      · exact .of_some h (.refl b)
      · simp only at h
        split at h <;> exact .of_some h (.of_tasks rfl hb)
    · exact .of_some h (.refl b)
  | _ =>
    rw [run] at h
    (try simp only at h)
    repeat' split at h
    all_goals first
      | exact .of_some h (.of_units rfl rfl rfl rfl)
      | exact .of_some h (.of_front (Table.map_modify_of_eq (fun _ => by rfl) _ _) rfl rfl rfl)
      | exact wakeUp_stirs h
      | exact leave_stirs h (.of_tasks rfl (.refl b))
      | cases h

end RequestStep

theorem TaskStep.stirs {s : TaskStep} (h : s.run b = some turn) : b.Stirs turn.broker := by
  cases s <;> rw [run] at h <;> (try simp only at h) <;> repeat' split at h
  all_goals exact .of_some h (.of_units rfl rfl rfl rfl)

/-- A step of control rings the bells of queues. -/
theorem ControlStep.stirs {s : ControlStep} (hsound : b.ledger.Sound) (h : s.run me b = some turn) :
    b.Stirs turn.broker := by
  cases s with
  | drain u =>
    rw [run] at h
    split at h
    · exact .of_some h (.refl b)
    · rename_i unit hu
      have hstock : b.ledger.stocks[u]? = some unit.queue.stock := by simp [hu]
      repeat' split at h
      all_goals first
        | exact .of_some h (Broker.stirs_drain hu (hsound.list hstock) ‹_›)
        | exact .of_some h (.refl b)
        | cases h
  | ring u =>
    rw [run] at h
    split at h
    · exact .of_some h (.refl b)
    · rename_i unit hu
      split at h
      · exact .of_some h (Broker.stirs_modifyQueue hu (.inl (Nat.lt_succ_self _)) rfl)
      · cases h
  | detach d =>
    have hb : b.Stirs (b.detach d).2 := by
      unfold Broker.detach
      split <;> exact .of_units rfl rfl rfl rfl
    rw [run] at h
    split at h
    all_goals
      rename_i heq
      rw [heq] at hb
      exact .of_some h hb
  | accept on =>
    obtain rfl := Option.some.inj h
    cases on <;>
      simp only [Broker.accept, Broker.moveJobs, Bool.false_eq_true, if_true, if_false] <;>
      split <;> exact .of_units rfl rfl rfl rfl
  | again ds summary =>
    cases ds with
    | nil => exact .of_some h (.refl b)
    | cons d ds =>
      rw [run] at h
      repeat' split at h
      all_goals exact .of_some h (.refl b)
  | _ =>
    rw [run] at h
    repeat' split at h
    all_goals first
      | exact .of_some h (.of_units rfl rfl rfl rfl)
      | cases h

/-- A worker that parks and goes on leaves the guards to others. -/
theorem GateStep.stirs {s : GateStep} (h : s.run b = some turn) :
    b.Stirs turn.broker ∧ turn.broker.gate.bell = b.gate.bell ∧
      ∀ bell, .gate (.parked bell) ∈ turn.next →
        bell = b.gate.bell ∧ 0 < turn.broker.gate.guards := by
  cases s with
  | poll =>
    obtain rfl := Option.some.inj h
    refine ⟨.refl b, rfl, fun bell hbell => ?_⟩
    simp only at hbell
    split at hbell <;> simp at hbell
  | park =>
    rw [run] at h
    split at h
    · obtain rfl := Option.some.inj h
      exact ⟨.refl b, rfl, fun bell hbell => absurd hbell List.not_mem_nil⟩
    · obtain rfl := Option.some.inj h
      refine ⟨⟨(Broker.Stirs.refl b).unit, rfl, rfl, .inr ⟨rfl, id⟩⟩, rfl, fun bell hbell => ?_⟩
      obtain ⟨⟩ := List.mem_singleton.1 hbell
      exact ⟨rfl, Nat.pos_of_ne_zero ‹_›⟩
  | parked bell' =>
    rw [run] at h
    repeat' split at h
    · cases h
    · obtain rfl := Option.some.inj h
      exact ⟨⟨(Broker.Stirs.refl b).unit, rfl, rfl, .inr ⟨rfl, id⟩⟩, rfl,
        fun bell hbell => absurd hbell List.not_mem_nil⟩
    · obtain rfl := Option.some.inj h
      refine ⟨.refl b, rfl, fun bell hbell => ?_⟩
      obtain ⟨⟩ := List.mem_singleton.1 hbell
      exact ⟨rfl, Nat.pos_of_ne_zero ‹_›⟩

namespace CrewStep

/-- Those who hire take the lock of the crews and give it back. -/
theorem stirs {s : CrewStep} (hunits : ∀ u ∈ (Action.crew s).units, u < b.units.size)
    (h : s.run me ch b = some turn) :
    b.Stirs { turn.broker with crewLock := b.crewLock, initialized := b.initialized } ∧
      (turn.broker.crewLock.isSome = true →
        b.crewLock.isSome = true ∧ s.isLocked = false ∨
          ∃ s', .crew s' ∈ turn.next ∧ s'.isLocked = true) ∧
      (turn.broker.initialized = b.initialized ∨
        s = .open ∧ turn.broker.initialized = true) := by
  rcases s with u | ⟨u, n⟩ | ⟨u, n, k⟩ | ⟨u, n⟩ | ⟨u, n⟩ | (_ | ⟨u, us⟩) | ⟨u, _ | n, us⟩ | _ <;>
    rw [run] at h <;> (try simp only at h) <;> repeat' split at h
  all_goals first
    | exact absurd (hunits _ List.mem_cons_self)
        (Nat.not_lt.2 ((Table.getElem?_eq_none_iff _ _).1 ‹_›))
    | cases h
  all_goals
    refine ⟨?_, ?_, ?_⟩
    · first
        | exact .of_units rfl rfl rfl rfl
        | exact ⟨(Broker.stirs_hire ‹_›).unit, rfl, rfl, .refl _⟩
    · first
        | exact fun hlock => .inl ⟨hlock, rfl⟩
        | exact fun _ => .inr ⟨_, List.mem_singleton_self _, rfl⟩
        | exact fun hlock => absurd hlock Bool.false_ne_true
    · first
        | exact .inl rfl
        | exact .inr ⟨rfl, rfl⟩

end CrewStep

/-- Whether a worker that is at this action sleeps, or is parked. -/
def Action.dozes : Action → Bool
  | .worker _ (.asleep _ _) | .gate (.parked _) => true
  | _ => false

theorem Action.all_stale (ts : List TaskId) : (ts.flatMap Action.stale).all (!·.dozes) = true := by
  refine List.all_eq_true.2 fun a ha => ?_
  obtain ⟨t, -, ha⟩ := List.mem_flatMap.1 ha
  obtain ⟨s, -, rfl⟩ := List.mem_map.1 ha
  rfl

namespace WorkerStep

variable {w : WorkerId} {worker : Worker} {unit : TierUnit} {s : WorkerStep} {c : CompileRun}

/-- What a back-end does may ring the bell of the gate. -/
theorem obey_stirs {task : Task} {move : BackendMove} (h : obey b w c task unit move = some turn) :
    b.Stirs turn.broker ∧ turn.next.all (!·.dozes) = true := by
  cases move with
  | operate o =>
    obtain rfl := Option.some.inj h
    exact ⟨b.stirs_operate o, rfl⟩
  | call call =>
    obtain rfl := Option.some.inj h
    exact ⟨.refl b, by cases call <;> rfl⟩
  | _ =>
    rw [obey] at h
    repeat' split at h
    all_goals
      obtain rfl := Option.some.inj h
      exact ⟨.of_units rfl rfl rfl rfl, rfl⟩

/-- A worker that chooses a task rings no bell. -/
theorem choose_stirs (hu : b.units[worker.unit]? = some unit) (hsound : b.ledger.Sound)
    (h : run me ch b w worker unit .choose = some turn) :
    b.Stirs turn.broker ∧ turn.next.all (!·.dozes) = true := by
  have hstock : b.ledger.stocks[worker.unit]? = some unit.queue.stock := by simp [hu]
  rw [run] at h
  split at h
  · obtain rfl := Option.some.inj h
    exact ⟨b.stirs_giveBack _, rfl⟩
  · split at h
    · obtain rfl := Option.some.inj h
      exact ⟨.refl b, rfl⟩
    · rename_i chosen stale b' hselect
      have hb := Broker.stirs_select hu (hsound.list hstock) hselect
      have hunlock := hb.trans (b'.stirs_giveBack worker.unit)
      split at h
      · cases chosen <;> obtain rfl := Option.some.inj h
        · exact ⟨hb, rfl⟩
        · exact ⟨hunlock, rfl⟩
      · obtain rfl := Option.some.inj h
        refine ⟨hunlock, ?_⟩
        rw [List.all_append, Action.all_stale]
        cases chosen <;> rfl

/-- A worker that does not start the back-end rings no bell but by what the back-end does, and does
not fall asleep before it has seen its queue empty. -/
theorem stirs (hu : b.units[worker.unit]? = some unit) (hsound : b.ledger.Sound)
    (h : s.run me ch b w worker unit = some turn) (hs : s ≠ .start) (hs' : s ≠ .starting) :
    b.Stirs turn.broker ∧ (s ≠ .lookEmpty → turn.next.all (!·.dozes) = true) := by
  cases s with
  | start => exact absurd rfl hs
  | starting => exact absurd rfl hs'
  | compile c =>
    rw [run] at h
    split at h
    · obtain rfl := Option.some.inj h
      exact ⟨.refl b, fun _ => rfl⟩
    · cases h
    · exact ⟨(obey_stirs h).1, fun _ => (obey_stirs h).2⟩
  | choose => exact ⟨(choose_stirs hu hsound h).1, fun _ => (choose_stirs hu hsound h).2⟩
  | lookEmpty =>
    refine ⟨?_, fun hne => absurd rfl hne⟩
    rw [run] at h
    split at h
    · exact .of_some h (b.stirs_giveBack _)
    · exact .of_some h (.refl b)
  | retire =>
    rw [run] at h
    repeat' split at h
    all_goals first
      | cases h
    · exact ⟨Broker.stirs_retireLast hu ‹_›, fun _ => rfl⟩
    all_goals exact ⟨.refl b, fun _ => rfl⟩
  | judge c =>
    obtain rfl := Option.some.inj h
    refine ⟨.refl b, fun _ => ?_⟩
    cases c.report.cacheFull <;> rfl
  | settle =>
    obtain rfl := Option.some.inj h
    refine ⟨.of_units rfl rfl rfl rfl, fun _ => ?_⟩
    split <;> rfl
  | _ =>
    rw [run] at h
    (try simp only at h)
    repeat' split at h
    all_goals first
      | cases h
    all_goals first
      | exact ⟨.of_units rfl rfl rfl rfl, fun _ => rfl⟩
      | exact ⟨.of_front (Table.map_modify_of_eq (fun _ => by rfl) _ _) rfl rfl rfl, fun _ => rfl⟩

/-- A worker that falls asleep has heard all bells of its queue, which has no task. -/
theorem lookEmpty_asleep {bell due : Nat} (hu : b.units[worker.unit]? = some unit)
    (h : run me ch b w worker unit .lookEmpty = some turn)
    (ha : .worker w (.asleep bell due) ∈ turn.next) :
    ∃ unit', turn.broker.units[worker.unit]? = some unit' ∧ unit'.queue.bell = bell ∧
      unit'.queue.list = unit.queue.list ∧ unit.queue.list.isEmpty = true := by
  rw [run] at h
  split at h
  · rename_i hempty
    obtain rfl := Option.some.inj h
    obtain ⟨⟩ := List.mem_singleton.1 ha
    exact ⟨_, Table.getElem?_modify_self hu _, rfl, rfl, hempty⟩
  · obtain rfl := Option.some.inj h
    cases List.mem_singleton.1 ha

/-! #### The start of a back-end -/

/-- A worker that starts the back-end, or waits for it. -/
theorem start_turn (h : run me ch b w worker unit .start = some turn) :
    turn.broker = b ∧ turn.next.all (!·.dozes) = true ∨ unit.init = .pending ∧
      turn.next = [.worker w .starting] ∧
      turn.broker = b.modifyUnit worker.unit fun x => { x with init := .running } := by
  rw [run] at h
  split at h
  · rename_i hinit
    obtain rfl := Option.some.inj h
    exact .inr ⟨hinit, rfl, rfl⟩
  · cases h
  · obtain rfl := Option.some.inj h
    exact .inl ⟨rfl, rfl⟩
  · obtain rfl := Option.some.inj h
    exact .inl ⟨rfl, rfl⟩

/-- A back-end that has started, or failed to, is not starting any more. -/
theorem starting_turn (h : run me ch b w worker unit .starting = some turn) :
    turn.next.all (!·.dozes) = true ∧ ∃ init : InitState, init ≠ .running ∧
      turn.broker = b.modifyUnit worker.unit fun x => { x with init := init } := by
  rw [run] at h
  split at h
  · cases h
  · obtain rfl := Option.some.inj h
    exact ⟨rfl, .ready, by decide, rfl⟩
  · obtain rfl := Option.some.inj h
    exact ⟨rfl, .failed _, fun h => InitState.noConfusion h, rfl⟩

end WorkerStep

end JitBroker
