import JitBroker.Proofs.Setting

/-!
# What fewer steps change

The crews and who their workers are, the numbers drawn, the pause gate, the recorder and the events
are the *fittings* of a broker. Almost every step leaves all of them alone (`Broker.Fitted`). The
others are listed here once, each with all that it does (`Turn.Refits`):

* a number is drawn by a request that has claimed its method;
* the recorder takes a record, or gives up its records to a replay;
* workers park at the gate, and go on;
* crews gain a worker by hiring and lose one by retirement;
* an event is posted at the end of a compile;
* a back-end may do an operation, which can concern each of them but the crews and the events.

`Action.refits` says that there are no others, and `Broker.operate_operated` what the operations do.
-/

namespace JitBroker

/-! ### Fittings -/

/-- What a worker is from the time it is hired. -/
structure Badge where
  /-- Its unit. -/
  unit : UnitId
  /-- Its tier. -/
  tier : Tier
  /-- Its position in the crew. -/
  index : Nat
  /-- The name of its thread. -/
  name : String
  deriving DecidableEq

/-- The badge of a worker. -/
def Worker.badge (w : Worker) : Badge := ⟨w.unit, w.tier, w.index, w.name⟩

/-- The crew of a unit, and the family of its back-end. -/
def TierUnit.roster (x : TierUnit) : CompilerKind × Crew := (x.kind, x.crew)

/-- A broker with the same fittings. -/
structure Broker.Fitted (b b' : Broker) : Prop where
  /-- The crews are the same. -/
  crews : b'.units.map TierUnit.roster = b.units.map TierUnit.roster
  /-- So are the workers. -/
  badges : b'.workers.map Worker.badge = b.workers.map Worker.badge
  /-- The same methods are native. -/
  natives : b'.methods.map (·.isNative) = b.methods.map (·.isNative)
  /-- The same numbers are drawn. -/
  ids : b'.ids = b.ids
  /-- The gate is the same. -/
  gate : b'.gate = b.gate
  /-- The recorder is the same. -/
  recorder : b'.recorder = b.recorder
  /-- The same events are posted. -/
  events : b'.stats.events = b.stats.events

namespace Method

@[simp] theorem isNative_prohibit (m : Method) (osr : Bool) (tier : Tier) :
    (m.prohibit osr tier).isNative = m.isNative := by
  unfold prohibit
  split <;> rfl

@[simp] theorem isNative_linkNative (m : Method) : m.linkNative.2.isNative = m.isNative := by
  unfold linkNative
  split <;> rfl

@[simp] theorem isNative_install (m : Method) (c : InstalledCode) :
    (m.install c).isNative = m.isNative := by
  unfold install
  split <;> rfl

@[simp] theorem isNative_afterFailure (m : Method) (osr : Bool) (tier : Tier)
    (scope : Option FailureScope) : (m.afterFailure osr tier scope).isNative = m.isNative := by
  unfold afterFailure
  split <;> simp [prohibitAll]

@[simp] theorem isNative_detach (m : Method) (bci : Int) (tier : Tier) :
    (m.detach bci tier).2.isNative = m.isNative := by
  unfold detach
  repeat' split
  all_goals rfl

end Method

@[simp] theorem Statistics.events_record (s : Statistics) (t : Task) (m : Method) (r : TaskResult)
    (invalidated : Bool) (elapsed : Nat) : (s.record t m r invalidated elapsed).events = s.events := by
  simp only [record]
  split <;> rfl

namespace Broker

variable {b b' b'' : Broker}

theorem Fitted.refl (b : Broker) : b.Fitted b := ⟨rfl, rfl, rfl, rfl, rfl, rfl, rfl⟩

theorem Fitted.trans (h : b.Fitted b') (h' : b'.Fitted b'') : b.Fitted b'' where
  crews := h'.crews.trans h.crews
  badges := h'.badges.trans h.badges
  natives := h'.natives.trans h.natives
  ids := h'.ids.trans h.ids
  gate := h'.gate.trans h.gate
  recorder := h'.recorder.trans h.recorder
  events := h'.events.trans h.events

/-- Changing a unit but for its crew keeps the fittings. -/
theorem fitted_modifyUnit (b : Broker) {f : TierUnit → TierUnit} (hf : ∀ x, (f x).roster = x.roster)
    (u : UnitId) : b.Fitted (b.modifyUnit u f) :=
  ⟨Table.map_modify_of_eq hf b.units u, rfl, rfl, rfl, rfl, rfl, rfl⟩

/-- So does a change of a method. -/
theorem fitted_modifyMethod (b : Broker) {f : Method → Method}
    (hf : ∀ x, (f x).isNative = x.isNative) (m : MethodId) : b.Fitted (b.modifyMethod m f) :=
  ⟨rfl, rfl, Table.map_modify_of_eq hf b.methods m, rfl, rfl, rfl, rfl⟩

/-- So does a change of a worker but for its badge. -/
theorem fitted_modifyWorker (b : Broker) {f : Worker → Worker} (hf : ∀ x, (f x).badge = x.badge)
    (w : WorkerId) : b.Fitted (b.modifyWorker w f) :=
  ⟨rfl, Table.map_modify_of_eq hf b.workers w, rfl, rfl, rfl, rfl, rfl⟩

/-- So does a change that is seen in the records of tasks only. -/
theorem Fitted.of_tasks {tasks : Table Task} (h : b'' = { b' with tasks := tasks })
    (hb : b.Fitted b') : b.Fitted b'' := by
  subst h
  exact ⟨hb.crews, hb.badges, hb.natives, hb.ids, hb.gate, hb.recorder, hb.events⟩

theorem Fitted.of_some {turn turn' : Turn} (h : some turn' = some turn)
    (hb : b.Fitted turn'.broker) : b.Fitted turn.broker := by
  obtain rfl := Option.some.inj h
  exact hb

theorem drain_fitted {u : UnitId} {q : CompileQueue} {ts : List TaskId}
    (h : b.drain? u q = some (ts, b')) : b.Fitted b' := by
  simp only [drain?, Option.bind_eq_bind, Option.bind_eq_some_iff, Option.pure_def,
    Option.some.injEq, Prod.mk.injEq] at h
  obtain ⟨⟨ts, q'⟩, -, rfl, rfl⟩ := h
  exact .of_tasks (Withdrawn.foldl (fun b t => ⟨rfl, .ofStale b.tasks t (·.unloaded)⟩) ts _).1
    (b.fitted_modifyUnit (fun _ => by rfl) u)

theorem select_fitted {u : UnitId} {q : CompileQueue} {chosen : Option TaskId}
    {stale : List TaskId} (h : b.select? u q = some (chosen, stale, b')) : b.Fitted b' := by
  simp only [select?, Option.bind_eq_bind, Option.bind_eq_some_iff, Option.pure_def,
    Option.some.injEq, Prod.mk.injEq] at h
  obtain ⟨⟨stale, q₁⟩, -, ⟨ts, q₂⟩, -, -, rfl, rfl⟩ := h
  have htake (ts : List TaskId) (b : Broker) :
      b.Fitted (ts.foldl (fun b t => b.modifyTask t fun x => { x with slot := none }) b) := by
    induction ts generalizing b with
    | nil => exact .refl b
    | cons t ts ih =>
      have hone : b.Fitted (b.modifyTask t fun x => { x with slot := none }) := .of_tasks rfl (.refl b)
      exact hone.trans (ih _)
  refine .trans ?_ (htake ts _)
  exact .of_tasks (Withdrawn.foldl setStale_withdrawn stale _).1
    (b.fitted_modifyUnit (fun _ => by rfl) u)

theorem detach_fitted (b : Broker) (d : Decompilation) : b.Fitted (b.detach d).2 := by
  unfold detach
  split
  · exact b.fitted_modifyMethod (fun _ => by simp) _
  · exact .refl b

end Broker

/-! ### Steps that concern the fittings -/

/-- What a turn in the place of an action does to the fittings. -/
inductive Turn.Refits (ch : Choices) (b : Broker) : Action → Turn → Prop where
  /-- It keeps them. -/
  | keeps {a : Action} {turn : Turn} (h : b.Fitted turn.broker) : Refits ch b a turn
  /-- A request draws a number, and goes on with it if it may compile. -/
  | number {q : Inquiry} {m : Method} {id : UInt32} {s : RequestStep}
    (hm : b.methods[q.request.method]? = some m)
    (hid : id = (b.drawId (m.idKind q.request.bci)).1)
    (hs : s = if b.config.allowsId id then .allocate q id else .exclude q id) :
    Refits ch b (.request (.number q)) {
      broker := (b.drawId (m.idKind q.request.bci)).2
      next := [.request s] }
  /-- A decompilation is recorded. -/
  | record (d : Decompilation) :
    Refits ch b (.control (.record d))
      { broker := { b with recorder := b.recorder.map fun r => (r.record d).2 } }
  /-- A replay closes the window. -/
  | replay {r r' : Recorder} {ds : List Decompilation} (hr : b.recorder = some r)
    (hfinish : r.finish = .ok (ds, r')) :
    Refits ch b (.control .replay)
      { broker := { b with recorder := some r' }, next := [.control (.again ds {})] }
  /-- A worker parks. -/
  | park (h : b.gate.guards ≠ 0) :
    Refits ch b (.gate .park)
      { broker := { b with gate := b.gate.park }, next := [.gate (.parked b.gate.bell)] }
  /-- A worker goes on. -/
  | leave {bell : Nat} (hbell : b.gate.bell ≠ bell) (h : b.gate.guards = 0) :
    Refits ch b (.gate (.parked bell)) { broker := { b with gate := b.gate.leave } }
  /-- A worker retires. -/
  | retire {w : WorkerId} {worker : Worker} {unit : TierUnit} (hw : b.workers[w]? = some worker)
    (hu : b.units[worker.unit]? = some unit) (hasks : b.asksToRetire worker unit = true)
    (hmay : b.mayRetire w worker unit = true) :
    Refits ch b (.worker w .retire)
      { broker := b.retireLast worker.unit w, next := [.worker w .retired] }
  /-- A worker posts an event. -/
  | announce {w : WorkerId} {f : Finished} {task : Task} (ht : b.tasks[f.task]? = some task) :
    Refits ch b (.worker w (.announce f)) {
      broker := { b with stats := b.stats.post (.of task f.result) }
      next := [.worker w (.close f)] }
  /-- A back-end does an operation. -/
  | operate {w : WorkerId} {c : CompileRun} {o : Operation} (h : ch.move = some (.operate o)) :
    Refits ch b (.worker w (.compile c)) { broker := b.operate o, next := [.worker w (.compile c)] }
  /-- A worker is hired. -/
  | hire {u : UnitId} {desired : Nat} {unit : TierUnit} (hu : b.units[u]? = some unit)
    (hroom : unit.crew.live.length < desired) :
    Refits ch b (.crew (.hire u desired)) {
      broker := b.hire u unit
      next := [.crew (.hire u desired)]
      hired := some b.workers.size }
  /-- A worker of a new crew is hired. -/
  | staff {u : UnitId} {n : Nat} {rest : List UnitId} {unit : TierUnit}
    (hu : b.units[u]? = some unit) :
    Refits ch b (.crew (.staff u (n + 1) rest)) {
      broker := b.hire u unit
      next := [.crew (.staff u n rest)]
      hired := some b.workers.size }

variable {me : Caller} {ch : Choices} {b : Broker} {turn : Turn}

namespace RequestStep

variable {b' : Broker} {s : RequestStep} {q : Inquiry} {t : TaskId} {x : Task}

theorem leave_fitted {gaveUp : Bool} (h : leave b' q t x gaveUp = some turn) (hb : b.Fitted b') :
    b.Fitted turn.broker := by
  unfold leave at h
  split at h <;> exact .of_some h (.of_tasks rfl hb)

theorem wakeUp_fitted {watch : Option Watch} (h : wakeUp b ch q t x watch = some turn) :
    b.Fitted turn.broker := by
  unfold wakeUp at h
  repeat' split at h
  all_goals first
    | exact leave_fitted h (.refl b)
    | exact .of_some h (.refl b)

theorem unlock_fitted (b : Broker) (q : Inquiry) : b.Fitted (unlock b q) :=
  b.fitted_modifyUnit (fun _ => by rfl) _

/-- A request draws a number, or keeps the fittings. -/
theorem refits (h : s.run me ch b = some turn) : turn.Refits ch b (.request s) := by
  cases s with
  | number q =>
    rw [run] at h
    split at h
    · exact .keeps (.of_some h (.refl b))
    · rename_i m hm
      simp only at h
      split at h
      all_goals
        rename_i hallows
        obtain rfl := Option.some.inj h
      · exact .number hm rfl (if_pos hallows).symm
      · exact .number hm rfl (if_neg hallows).symm
  | stillEnabled q | stillMissing q =>
    refine .keeps ?_
    rw [run] at h
    repeat' split at h
    all_goals first
      | exact .of_some h (.refl b)
      | exact .of_some h (unlock_fitted b q)
  | stillAllowed q | claim q =>
    refine .keeps ?_
    rw [run] at h
    repeat' split at h
    all_goals first
      | exact .of_some h (.refl b)
      | exact .of_some h (unlock_fitted b q)
      | exact .of_some h (b.fitted_modifyMethod (fun _ => by rfl) _)
      | exact .of_some h ((unlock_fitted b q).trans (Broker.fitted_modifyMethod _ (fun _ => by simp) _))
  | unclaim q e =>
    exact .keeps (.of_some h ((unlock_fitted b q).trans
      (Broker.fitted_modifyMethod _ (fun _ => by rfl) _)))
  | append q t =>
    refine .keeps ?_
    rw [run] at h
    repeat' split at h
    all_goals first
      | exact .of_some h (.refl b)
      | exact .of_some h (.of_tasks rfl (b.fitted_modifyUnit (fun _ => by rfl) _))
  | _ =>
    refine .keeps ?_
    rw [run] at h
    (try simp only at h)
    repeat' split at h
    all_goals first
      | exact .of_some h (.refl b)
      | exact .of_some h ⟨rfl, rfl, rfl, rfl, rfl, rfl, rfl⟩
      | exact .of_some h (b.fitted_modifyMethod (fun _ => by simp) _)
      | exact .of_some h (b.fitted_modifyUnit (fun _ => by rfl) _)
      | exact .of_some h ⟨rfl, rfl, Table.map_modify_of_eq (fun _ => by rfl) _ _, rfl, rfl, rfl, rfl⟩
      | exact wakeUp_fitted h
      | exact leave_fitted h (.of_tasks rfl (.refl b))
      | cases h

end RequestStep

theorem TaskStep.fitted {s : TaskStep} (h : s.run b = some turn) : b.Fitted turn.broker := by
  cases s <;> rw [run] at h <;> repeat' split at h
  all_goals first
    | exact .of_some h (.refl b)
    | exact .of_some h ⟨rfl, rfl, rfl, rfl, rfl, rfl, rfl⟩
    | exact .of_some h (b.fitted_modifyMethod (fun _ => by rfl) _)

/-- A step of control concerns the recorder, or keeps the fittings. -/
theorem ControlStep.refits {s : ControlStep} (h : s.run me b = some turn) :
    turn.Refits ch b (.control s) := by
  cases s with
  | record d =>
    obtain rfl := Option.some.inj h
    exact .record d
  | replay =>
    rw [run] at h
    repeat' split at h
    all_goals obtain rfl := Option.some.inj h
    · exact .keeps (.refl b)
    · exact .keeps (.refl b)
    · exact .replay ‹_› ‹_›
  | drain u =>
    refine .keeps ?_
    rw [run] at h
    repeat' split at h
    all_goals first
      | exact .of_some h (Broker.drain_fitted ‹_›)
      | exact .of_some h (.refl b)
      | cases h
  | detach d =>
    have hb := b.detach_fitted d
    rw [run] at h
    split at h
    all_goals
      rename_i heq
      rw [heq] at hb
      exact .keeps (.of_some h hb)
  | again ds summary =>
    refine .keeps ?_
    cases ds with
    | nil => exact .of_some h (.refl b)
    | cons d ds =>
      rw [run] at h
      repeat' split at h
      all_goals exact .of_some h (.refl b)
  | accept on =>
    refine .keeps (.of_some h ?_)
    cases on <;> simp only [Broker.accept, Broker.moveJobs, Bool.false_eq_true, if_true, if_false] <;>
      split <;> exact ⟨rfl, rfl, rfl, rfl, rfl, rfl, rfl⟩
  | _ =>
    refine .keeps ?_
    rw [run] at h
    repeat' split at h
    all_goals first
      | exact .of_some h (.refl b)
      | exact .of_some h ⟨rfl, rfl, rfl, rfl, rfl, rfl, rfl⟩
      | exact .of_some h (b.fitted_modifyUnit (fun _ => by rfl) _)
      | cases h

/-- A step at the gate parks a worker, or lets it go on, or keeps the fittings. -/
theorem GateStep.refits {s : GateStep} (h : s.run b = some turn) : turn.Refits ch b (.gate s) := by
  cases s with
  | poll => exact .keeps (.of_some h (.refl b))
  | park =>
    rw [run] at h
    split at h
    · exact .keeps (.of_some h (.refl b))
    · obtain rfl := Option.some.inj h
      exact .park ‹_›
  | parked bell =>
    rw [run] at h
    repeat' split at h
    · cases h
    · obtain rfl := Option.some.inj h
      exact .leave ‹_› ‹_›
    · exact .keeps (.of_some h (.refl b))

/-- A step of a crew hires a worker, or keeps the fittings. -/
theorem CrewStep.refits {s : CrewStep} (h : s.run me ch b = some turn) :
    turn.Refits ch b (.crew s) := by
  cases s with
  | hire u desired =>
    rw [run] at h
    repeat' split at h
    · exact .keeps (.of_some h (.refl b))
    · rename_i unit hu hroom
      simp only [Bool.and_eq_true, decide_eq_true_eq] at hroom
      obtain rfl := Option.some.inj h
      exact .hire hu hroom.1.1
    · exact .keeps (.of_some h ⟨rfl, rfl, rfl, rfl, rfl, rfl, rfl⟩)
  | launch us =>
    refine .keeps ?_
    cases us <;> rw [run] at h <;> repeat' split at h
    all_goals first
      | exact .of_some h (.refl b)
      | exact .of_some h ⟨rfl, rfl, rfl, rfl, rfl, rfl, rfl⟩
      | cases h
  | staff u n rest =>
    cases n with
    | zero => exact .keeps (.of_some h ⟨rfl, rfl, rfl, rfl, rfl, rfl, rfl⟩)
    | succ n =>
      rw [run] at h
      repeat' split at h
      · exact .keeps (.of_some h (.refl b))
      · obtain rfl := Option.some.inj h
        exact .staff ‹_›
      · exact .keeps (.of_some h ⟨rfl, rfl, rfl, rfl, rfl, rfl, rfl⟩)
  | _ =>
    refine .keeps ?_
    rw [run] at h
    (try simp only at h)
    repeat' split at h
    all_goals first
      | exact .of_some h (.refl b)
      | exact .of_some h ⟨rfl, rfl, rfl, rfl, rfl, rfl, rfl⟩

namespace WorkerStep

variable {w : WorkerId} {worker : Worker} {unit : TierUnit} {s : WorkerStep} {c : CompileRun}

/-- A back-end does an operation, or keeps the fittings. -/
theorem obey_refits {task : Task} {move : BackendMove} (hmove : ch.move = some move)
    (h : obey b w c task unit move = some turn) : turn.Refits ch b (.worker w (.compile c)) := by
  cases move with
  | operate o =>
    obtain rfl := Option.some.inj h
    exact .operate hmove
  | _ =>
    refine .keeps ?_
    rw [obey] at h
    repeat' split at h
    all_goals first
      | exact .of_some h (.refl b)
      | exact .of_some h ⟨rfl, rfl, rfl, rfl, rfl, rfl, rfl⟩

/-- A worker retires, posts an event, lets its back-end do an operation, or keeps the fittings. -/
theorem refits (hw : b.workers[w]? = some worker) (hu : b.units[worker.unit]? = some unit)
    (h : s.run me ch b w worker unit = some turn) : turn.Refits ch b (.worker w s) := by
  cases s with
  | compile c =>
    rw [run] at h
    split at h
    · exact .keeps (.of_some h (.refl b))
    · cases h
    · exact obey_refits ‹_› h
  | retire =>
    rw [run] at h
    repeat' split at h
    · cases h
    · obtain rfl := Option.some.inj h
      exact .retire hw hu ‹_› ‹_›
    all_goals exact .keeps (.of_some h (.refl b))
  | announce f =>
    rw [run] at h
    split at h
    · exact .keeps (.of_some h (.refl b))
    · obtain rfl := Option.some.inj h
      exact .announce ‹_›
  | choose =>
    refine .keeps ?_
    rw [run] at h
    repeat' split at h
    all_goals first
      | exact .of_some h (.refl b)
      | exact .of_some h (b.fitted_modifyUnit (fun _ => by rfl) _)
      | (have hb := Broker.select_fitted ‹_›
         first
         | exact .of_some h hb
         | exact .of_some h (hb.trans (Broker.fitted_modifyUnit _ (fun _ => by rfl) _)))
  | begin c | close f =>
    refine .keeps ?_
    rw [run] at h
    repeat' split at h
    all_goals first
      | exact .of_some h (.refl b)
      | exact .of_some h (b.fitted_modifyWorker (fun _ => by rfl) _)
  | count f =>
    refine .keeps ?_
    rw [run] at h
    repeat' split at h
    all_goals first
      | exact .of_some h (.refl b)
      | exact .of_some h ⟨rfl, rfl, rfl, rfl, rfl, rfl, Statistics.events_record _ _ _ _ _ _⟩
  | _ =>
    refine .keeps ?_
    rw [run] at h
    (try simp only at h)
    repeat' split at h
    all_goals first
      | exact .of_some h (.refl b)
      | exact .of_some h (b.fitted_modifyUnit (fun _ => by rfl) _)
      | exact .of_some h (b.fitted_modifyWorker (fun _ => by rfl) _)
      | exact .of_some h (b.fitted_modifyMethod (fun _ => by simp) _)
      | exact .of_some h ⟨rfl, rfl, rfl, rfl, rfl, rfl, rfl⟩
      | cases h

end WorkerStep

/-- What an action does to the fittings. -/
theorem Action.refits {a : Action} (h : a.run me ch b = some turn) : turn.Refits ch b a := by
  cases a with
  | request s => exact RequestStep.refits h
  | task s => exact .keeps (TaskStep.fitted h)
  | control s => exact ControlStep.refits h
  | gate s => exact GateStep.refits h
  | worker w s =>
    rw [run] at h
    split at h
    · exact .keeps (.of_some h (.refl b))
    · split at h
      · exact .keeps (.of_some h (.refl b))
      · exact WorkerStep.refits ‹_› ‹_› h
  | crew s => exact CrewStep.refits h
  | answer r => exact .keeps (.of_some h (.refl b))
  | fault => cases h

/-! ### Operations -/

/-- What an operation does to the fittings. -/
structure Broker.Operated (o : Operation) (b b' : Broker) : Prop where
  /-- The units are the same. -/
  units : b'.units = b.units
  /-- So are the workers. -/
  workers : b'.workers = b.workers
  /-- The same methods are native, and one may be added. -/
  natives : b'.methods.map (·.isNative) = b.methods.map (·.isNative) ∨
    ∃ native, b'.methods.map (·.isNative) = (b.methods.map (·.isNative)).add native
  /-- A number may be drawn. -/
  ids : b'.ids = match o with
    | .drawId k => (b.ids.draw k).2
    | _ => b.ids
  /-- Guards of the gate are acquired and dropped. -/
  gate : b'.gate = match o with
    | .pause => b.gate.pause
    | .unpause => if b.gate.guards = 0 then b.gate else b.gate.release
    | _ => b.gate
  /-- The recorder may take a record, or open its window. -/
  recorder : b'.recorder = match o with
    | .startRecording => b.recorder.map fun r =>
      match r.start with
      | .ok r => r
      | .error _ => r
    | .record d => b.recorder.map fun r => (r.record d).2
    | _ => b.recorder
  /-- No event is posted. -/
  events : b'.stats.events = b.stats.events

theorem Broker.operate_operated (b : Broker) (o : Operation) : b.Operated o (b.operate o) := by
  cases o with
  | addMethod x => exact ⟨rfl, rfl, .inr ⟨_, Table.map_add _ _ _⟩, rfl, rfl, rfl, rfl⟩
  | redefine m | breakpoints m present | link m | prohibit m osr tier | prohibitAll m
  | close m region =>
    have hnatives {f : Method → Method} (hf : ∀ x, (f x).isNative = x.isNative) :
        (b.modifyMethod m f).methods.map (·.isNative) = b.methods.map (·.isNative) :=
      Table.map_modify_of_eq hf b.methods m
    exact ⟨rfl, rfl, .inl (hnatives fun x => by simp [Method.prohibitAll, Method.closeCode]), rfl,
      rfl, rfl, rfl⟩
  | pushDirectives sets =>
    rw [operate]
    split <;> exact ⟨rfl, rfl, .inl rfl, rfl, rfl, rfl, rfl⟩
  | unpause =>
    rw [operate]
    split
    · exact ⟨rfl, rfl, .inl rfl, rfl, (if_pos ‹_›).symm, rfl, rfl⟩
    · exact ⟨rfl, rfl, .inl rfl, rfl, (if_neg ‹_›).symm, rfl, rfl⟩
  | _ => exact ⟨rfl, rfl, .inl rfl, rfl, rfl, rfl, rfl⟩

/-! ### Moves -/

namespace System

variable {s : System} {m : Move} {i : ThreadId} {th : Thread} {a : Action} {rest : List Action}

/-- A move is the step of a thread that runs the first of its actions. -/
structure Runs (s : System) (m : Move) (i : ThreadId) (ch : Choices) (th : Thread) (a : Action)
    (rest : List Action) (turn : Turn) : Prop where
  /-- It is a step. -/
  move : m = .step i ch
  /-- This is the thread. -/
  thread : s.threads[i]? = some th
  /-- This is what it has to do. -/
  agenda : th.agenda = a :: rest
  /-- This is what the action leads to. -/
  run : a.run (th.caller i) ch s.broker = some turn
  /-- The turn is made. -/
  turned : s.move m = s.turned i turn
  /-- The action is run. -/
  ran : s.ran m = some a

theorem exists_runs (h : s.ran m = some a) :
    ∃ i ch th rest turn, s.Runs m i ch th a rest turn := by
  cases m with
  | step i ch =>
    have hran := h
    rw [ran] at h
    split at h
    · rename_i t s' ht hstep
      obtain ⟨t', a', rest, turn, ht', ha, hrun, rfl⟩ := step_eq_some_iff.1 hstep
      obtain rfl := Option.some.inj (ht.symm.trans ht')
      rw [ha, List.head?_cons] at h
      obtain rfl := Option.some.inj h
      exact ⟨i, ch, t, rest, turn, rfl, ht, ha, hrun, by rw [System.move, hstep]; rfl, hran⟩
    · cases h
  | call c n => cases h
  | operate o => cases h

/-- A thread whose first action can be run makes a move with it. -/
theorem runs_of_run (hth : s.threads[i]? = some th) (ha : th.agenda = a :: rest)
    (hrun : a.run (th.caller i) ch s.broker = some turn) :
    s.Runs (.step i ch) i ch th a rest turn := by
  have hstep : s.step i ch = some (s.turned i turn) :=
    step_eq_some_iff.2 ⟨th, a, rest, turn, hth, ha, hrun, rfl⟩
  refine ⟨rfl, hth, ha, hrun, by rw [System.move, hstep]; rfl, ?_⟩
  rw [ran, hth, hstep]
  exact congrArg List.head? ha

/-- A step that is not possible changes nothing. -/
theorem move_step_of_ran (h : s.ran (.step i ch) = none) :
    s.move (.step i ch) = s := by
  cases hstep : s.step i ch with
  | none => rw [System.move, hstep, Option.getD_none]
  | some s' =>
    obtain ⟨t, a, rest, turn, ht, ha, -, -⟩ := step_eq_some_iff.1 hstep
    simp [ran, ht, hstep, ha] at h

theorem Runs.mem_pending (h : s.Runs m i ch th a rest turn) : a ∈ s.pending :=
  System.mem_pending.2 ⟨i, th, h.thread, h.agenda ▸ List.mem_cons_self⟩

/-- The step consumes its action and brings those of its turn. -/
theorem Runs.pending_move (h : s.Runs m i ch th a rest turn) :
    (s.move m).pending + {a} = s.pending + ↑turn.brings := by
  rw [h.turned]
  exact pending_turned h.thread h.agenda

/-- So it does with what is made of the actions. -/
theorem Runs.filterMap_pending {β : Type} (h : s.Runs m i ch th a rest turn)
    (f : Action → Option β) : (s.move m).pending.filterMap f + ↑(f a).toList =
      s.pending.filterMap f + ↑(turn.brings.filterMap f) := by
  rw [h.turned]
  exact filterMap_pending_turned f h.thread h.agenda

/-- What a move puts on agendas. -/
inductive Brings (s : System) (m : Move) : List Action → Prop where
  /-- A call brings what it is to do. -/
  | call {c : Call} {n : Nat} (h : m = .call c n) : Brings s m c.agenda
  /-- A step brings what its turn says. -/
  | step {i : ThreadId} {ch : Choices} {th : Thread} {a : Action} {rest : List Action} {turn : Turn}
    (h : s.Runs m i ch th a rest turn) : Brings s m turn.brings
  /-- Any other move brings nothing. -/
  | nothing (h : s.ran m = none) : Brings s m []

/-- What is pending after a move was pending before it and is not the action that is run, or is
brought by the move. -/
theorem exists_pending_move (s : System) (m : Move) : ∃ others new, s.Brings m new ∧
    s.pending = others + ↑(s.ran m).toList ∧ (s.move m).pending = others + ↑new := by
  cases hran : s.ran m with
  | some a =>
    obtain ⟨i, ch, th, rest, turn, h⟩ := exists_runs hran
    obtain ⟨others, hothers⟩ := Multiset.exists_cons_of_mem h.mem_pending
    have hadd : s.pending = others + {a} := by rw [hothers, ← Multiset.singleton_add, add_comm]
    refine ⟨others, _, .step h, hadd, ?_⟩
    have hmove := h.pending_move
    rw [hadd, add_right_comm] at hmove
    exact add_right_cancel hmove
  | none =>
    refine ⟨s.pending, ?_⟩
    cases m with
    | call c n => exact ⟨_, .call rfl, (add_zero _).symm, pending_spawn s _⟩
    | operate o => exact ⟨[], .nothing hran, (add_zero _).symm, (add_zero _).symm⟩
    | step i ch =>
      rw [move_step_of_ran hran]
      exact ⟨[], .nothing hran, (add_zero _).symm, (add_zero _).symm⟩

/-- The operation that a move does, from outside or in a back-end. -/
def operation? (s : System) : Move → Option Operation
  | .operate o => some o
  | .call _ _ => none
  | .step i ch =>
    match s.ran (.step i ch), ch.move with
    | some (.worker _ (.compile _)), some (.operate o) => some o
    | _, _ => none

/-- A back-end that is run in a move without an operation does none. -/
theorem Runs.not_operate {w : WorkerId} {c : CompileRun} {o : Operation}
    (h : s.Runs m i ch th (.worker w (.compile c)) rest turn) (hop : s.operation? m = none) :
    ch.move ≠ some (.operate o) := by
  intro ho
  rw [h.move, operation?, ← h.move, h.ran, ho] at hop
  cases hop

/-- A move does an operation, or runs an action without one, or leaves the broker alone. -/
theorem move_cases (hs : s.Lawful) (m : Move) :
    (∃ o, s.operation? m = some o ∧ (s.move m).broker = s.broker.operate o) ∨
      s.operation? m = none ∧
        (s.ran m = none ∧ (s.move m).broker = s.broker ∨
          ∃ i ch th a rest turn, s.Runs m i ch th a rest turn) := by
  cases m with
  | operate o => exact .inl ⟨o, rfl, rfl⟩
  | call c n => exact .inr ⟨rfl, .inl ⟨rfl, rfl⟩⟩
  | step i ch =>
    cases hran : s.ran (.step i ch) with
    | none =>
      exact .inr ⟨by rw [operation?, hran], .inl ⟨rfl, by rw [move_step_of_ran hran]⟩⟩
    | some a =>
      obtain ⟨i', ch', th, rest, turn, h⟩ := exists_runs hran
      obtain ⟨rfl, rfl⟩ := Move.step.inj h.move
      by_cases hop : s.operation? (.step i ch) = none
      · exact .inr ⟨hop, .inr ⟨i, ch, th, a, rest, turn, h⟩⟩
      · obtain ⟨o, ho⟩ := Option.ne_none_iff_exists'.1 hop
        refine .inl ⟨o, ho, ?_⟩
        rw [operation?, hran] at ho
        split at ho
        · rename_i w c o' heq hmove
          obtain rfl := Option.some.inj ho
          obtain rfl := Option.some.inj heq
          have hknown := hs.known _ (mem_duties.2 ⟨_, h.mem_pending, rfl⟩)
          obtain ⟨worker, unit, -, -, hrun⟩ := Action.worker_run hs.sound hknown.1 h.run
          obtain ⟨task, ht⟩ := Table.exists_getElem? (t := s.broker.tasks) (hknown.2 c.task rfl)
          rw [WorkerStep.run, ht, hmove] at hrun
          rw [h.turned, broker_turned, ← Option.some.inj hrun]
        · cases ho

/-! ### The moves of one thread -/

/-- The action that a thread runs in a move. -/
def ranBy (i : ThreadId) (s : System) : Move → Option Action
  | .step j ch => if j = i then s.ran (.step j ch) else none
  | .call _ _ | .operate _ => none

theorem Runs.ranBy_self (h : s.Runs m i ch th a rest turn) : s.ranBy i m = some a := by
  obtain rfl := h.move
  rw [ranBy, if_pos rfl, h.ran]

/-- A thread that does not make the move has still before it what it had. -/
theorem thread_of_ranBy (hth : s.threads[i]? = some th) (hran : s.ranBy i m = none) :
    (s.move m).threads[i]? = some th := by
  cases m with
  | operate o => exact hth
  | call c n => exact getElem?_threads_spawn hth
  | step j ch =>
    cases hj : s.ran (.step j ch) with
    | none =>
      rw [move_step_of_ran hj]
      exact hth
    | some a =>
      obtain ⟨j', ch', t, rest, turn, h⟩ := exists_runs hj
      obtain ⟨rfl, rfl⟩ := Move.step.inj h.move
      rw [h.turned]
      refine threadsAfter_of_ne hth fun hij => ?_
      rw [ranBy, if_pos hij.symm, hj] at hran
      cases hran

/-- A thread that runs an action goes on with what the action brings. -/
theorem Runs.thread_after (h : s.Runs m i ch th a rest turn) :
    (s.move m).threads[i]? = some (th.after turn) := by
  rw [h.turned]
  exact threadsAfter_self h.thread

theorem exists_runs_of_ranBy (h : s.ranBy i m = some a) (hth : s.threads[i]? = some th) :
    ∃ ch rest turn, s.Runs m i ch th a rest turn := by
  cases m with
  | step j ch =>
    rw [ranBy] at h
    split at h
    · rename_i hij
      obtain ⟨i', ch', th', rest, turn, hruns⟩ := exists_runs h
      obtain ⟨rfl, rfl⟩ := Move.step.inj hruns.move
      subst hij
      obtain rfl := Option.some.inj (hth.symm.trans hruns.thread)
      exact ⟨ch, rest, turn, hruns⟩
    · cases h
  | call c n => cases h
  | operate o => cases h

/-! ### Along a run -/

/-- What the moves of a run tell, one after the other. -/
def gather {β : Type} (f : System → Move → Option β) (s : System) : List Move → List β
  | [] => []
  | m :: ms => (f s m).toList ++ (s.move m).gather f ms

@[simp] theorem gather_append {β : Type} (f : System → Move → Option β) (s : System)
    (ms ms' : List Move) :
    s.gather f (ms ++ ms') = s.gather f ms ++ (ms.foldl System.move s).gather f ms' := by
  induction ms generalizing s with
  | nil => rfl
  | cons m ms ih => rw [List.cons_append, gather, gather, ih, List.append_assoc, List.foldl_cons]

theorem gather_concat {β : Type} (f : System → Move → Option β) (s : System) (ms : List Move)
    (m : Move) :
    s.gather f (ms ++ [m]) = s.gather f ms ++ (f (ms.foldl System.move s) m).toList := by
  rw [gather_append, gather, gather, List.append_nil]

/-- Whatever the moves of a run tell is told by one of them, in the state in which it is made. -/
theorem exists_of_mem_gather {β : Type} {f : System → Move → Option β} {x : β} {ms : List Move}
    (h : x ∈ s.gather f ms) :
    ∃ (ms₁ : List Move) (m : Move) (ms₂ : List Move),
      ms = ms₁ ++ m :: ms₂ ∧ f (ms₁.foldl System.move s) m = some x := by
  induction ms generalizing s with
  | nil => exact absurd h List.not_mem_nil
  | cons m ms ih =>
    rw [gather, List.mem_append] at h
    rcases h with hnow | hlater
    · exact ⟨[], m, ms, rfl, Option.mem_toList.1 hnow⟩
    · obtain ⟨ms₁, m', ms₂, rfl, hx⟩ := ih hlater
      exact ⟨m :: ms₁, m', ms₂, rfl, hx⟩

/-- The trace of a run is what its moves run. -/
theorem trace_eq_gather (s : System) (ms : List Move) : s.trace ms = s.gather ran ms := by
  induction ms generalizing s with
  | nil => rfl
  | cons m ms ih => rw [trace, gather, ih]

end System

end JitBroker
