import JitBroker.Proofs.Fittings

/-!
# Which steps write logs

A worker writes its log in two steps, when it begins a compile and when it has finished one. No
other step writes a log, but for that of a worker that is hired, which is empty; and no step changes
the name of a method or of its class (`Broker.Logging`, `Action.logging`).
-/

namespace JitBroker

/-- The methods keep their names. -/
def Broker.Named (b b' : Broker) : Prop := ∀ ⦃m : MethodId⦄ ⦃x : Method⦄, b.methods[m]? = some x →
  ∃ x', b'.methods[m]? = some x' ∧ x'.fullName = x.fullName

/-- A broker in which no log was written, with the same workers. -/
structure Broker.Unlogged (b b' : Broker) : Prop where
  /-- The logs are the same. -/
  logs : b'.workers.map (·.log) = b.workers.map (·.log)
  /-- The methods keep their names. -/
  names : b.Named b'

namespace Method

@[simp] theorem fullName_prohibit (m : Method) (osr : Bool) (tier : Tier) :
    (m.prohibit osr tier).fullName = m.fullName := by
  unfold prohibit
  split <;> rfl

@[simp] theorem fullName_linkNative (m : Method) : m.linkNative.2.fullName = m.fullName := by
  unfold linkNative
  split <;> rfl

@[simp] theorem fullName_install (m : Method) (c : InstalledCode) :
    (m.install c).fullName = m.fullName := by
  unfold install
  split <;> rfl

@[simp] theorem fullName_afterFailure (m : Method) (osr : Bool) (tier : Tier)
    (scope : Option FailureScope) : (m.afterFailure osr tier scope).fullName = m.fullName := by
  unfold afterFailure
  split
  · exact m.fullName_prohibit osr tier
  · rfl
  · rfl

@[simp] theorem fullName_detach (m : Method) (bci : Int) (tier : Tier) :
    (m.detach bci tier).2.fullName = m.fullName := by
  unfold detach
  repeat' split
  all_goals rfl

end Method

namespace Broker

variable {b b' b'' : Broker}

theorem Named.refl (b : Broker) : b.Named b := fun _ _ h => ⟨_, h, rfl⟩

theorem Named.trans (h : b.Named b') (h' : b'.Named b'') : b.Named b'' := by
  intro m x hx
  obtain ⟨x', hx', hname⟩ := h hx
  obtain ⟨x'', hx'', hname'⟩ := h' hx'
  exact ⟨x'', hx'', hname'.trans hname⟩

theorem Unlogged.trans (h : b.Unlogged b') (h' : b'.Unlogged b'') : b.Unlogged b'' :=
  ⟨h'.logs.trans h.logs, h.names.trans h'.names⟩

/-- Workers and methods are the same. -/
theorem Unlogged.of_eq (hworkers : b'.workers = b.workers) (hmethods : b'.methods = b.methods) :
    b.Unlogged b' := ⟨congrArg _ hworkers, fun _ _ h => ⟨_, hmethods ▸ h, rfl⟩⟩

theorem Unlogged.refl (b : Broker) : b.Unlogged b := .of_eq rfl rfl

/-- A method is changed, but not its name. -/
theorem Unlogged.of_modify {m : MethodId} {f : Method → Method} (hworkers : b'.workers = b.workers)
    (hmethods : b'.methods = b.methods.modify m f) (hf : ∀ x, (f x).fullName = x.fullName) :
    b.Unlogged b' := by
  refine ⟨congrArg _ hworkers, fun n x hx => ?_⟩
  rw [hmethods]
  by_cases hmn : m = n
  · subst hmn
    exact ⟨f x, Table.getElem?_modify_self hx f, hf x⟩
  · exact ⟨x, (Table.getElem?_modify_of_ne hmn f).trans hx, rfl⟩

/-- A worker is changed, but not its log. -/
theorem unlogged_modifyWorker (b : Broker) {f : Worker → Worker} (hf : ∀ x, (f x).log = x.log)
    (w : WorkerId) : b.Unlogged (b.modifyWorker w f) :=
  ⟨Table.map_modify_of_eq hf b.workers w, .refl b⟩

/-- A change that is seen in the records of tasks only. -/
theorem Unlogged.of_tasks {tasks : Table Task} (h : b'' = { b' with tasks := tasks })
    (hb : b.Unlogged b') : b.Unlogged b'' := by
  subst h
  exact ⟨hb.logs, hb.names⟩

theorem Unlogged.of_some {turn turn' : Turn} (h : some turn' = some turn)
    (hb : b.Unlogged turn'.broker) : b.Unlogged turn.broker := by
  obtain rfl := Option.some.inj h
  exact hb

theorem drain_unlogged {u : UnitId} {q : CompileQueue} {ts : List TaskId}
    (h : b.drain? u q = some (ts, b')) : b.Unlogged b' := by
  simp only [drain?, Option.bind_eq_bind, Option.bind_eq_some_iff, Option.pure_def,
    Option.some.injEq, Prod.mk.injEq] at h
  obtain ⟨⟨ts, q'⟩, -, rfl, rfl⟩ := h
  exact .of_tasks (Withdrawn.foldl (fun b t => ⟨rfl, .ofStale b.tasks t (·.unloaded)⟩) ts _).1
    (.of_eq rfl rfl)

theorem select_unlogged {u : UnitId} {q : CompileQueue} {chosen : Option TaskId}
    {stale : List TaskId} (h : b.select? u q = some (chosen, stale, b')) : b.Unlogged b' := by
  simp only [select?, Option.bind_eq_bind, Option.bind_eq_some_iff, Option.pure_def,
    Option.some.injEq, Prod.mk.injEq] at h
  obtain ⟨⟨stale, q₁⟩, -, ⟨ts, q₂⟩, -, -, rfl, rfl⟩ := h
  have htake (ts : List TaskId) (b : Broker) :
      b.Unlogged (ts.foldl (fun b t => b.modifyTask t fun x => { x with slot := none }) b) := by
    induction ts generalizing b with
    | nil => exact .refl b
    | cons t ts ih =>
      have hone : b.Unlogged (b.modifyTask t fun x => { x with slot := none }) := .of_eq rfl rfl
      exact hone.trans (ih _)
  refine .trans ?_ (htake ts _)
  exact .of_tasks (Withdrawn.foldl setStale_withdrawn stale _).1 (.of_eq rfl rfl)

theorem detach_unlogged (b : Broker) (d : Decompilation) : b.Unlogged (b.detach d).2 := by
  unfold detach
  split
  · exact .of_modify rfl rfl fun x => x.fullName_detach d.bci d.tier
  · exact .refl b

/-- What is done from outside writes no log. -/
theorem operate_unlogged (b : Broker) (o : Operation) : b.Unlogged (b.operate o) := by
  cases o with
  | addMethod x =>
    refine ⟨rfl, fun m y hy => ⟨y, ?_, rfl⟩⟩
    exact (Table.getElem?_add_of_lt (Table.lt_size_of_getElem? hy) _).trans hy
  | link m => exact .of_modify rfl rfl Method.fullName_linkNative
  | prohibit m osr tier => exact .of_modify rfl rfl fun x => x.fullName_prohibit osr tier
  | redefine m | breakpoints m present | prohibitAll m | close m region =>
    exact .of_modify rfl rfl fun _ => rfl
  | pushDirectives sets =>
    rw [operate]
    split <;> exact .of_eq rfl rfl
  | unpause =>
    rw [operate]
    split <;> exact .of_eq rfl rfl
  | _ => exact .of_eq rfl rfl

end Broker

variable {me : Caller} {ch : Choices} {b : Broker} {turn : Turn}

namespace RequestStep

variable {b' : Broker} {s : RequestStep} {q : Inquiry} {t : TaskId} {x : Task}

theorem leave_unlogged {gaveUp : Bool} (h : leave b' q t x gaveUp = some turn)
    (hb : b.Unlogged b') : b.Unlogged turn.broker := by
  unfold leave at h
  split at h <;> exact .of_some h (.of_tasks rfl hb)

theorem wakeUp_unlogged {watch : Option Watch} (h : wakeUp b ch q t x watch = some turn) :
    b.Unlogged turn.broker := by
  unfold wakeUp at h
  repeat' split at h
  all_goals first
    | exact leave_unlogged h (.refl b)
    | exact .of_some h (.refl b)

/-- Requests write no log. -/
theorem unlogged (h : s.run me ch b = some turn) : b.Unlogged turn.broker := by
  cases s <;> rw [run] at h <;> (try simp only at h) <;> repeat' split at h
  all_goals first
    | exact .of_some h (.of_eq rfl rfl)
    | exact wakeUp_unlogged h
    | exact leave_unlogged h (.of_tasks rfl (.refl b))
    | exact .of_some h (.of_modify rfl rfl fun _ => rfl)
    | exact .of_some h (.of_modify rfl rfl fun x => by simp)
    | cases h

end RequestStep

theorem TaskStep.unlogged {s : TaskStep} (h : s.run b = some turn) : b.Unlogged turn.broker := by
  cases s <;> rw [run] at h <;> repeat' split at h
  all_goals first
    | exact .of_some h (.of_eq rfl rfl)
    | exact .of_some h (.of_modify rfl rfl fun _ => rfl)

theorem ControlStep.unlogged {s : ControlStep} (h : s.run me b = some turn) :
    b.Unlogged turn.broker := by
  cases s with
  | drain u =>
    rw [run] at h
    repeat' split at h
    all_goals first
      | exact .of_some h (Broker.drain_unlogged ‹_›)
      | exact .of_some h (.refl b)
      | cases h
  | detach d =>
    have hb := b.detach_unlogged d
    rw [run] at h
    split at h
    all_goals
      rename_i heq
      rw [heq] at hb
      exact .of_some h hb
  | again ds summary =>
    cases ds with
    | nil => exact .of_some h (.refl b)
    | cons d ds =>
      rw [run] at h
      repeat' split at h
      all_goals exact .of_some h (.refl b)
  | accept on =>
    refine .of_some h ?_
    cases on <;> simp only [Broker.accept, Broker.moveJobs, Bool.false_eq_true, if_true, if_false] <;>
      split <;> exact .of_eq rfl rfl
  | _ =>
    rw [run] at h
    repeat' split at h
    all_goals first
      | exact .of_some h (.of_eq rfl rfl)
      | cases h

theorem GateStep.unlogged {s : GateStep} (h : s.run b = some turn) : b.Unlogged turn.broker := by
  cases s <;> rw [run] at h <;> repeat' split at h
  all_goals first
    | exact .of_some h (.of_eq rfl rfl)
    | cases h

/-! ### The steps that write -/

/-- What an action does to the logs. -/
inductive Broker.Logging (b b' : Broker) : Action → Prop where
  /-- Nothing. -/
  | nothing {a : Action} (h : b.Unlogged b') : Logging b b' a
  /-- It hires a worker, whose log is empty. -/
  | hire {a : Action} {u : UnitId} {x : TierUnit} (h : b' = b.hire u x) : Logging b b' a
  /-- A worker writes its own. -/
  | write {w : WorkerId} {st : WorkerStep} (hothers : ∀ v, v ≠ w → b'.workers[v]? = b.workers[v]?)
    (hmethods : b'.methods = b.methods) : Logging b b' (.worker w st)

/-- Crews write no log unless they hire a worker. -/
theorem CrewStep.logging {s : CrewStep} (h : s.run me ch b = some turn) :
    b.Logging turn.broker (.crew s) := by
  rcases s with u | ⟨u, n⟩ | ⟨u, n, k⟩ | ⟨u, n⟩ | ⟨u, n⟩ | (_ | ⟨u, us⟩) | ⟨u, _ | n, us⟩ | _ <;>
    rw [run] at h <;> (try simp only at h) <;> repeat' split at h
  all_goals first
    | exact .nothing (.of_some h (.of_eq rfl rfl))
    | (obtain rfl := Option.some.inj h
       exact .hire rfl)
    | cases h

namespace WorkerStep

variable {w : WorkerId} {worker : Worker} {unit : TierUnit} {s : WorkerStep} {c : CompileRun}

theorem obey_unlogged {task : Task} {move : BackendMove} (h : obey b w c task unit move = some turn) :
    b.Unlogged turn.broker := by
  cases move with
  | operate o => exact .of_some h (b.operate_unlogged o)
  | _ =>
    rw [obey] at h
    repeat' split at h
    all_goals exact .of_some h (.of_eq rfl rfl)

/-- A worker writes no log when it neither begins a compile nor has finished one. -/
theorem unlogged (h : s.run me ch b w worker unit = some turn) (hbegin : ∀ c, s ≠ .begin c)
    (hclose : ∀ f, s ≠ .close f) : b.Unlogged turn.broker := by
  cases s with
  | begin c => exact absurd rfl (hbegin c)
  | close f => exact absurd rfl (hclose f)
  | compile c =>
    rw [run] at h
    split at h
    · exact .of_some h (.refl b)
    · cases h
    · exact obey_unlogged h
  | choose =>
    rw [run] at h
    repeat' split at h
    all_goals first
      | exact .of_some h (.of_eq rfl rfl)
      | (have hb := Broker.select_unlogged ‹_›
         exact .of_some h (hb.trans (.of_eq rfl rfl)))
  | _ =>
    rw [run] at h
    (try simp only at h)
    repeat' split at h
    all_goals first
      | exact .of_some h (.of_eq rfl rfl)
      | exact .of_some h (.of_modify rfl rfl fun _ => rfl)
      | exact .of_some h (.of_modify rfl rfl fun x => by simp)
      | exact .of_some h (b.unlogged_modifyWorker (fun _ => by rfl) _)
      | cases h

/-- A worker writes its own log, or none. -/
theorem logging (h : s.run me ch b w worker unit = some turn) :
    b.Logging turn.broker (.worker w s) := by
  cases s with
  | begin c | close f =>
    rw [run] at h
    repeat' split at h
    · exact .nothing (.of_some h (.refl b))
    · exact .nothing (.of_some h (.refl b))
    · obtain rfl := Option.some.inj h
      exact .write (fun v hv => Table.getElem?_modify_of_ne hv.symm _) rfl
    · exact .nothing (.of_some h (.refl b))
  | _ => exact .nothing (unlogged h (by simp) (by simp))

end WorkerStep

/-- What an action does to the logs. -/
theorem Action.logging {a : Action} (h : a.run me ch b = some turn) : b.Logging turn.broker a := by
  cases a with
  | request s => exact .nothing (RequestStep.unlogged h)
  | task s => exact .nothing (TaskStep.unlogged h)
  | control s => exact .nothing (ControlStep.unlogged h)
  | gate s => exact .nothing (GateStep.unlogged h)
  | worker w s =>
    rw [run] at h
    repeat' split at h
    · exact .nothing (.of_some h (.refl b))
    · exact .nothing (.of_some h (.refl b))
    · exact WorkerStep.logging h
  | crew s => exact CrewStep.logging h
  | answer r => exact .nothing (.of_some h (.refl b))
  | fault => cases h

/-! ### Moves -/

namespace System

variable {s : System} {m : Move} {w : WorkerId}

/-- No move changes the name of a method. -/
theorem named_move (s : System) (m : Move) : s.broker.Named (s.move m).broker := by
  cases hran : s.ran m with
  | none =>
    cases m with
    | step i ch =>
      rw [move_step_of_ran hran]
      exact .refl _
    | call c n => exact .refl _
    | operate o => exact (s.broker.operate_unlogged o).names
  | some a =>
    obtain ⟨i, ch, th, rest, turn, hruns⟩ := exists_runs hran
    rw [hruns.turned, broker_turned]
    cases Action.logging hruns.run with
    | nothing h => exact h.names
    | hire h => exact h ▸ .refl _
    | write _ hmethods => exact fun k x hx => ⟨x, hmethods ▸ hx, rfl⟩

/-- A move in which a worker takes no step leaves its log as it is, or hires the worker. -/
theorem log_move (hran : ∀ st, s.ran m ≠ some (.worker w st)) :
    (s.move m).broker.workers[w]?.map (·.log) = s.broker.workers[w]?.map (·.log) ∨
      s.broker.workers[w]? = none ∧ (s.move m).broker.workers[w]?.map (·.log) =
        some { capacity := s.broker.config.logCapacity.toNat } := by
  have same {b' : Broker} (h : s.broker.Unlogged b') :
      b'.workers[w]?.map (·.log) = s.broker.workers[w]?.map (·.log) := by
    rw [← Table.getElem?_map, ← Table.getElem?_map, h.logs]
  cases ha : s.ran m with
  | none =>
    cases m with
    | step i ch =>
      rw [move_step_of_ran ha]
      exact .inl rfl
    | call c n => exact .inl rfl
    | operate o => exact .inl (same (s.broker.operate_unlogged o))
  | some a =>
    obtain ⟨i, ch, th, rest, turn, hruns⟩ := exists_runs ha
    rw [hruns.turned, broker_turned]
    cases Action.logging hruns.run with
    | nothing h => exact .inl (same h)
    | hire h =>
      rw [h, Broker.hire, Table.getElem?_add]
      split
      · rename_i hw
        exact .inr ⟨(Table.getElem?_eq_none_iff _ _).2 hw.ge, rfl⟩
      · exact .inl rfl
    | @write v st hothers _ =>
      refine .inl (congrArg _ (hothers w ?_))
      rintro rfl
      exact hran st ha

end System

end JitBroker
