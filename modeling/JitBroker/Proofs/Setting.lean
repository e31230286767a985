import JitBroker.Proofs.Protocol

/-!
# What few steps change

The configuration of a broker, the configurations of its units, whether jobs are taken, whether
compilation is disabled, and the code cache are its *setting*. Most steps leave all of it alone
(`Turn.Steady`). The others are few enough to say exactly what they do:

* jobs are stopped and go on by five actions, which `Action.jobs` lists;
* compilation is disabled by one action, and never enabled again;
* the code cache changes by an allocation or by a release (`CodeCache.Step`);
* the configurations stay as they are.

`Action.run_regular` says so of every action, and `System.regular` of every move.
-/

namespace JitBroker

/-! ### What actions do to the setting -/

/-- What an allocation or a release makes of a code cache. -/
inductive CodeCache.Step (c : CodeCache) : CodeCache → Prop where
  /-- Nothing happens. -/
  | same : Step c c
  /-- Space is asked for. -/
  | allocate (k : BlobKind) (size : UInt64) : Step c (c.allocate k size).2
  /-- Space is given back. -/
  | release (id : Nat) : Step c (c.release id).2

/-- What an action makes of the state of jobs. -/
def Action.jobs (eviction : Bool) (j : JobState) : Action → JobState
  | .control .resume => if j = .stoppedForCache then .run else j
  | .control .react => if eviction = true ∧ j = .run then .stoppedForCache else j
  | .control (.accept true) => if j = .stopped then .run else j
  | .control (.accept false) => if j = .run then .stopped else j
  | .control .shutdown => .shutDown
  | _ => j

/-- Whether an action disables compilation. -/
def Action.disables : Action → Bool
  | .control .disable => true
  | _ => false

/-- The configurations of the units. -/
def Broker.unitConfigs (b : Broker) : Table TierConfig := b.units.map (·.config)

/-- The second broker is what an action makes of the first one, as far as its setting goes. -/
structure Broker.Regular (b : Broker) (a : Action) (b' : Broker) : Prop where
  /-- The configuration stays. -/
  config : b'.config = b.config
  /-- So do those of the units. -/
  units : b'.unitConfigs = b.unitConfigs
  /-- Jobs are stopped, or go on, by certain actions only. -/
  jobs : b'.jobs = a.jobs b.config.eviction b.jobs
  /-- Compilation is disabled by one action. -/
  disabled : b'.disabled = (b.disabled || a.disables)
  /-- The cache changes by an allocation or a release. -/
  cache : b.cache.Step b'.cache

/-! ### Steps that leave the setting alone -/

/-- A broker with the same setting. -/
structure Broker.Steady (b b' : Broker) : Prop where
  /-- The configuration is the same. -/
  config : b'.config = b.config
  /-- So are those of the units. -/
  units : b'.unitConfigs = b.unitConfigs
  /-- Jobs are taken or not. -/
  jobs : b'.jobs = b.jobs
  /-- Compilation is disabled or not. -/
  disabled : b'.disabled = b.disabled
  /-- The code cache is the same. -/
  cache : b'.cache = b.cache

namespace Broker

variable {b b' b'' : Broker}

theorem Steady.refl (b : Broker) : b.Steady b := ⟨rfl, rfl, rfl, rfl, rfl⟩

theorem Steady.trans (h : b.Steady b') (h' : b'.Steady b'') : b.Steady b'' where
  config := h'.config.trans h.config
  units := h'.units.trans h.units
  jobs := h'.jobs.trans h.jobs
  disabled := h'.disabled.trans h.disabled
  cache := h'.cache.trans h.cache

/-- Changing a unit but for its configuration leaves the setting alone. -/
theorem steady_modifyUnit (b : Broker) {f : TierUnit → TierUnit} (hf : ∀ x, (f x).config = x.config)
    (u : UnitId) : b.Steady (b.modifyUnit u f) where
  config := rfl
  units := Table.map_modify_of_eq hf b.units u
  jobs := rfl
  disabled := rfl
  cache := rfl

/-- So does a change that is seen in the records of tasks only. -/
theorem Steady.of_tasks {tasks : Table Task} (h : b'' = { b' with tasks := tasks })
    (hb : b.Steady b') : b.Steady b'' := by
  subst h
  exact ⟨hb.config, hb.units, hb.jobs, hb.disabled, hb.cache⟩

theorem drain_steady {u : UnitId} {q : CompileQueue} {ts : List TaskId}
    (h : b.drain? u q = some (ts, b')) : b.Steady b' := by
  simp only [drain?, Option.bind_eq_bind, Option.bind_eq_some_iff, Option.pure_def,
    Option.some.injEq, Prod.mk.injEq] at h
  obtain ⟨⟨ts, q'⟩, -, rfl, rfl⟩ := h
  exact .of_tasks (Withdrawn.foldl (fun b t => ⟨rfl, .ofStale b.tasks t (·.unloaded)⟩) ts _).1
    (b.steady_modifyUnit (fun _ => by rfl) u)

theorem select_steady {u : UnitId} {q : CompileQueue} {chosen : Option TaskId}
    {stale : List TaskId} (h : b.select? u q = some (chosen, stale, b')) : b.Steady b' := by
  simp only [select?, Option.bind_eq_bind, Option.bind_eq_some_iff, Option.pure_def,
    Option.some.injEq, Prod.mk.injEq] at h
  obtain ⟨⟨stale, q₁⟩, -, ⟨ts, q₂⟩, -, -, rfl, rfl⟩ := h
  have htake (ts : List TaskId) (b : Broker) :
      b.Steady (ts.foldl (fun b t => b.modifyTask t fun x => { x with slot := none }) b) := by
    induction ts generalizing b with
    | nil => exact .refl b
    | cons t ts ih =>
      have hone : b.Steady (b.modifyTask t fun x => { x with slot := none }) :=
        ⟨rfl, rfl, rfl, rfl, rfl⟩
      exact hone.trans (ih _)
  refine .trans ?_ (htake ts _)
  exact .of_tasks (Withdrawn.foldl setStale_withdrawn stale _).1
    (b.steady_modifyUnit (fun _ => by rfl) u)

theorem detach_steady (b : Broker) (d : Decompilation) : b.Steady (b.detach d).2 := by
  unfold detach
  split <;> exact ⟨rfl, rfl, rfl, rfl, rfl⟩

/-- What is done from outside leaves the setting alone. -/
theorem operate_steady (b : Broker) (o : Operation) : b.Steady (b.operate o) := by
  cases o with
  | pushDirectives sets =>
    rw [operate]
    split <;> exact ⟨rfl, rfl, rfl, rfl, rfl⟩
  | unpause =>
    rw [operate]
    split <;> exact ⟨rfl, rfl, rfl, rfl, rfl⟩
  | _ => exact ⟨rfl, rfl, rfl, rfl, rfl⟩

/-- The broker after a turn that is given in full. -/
theorem Steady.of_some {turn turn' : Turn} (h : some turn' = some turn)
    (hb : b.Steady turn'.broker) : b.Steady turn.broker := by
  obtain rfl := Option.some.inj h
  exact hb

end Broker

variable {me : Caller} {ch : Choices} {b : Broker} {turn : Turn}

namespace RequestStep

variable {b' : Broker} {s : RequestStep} {q : Inquiry} {t : TaskId} {x : Task}

theorem leave_steady {gaveUp : Bool} (h : leave b' q t x gaveUp = some turn) (hb : b.Steady b') :
    b.Steady turn.broker := by
  unfold leave at h
  split at h <;> exact .of_some h (.of_tasks rfl hb)

theorem wakeUp_steady {watch : Option Watch} (h : wakeUp b ch q t x watch = some turn) :
    b.Steady turn.broker := by
  unfold wakeUp at h
  repeat' split at h
  all_goals first
    | exact leave_steady h (.refl b)
    | exact .of_some h (.refl b)

/-- Requests leave the setting alone. -/
theorem steady (h : s.run me ch b = some turn) : b.Steady turn.broker := by
  cases s <;> rw [run] at h <;> (try simp only at h) <;> repeat' split at h
  all_goals first
    | exact .of_some h ⟨rfl, rfl, rfl, rfl, rfl⟩
    | exact .of_some h ⟨rfl, Table.map_modify_of_eq (fun _ => by rfl) _ _, rfl, rfl, rfl⟩
    | exact wakeUp_steady h
    | exact leave_steady h ⟨rfl, rfl, rfl, rfl, rfl⟩
    | cases h

end RequestStep

theorem TaskStep.steady {s : TaskStep} (h : s.run b = some turn) : b.Steady turn.broker := by
  cases s <;> rw [run] at h <;> (try simp only at h) <;> repeat' split at h
  all_goals exact .of_some h ⟨rfl, rfl, rfl, rfl, rfl⟩

theorem GateStep.steady {s : GateStep} (h : s.run b = some turn) : b.Steady turn.broker := by
  cases s <;> rw [run] at h <;> repeat' split at h
  all_goals first
    | exact .of_some h ⟨rfl, rfl, rfl, rfl, rfl⟩
    | cases h

theorem CrewStep.steady {s : CrewStep} (h : s.run me ch b = some turn) : b.Steady turn.broker := by
  rcases s with u | ⟨u, n⟩ | ⟨u, n, k⟩ | ⟨u, n⟩ | ⟨u, n⟩ | (_ | ⟨u, us⟩) | ⟨u, _ | n, us⟩ | _ <;>
    rw [run] at h <;> (try simp only at h) <;> repeat' split at h
  all_goals first
    | exact .of_some h ⟨rfl, rfl, rfl, rfl, rfl⟩
    | exact .of_some h ⟨rfl, Table.map_modify_of_eq (fun _ => by rfl) _ _, rfl, rfl, rfl⟩
    | cases h

/-! ### Every action -/

/-- A broker with the same setting is what an action makes of it that has nothing to do with the
setting. -/
theorem Broker.Steady.regular {a : Action} {b' : Broker} (h : b.Steady b')
    (hjobs : a.jobs b.config.eviction b.jobs = b.jobs) (hdisables : a.disables = false) :
    b.Regular a b' where
  config := h.config
  units := h.units
  jobs := h.jobs.trans hjobs.symm
  disabled := by rw [h.disabled, hdisables, Bool.or_false]
  cache := h.cache ▸ .same

/-- What a step of control does to the setting. -/
theorem ControlStep.regular {s : ControlStep} (h : s.run me b = some turn) :
    b.Regular (.control s) turn.broker := by
  cases s with
  | resume =>
    rw [run] at h
    split at h
    · rename_i hj
      obtain rfl := Option.some.inj h
      exact ⟨rfl, rfl, by simp [Action.jobs, hj], (Bool.or_false _).symm, .same⟩
    · rename_i hj
      obtain rfl := Option.some.inj h
      exact (Broker.Steady.refl b).regular (if_neg hj) rfl
  | react =>
    rw [run] at h
    split at h
    · rename_i he
      split at h
      · rename_i hj
        obtain rfl := Option.some.inj h
        exact ⟨rfl, rfl, by simp [Action.jobs, he, hj], (Bool.or_false _).symm, .same⟩
      · rename_i hj
        obtain rfl := Option.some.inj h
        exact (Broker.Steady.refl b).regular (if_neg fun hc => hj hc.2) rfl
    · rename_i he
      obtain rfl := Option.some.inj h
      exact (Broker.Steady.refl b).regular (if_neg fun hc => he hc.1) rfl
  | accept on =>
    obtain rfl := Option.some.inj h
    cases on <;> simp only [Broker.accept, Broker.moveJobs, Bool.false_eq_true, if_true, if_false] <;>
      split
    all_goals
      rename_i hj
      exact ⟨rfl, rfl, by simp [Action.jobs, hj], (Bool.or_false _).symm, .same⟩
  | shutdown =>
    rw [run] at h
    split at h
    · rename_i hj
      obtain rfl := Option.some.inj h
      exact (Broker.Steady.refl b).regular hj.symm rfl
    · obtain rfl := Option.some.inj h
      exact ⟨rfl, rfl, rfl, (Bool.or_false _).symm, .same⟩
  | disable =>
    rw [run] at h
    split at h
    · rename_i hd
      obtain rfl := Option.some.inj h
      exact ⟨rfl, rfl, rfl, by simp [hd, Action.disables], .same⟩
    · obtain rfl := Option.some.inj h
      exact ⟨rfl, rfl, rfl, (Bool.or_true _).symm, .same⟩
  | release d id =>
    obtain rfl := Option.some.inj h
    exact ⟨rfl, rfl, rfl, (Bool.or_false _).symm, .release id⟩
  | drain u =>
    refine Broker.Steady.regular ?_ rfl rfl
    rw [run] at h
    repeat' split at h
    all_goals first
      | exact .of_some h (Broker.drain_steady ‹_›)
      | exact .of_some h (.refl b)
      | cases h
  | detach d =>
    refine Broker.Steady.regular ?_ rfl rfl
    have hb := b.detach_steady d
    rw [run] at h
    split at h
    all_goals
      rename_i heq
      rw [heq] at hb
      exact .of_some h hb
  | again ds summary =>
    refine Broker.Steady.regular ?_ rfl rfl
    cases ds with
    | nil => exact .of_some h (.refl b)
    | cons d ds =>
      rw [run] at h
      repeat' split at h
      all_goals exact .of_some h (.refl b)
  | _ =>
    refine Broker.Steady.regular ?_ rfl rfl
    rw [run] at h
    repeat' split at h
    all_goals first
      | exact .of_some h ⟨rfl, rfl, rfl, rfl, rfl⟩
      | exact .of_some h (b.steady_modifyUnit (fun _ => by rfl) _)
      | cases h

namespace WorkerStep

variable {w : WorkerId} {worker : Worker} {unit : TierUnit} {s : WorkerStep} {c : CompileRun}

/-- A back-end may allocate code space. -/
theorem obey_regular {task : Task} {move : BackendMove} (h : obey b w c task unit move = some turn) :
    b.Regular (.worker w (.compile c)) turn.broker := by
  cases move with
  | install total instructions =>
    have hcache := CodeCache.Step.allocate (c := b.cache) unit.config.blobKind total
    rw [obey] at h
    split at h
    all_goals
      rename_i heq
      rw [heq] at hcache
      obtain rfl := Option.some.inj h
      exact ⟨rfl, rfl, rfl, (Bool.or_false _).symm, hcache⟩
  | operate o => exact Broker.Steady.regular (.of_some h (b.operate_steady o)) rfl rfl
  | finish =>
    refine Broker.Steady.regular ?_ rfl rfl
    rw [obey] at h
    split at h <;> exact .of_some h (.refl b)
  | _ => exact Broker.Steady.regular (.of_some h (.refl b)) rfl rfl

/-- What a step of a worker does to the setting. -/
theorem regular (h : s.run me ch b w worker unit = some turn) :
    b.Regular (.worker w s) turn.broker := by
  cases s with
  | compile c =>
    rw [run] at h
    split at h
    · exact Broker.Steady.regular (.of_some h (.refl b)) rfl rfl
    · cases h
    · exact obey_regular h
  | choose =>
    refine Broker.Steady.regular ?_ rfl rfl
    rw [run] at h
    repeat' split at h
    all_goals first
      | exact .of_some h (.refl b)
      | exact .of_some h (b.steady_modifyUnit (fun _ => by rfl) _)
      | (have hb := Broker.select_steady ‹_›
         first
         | exact .of_some h hb
         | exact .of_some h (hb.trans (Broker.steady_modifyUnit _ (fun _ => by rfl) _)))
  | _ =>
    refine Broker.Steady.regular ?_ rfl rfl
    rw [run] at h
    (try simp only at h)
    repeat' split at h
    all_goals first
      | exact .of_some h ⟨rfl, rfl, rfl, rfl, rfl⟩
      | exact .of_some h ⟨rfl, Table.map_modify_of_eq (fun _ => by rfl) _ _, rfl, rfl, rfl⟩
      | cases h

end WorkerStep

/-- What an action does to the setting. -/
theorem Action.run_regular {a : Action} (h : a.run me ch b = some turn) :
    b.Regular a turn.broker := by
  cases a with
  | request s => exact (RequestStep.steady h).regular rfl rfl
  | task s => exact (TaskStep.steady h).regular rfl rfl
  | control s => exact ControlStep.regular h
  | gate s => exact (GateStep.steady h).regular rfl rfl
  | worker w s =>
    rw [run] at h
    split at h
    · exact Broker.Steady.regular (.of_some h (.refl b)) rfl rfl
    · split at h
      · exact Broker.Steady.regular (.of_some h (.refl b)) rfl rfl
      · exact WorkerStep.regular h
  | crew s => exact (CrewStep.steady h).regular rfl rfl
  | answer r => exact Broker.Steady.regular (.of_some h (.refl b)) rfl rfl
  | fault => cases h

namespace System

variable {s : System} {m : Move}

/-- A move that runs an action changes the setting as the action does. -/
theorem regular_of_ran {a : Action} (h : s.ran m = some a) : s.broker.Regular a (s.move m).broker := by
  cases m with
  | step i ch =>
    rw [ran] at h
    split at h
    · rename_i t s' ht hstep
      obtain ⟨t', a', rest, turn, ht', ha, hrun, rfl⟩ := step_eq_some_iff.1 hstep
      obtain rfl := Option.some.inj (ht.symm.trans ht')
      rw [ha, List.head?_cons] at h
      obtain rfl := Option.some.inj h
      rw [move, hstep]
      exact Action.run_regular hrun
    · cases h
  | call c n => cases h
  | operate o => cases h

/-- Other moves leave the setting alone. -/
theorem steady_of_ran_eq_none (h : s.ran m = none) : s.broker.Steady (s.move m).broker := by
  cases m with
  | step i ch =>
    cases hstep : s.step i ch with
    | none =>
      rw [move, hstep]
      exact .refl _
    | some s' =>
      obtain ⟨t, a, rest, turn, ht, ha, -, -⟩ := step_eq_some_iff.1 hstep
      simp [ran, ht, hstep, ha] at h
  | call c n => exact .refl _
  | operate o => exact s.broker.operate_steady o

/-- The configuration stays. -/
theorem config_move (s : System) (m : Move) : (s.move m).broker.config = s.broker.config := by
  cases hran : s.ran m with
  | none => exact (steady_of_ran_eq_none hran).config
  | some a => exact (regular_of_ran hran).config

/-- So do those of the units. -/
theorem unitConfigs_move (s : System) (m : Move) :
    (s.move m).broker.unitConfigs = s.broker.unitConfigs := by
  cases hran : s.ran m with
  | none => exact (steady_of_ran_eq_none hran).units
  | some a => exact (regular_of_ran hran).units

/-- In every state the configuration is that of the first one. -/
theorem Reachable.config {first : System} (h : Reachable first s) :
    s.broker.config = first.broker.config := by
  induction h with
  | first => rfl
  | @move s m _ ih => exact (s.config_move m).trans ih

/-- So are those of the units. -/
theorem Reachable.unitConfigs {first : System} (h : Reachable first s) :
    s.broker.unitConfigs = first.broker.unitConfigs := by
  induction h with
  | first => rfl
  | @move s m _ ih => exact (s.unitConfigs_move m).trans ih

end System

end JitBroker
