import JitBroker.Proofs.Fittings
import JitBroker.Proofs.Kinds

/-!
# Which steps count

A worker that has the result of a compile takes two steps with it, one after the other: it tells the
back-end, if the compile was successful, and counts the compile in the statistics. No other step
counts a compile (`Action.run_uncounted`), and nobody is to count one but a worker that has taken
the first of the two steps (`Action.run_fair`).
-/

namespace JitBroker

/-! ### Steps that count nothing -/

/-- The sizes of methods stay. -/
def Broker.Sized (b b' : Broker) : Prop := ∀ {m : MethodId} {x : Method}, b.methods[m]? = some x →
  ∃ x', b'.methods[m]? = some x' ∧ x'.bytecodeSize = x.bytecodeSize

/-- A broker that has counted the same, whose methods have the sizes that they had. -/
structure Broker.Uncounted (b b' : Broker) : Prop where
  /-- The same compiles are counted over all tiers. -/
  total : b'.stats.total = b.stats.total
  /-- And for each tier. -/
  tiers : b'.stats.tiers = b.stats.tiers
  /-- And by the back-ends. -/
  backends : b'.units.map (·.stats) = b.units.map (·.stats)
  /-- The methods are as large as they were. -/
  sizes : b.Sized b'

namespace Method

@[simp] theorem bytecodeSize_prohibit (m : Method) (osr : Bool) (tier : Tier) :
    (m.prohibit osr tier).bytecodeSize = m.bytecodeSize := by
  unfold prohibit
  split <;> rfl

@[simp] theorem bytecodeSize_linkNative (m : Method) :
    m.linkNative.2.bytecodeSize = m.bytecodeSize := by
  unfold linkNative
  split <;> rfl

@[simp] theorem bytecodeSize_install (m : Method) (c : InstalledCode) :
    (m.install c).bytecodeSize = m.bytecodeSize := by
  unfold install
  split <;> rfl

@[simp] theorem bytecodeSize_afterFailure (m : Method) (osr : Bool) (tier : Tier)
    (scope : Option FailureScope) :
    (m.afterFailure osr tier scope).bytecodeSize = m.bytecodeSize := by
  unfold afterFailure
  split <;> simp [prohibitAll]

@[simp] theorem bytecodeSize_detach (m : Method) (bci : Int) (tier : Tier) :
    (m.detach bci tier).2.bytecodeSize = m.bytecodeSize := by
  unfold detach
  repeat' split
  all_goals rfl

end Method

namespace Broker

variable {b b' b'' : Broker}

theorem Uncounted.refl (b : Broker) : b.Uncounted b := ⟨rfl, rfl, rfl, fun h => ⟨_, h, rfl⟩⟩

theorem Uncounted.trans (h : b.Uncounted b') (h' : b'.Uncounted b'') : b.Uncounted b'' where
  total := h'.total.trans h.total
  tiers := h'.tiers.trans h.tiers
  backends := h'.backends.trans h.backends
  sizes hx := by
    obtain ⟨x', hx', hsize⟩ := h.sizes hx
    obtain ⟨x'', hx'', hsize'⟩ := h'.sizes hx'
    exact ⟨x'', hx'', hsize'.trans hsize⟩

/-- Brokers whose statistics, back-ends and methods are the same have counted the same. -/
theorem Uncounted.of_eq (hstats : b'.stats = b.stats) (hunits : b'.units.map (·.stats) =
    b.units.map (·.stats)) (hmethods : b'.methods = b.methods) : b.Uncounted b' :=
  ⟨congrArg _ hstats, congrArg _ hstats, hunits, fun h => ⟨_, hmethods ▸ h, rfl⟩⟩

/-- Changing a unit but for the statistics of its back-end counts nothing. -/
theorem uncounted_modifyUnit (b : Broker) {f : TierUnit → TierUnit} (hf : ∀ x, (f x).stats = x.stats)
    (u : UnitId) : b.Uncounted (b.modifyUnit u f) :=
  .of_eq rfl (Table.map_modify_of_eq hf b.units u) rfl

/-- Neither does a change of a method that keeps its size. -/
theorem uncounted_modifyMethod (b : Broker) {f : Method → Method}
    (hf : ∀ x, (f x).bytecodeSize = x.bytecodeSize) (m : MethodId) :
    b.Uncounted (b.modifyMethod m f) := by
  refine ⟨rfl, rfl, rfl, fun {n x} hx => ?_⟩
  by_cases hmn : m = n
  · subst hmn
    exact ⟨f x, Table.getElem?_modify_self hx f, hf x⟩
  · exact ⟨x, (Table.getElem?_modify_of_ne hmn f).trans hx, rfl⟩

/-- Neither does what the statistics count beside compiles. -/
theorem Uncounted.of_stats {stats : Statistics} (htotal : stats.total = b.stats.total)
    (htiers : stats.tiers = b.stats.tiers) : b.Uncounted { b with stats := stats } :=
  ⟨htotal, htiers, rfl, fun h => ⟨_, h, rfl⟩⟩

/-- So does a change that is seen in the records of tasks only. -/
theorem Uncounted.of_tasks {tasks : Table Task} (h : b'' = { b' with tasks := tasks })
    (hb : b.Uncounted b') : b.Uncounted b'' := by
  subst h
  exact ⟨hb.total, hb.tiers, hb.backends, hb.sizes⟩

theorem Uncounted.of_some {turn turn' : Turn} (h : some turn' = some turn)
    (hb : b.Uncounted turn'.broker) : b.Uncounted turn.broker := by
  obtain rfl := Option.some.inj h
  exact hb

theorem drain_uncounted {u : UnitId} {q : CompileQueue} {ts : List TaskId}
    (h : b.drain? u q = some (ts, b')) : b.Uncounted b' := by
  simp only [drain?, Option.bind_eq_bind, Option.bind_eq_some_iff, Option.pure_def,
    Option.some.injEq, Prod.mk.injEq] at h
  obtain ⟨⟨ts, q'⟩, -, rfl, rfl⟩ := h
  exact .of_tasks (Withdrawn.foldl (fun b t => ⟨rfl, .ofStale b.tasks t (·.unloaded)⟩) ts _).1
    (b.uncounted_modifyUnit (fun _ => by rfl) u)

theorem select_uncounted {u : UnitId} {q : CompileQueue} {chosen : Option TaskId}
    {stale : List TaskId} (h : b.select? u q = some (chosen, stale, b')) : b.Uncounted b' := by
  simp only [select?, Option.bind_eq_bind, Option.bind_eq_some_iff, Option.pure_def,
    Option.some.injEq, Prod.mk.injEq] at h
  obtain ⟨⟨stale, q₁⟩, -, ⟨ts, q₂⟩, -, -, rfl, rfl⟩ := h
  have htake (ts : List TaskId) (b : Broker) :
      b.Uncounted (ts.foldl (fun b t => b.modifyTask t fun x => { x with slot := none }) b) := by
    induction ts generalizing b with
    | nil => exact .refl b
    | cons t ts ih =>
      have hone : b.Uncounted (b.modifyTask t fun x => { x with slot := none }) :=
        .of_tasks rfl (.refl b)
      exact hone.trans (ih _)
  refine .trans ?_ (htake ts _)
  exact .of_tasks (Withdrawn.foldl setStale_withdrawn stale _).1
    (b.uncounted_modifyUnit (fun _ => by rfl) u)

theorem detach_uncounted (b : Broker) (d : Decompilation) : b.Uncounted (b.detach d).2 := by
  unfold detach
  split
  · exact b.uncounted_modifyMethod (fun _ => by simp) _
  · exact .refl b

/-- What is done from outside counts nothing. -/
theorem operate_uncounted (b : Broker) (o : Operation) : b.Uncounted (b.operate o) := by
  cases o with
  | addMethod x =>
    refine ⟨rfl, rfl, rfl, fun {m y} hy => ⟨y, ?_, rfl⟩⟩
    exact (Table.getElem?_add_of_lt (Table.lt_size_of_getElem? hy) _).trans hy
  | redefine m | breakpoints m present | link m | prohibit m osr tier | prohibitAll m
  | close m region =>
    exact b.uncounted_modifyMethod (fun _ => by simp [Method.prohibitAll, Method.closeCode]) _
  | pushDirectives sets =>
    rw [operate]
    split <;> exact .of_eq rfl rfl rfl
  | unpause =>
    rw [operate]
    split <;> exact .of_eq rfl rfl rfl
  | _ => exact .of_eq rfl rfl rfl

end Broker

variable {me : Caller} {ch : Choices} {b : Broker} {turn : Turn}

namespace RequestStep

variable {b' : Broker} {s : RequestStep} {q : Inquiry} {t : TaskId} {x : Task}

theorem leave_uncounted {gaveUp : Bool} (h : leave b' q t x gaveUp = some turn)
    (hb : b.Uncounted b') : b.Uncounted turn.broker := by
  unfold leave at h
  split at h <;> exact .of_some h (.of_tasks rfl hb)

theorem wakeUp_uncounted {watch : Option Watch} (h : wakeUp b ch q t x watch = some turn) :
    b.Uncounted turn.broker := by
  unfold wakeUp at h
  repeat' split at h
  all_goals first
    | exact leave_uncounted h (.refl b)
    | exact .of_some h (.refl b)

theorem unlock_uncounted (b : Broker) (q : Inquiry) : b.Uncounted (unlock b q) :=
  b.uncounted_modifyUnit (fun _ => by rfl) _

/-- Requests count no compile. -/
theorem uncounted (h : s.run me ch b = some turn) : b.Uncounted turn.broker := by
  cases s with
  | unclaim q e =>
    exact .of_some h ((unlock_uncounted b q).trans (Broker.uncounted_modifyMethod _ (fun _ => by rfl) _))
  | append q t =>
    rw [run] at h
    repeat' split at h
    all_goals first
      | exact .of_some h (.refl b)
      | exact .of_some h (.of_tasks rfl (b.uncounted_modifyUnit (fun _ => by rfl) _))
  | _ =>
    -- A step answers, or changes its queue, its task or its method, or draws a number.
    rw [run] at h
    (try simp only at h)
    repeat' split at h
    all_goals first
      | exact .of_some h (.refl b)
      | exact .of_some h (.of_eq rfl rfl rfl)
      | exact wakeUp_uncounted h
      | exact leave_uncounted h (.of_tasks rfl (.refl b))
      | exact .of_some h (unlock_uncounted b _)
      | exact .of_some h (b.uncounted_modifyMethod (fun _ => by simp) _)
      | exact .of_some h (b.uncounted_modifyUnit (fun _ => by rfl) _)
      | exact .of_some h ((unlock_uncounted b _).trans
          (Broker.uncounted_modifyMethod _ (fun _ => by simp) _))
      | exact .of_some h (.trans (.of_tasks rfl (.refl b))
          (Broker.uncounted_modifyMethod _ (fun _ => by rfl) _))
      | cases h

end RequestStep

theorem TaskStep.uncounted {s : TaskStep} (h : s.run b = some turn) : b.Uncounted turn.broker := by
  cases s <;> rw [run] at h <;> repeat' split at h
  all_goals first
    | exact .of_some h (.of_stats rfl rfl)
    | exact .of_some h (.of_eq rfl rfl rfl)
    | exact .of_some h (b.uncounted_modifyMethod (fun _ => by rfl) _)

theorem ControlStep.uncounted {s : ControlStep} (h : s.run me b = some turn) :
    b.Uncounted turn.broker := by
  cases s with
  | drain u =>
    rw [run] at h
    repeat' split at h
    all_goals first
      | exact .of_some h (Broker.drain_uncounted ‹_›)
      | exact .of_some h (.refl b)
      | cases h
  | detach d =>
    have hb := b.detach_uncounted d
    rw [run] at h
    split at h
    all_goals
      rename_i heq
      rw [heq] at hb
      exact .of_some h hb
  | again ds summary =>
    cases ds with
    | nil => exact .of_some h (.refl b)
    | cons d ds =>
      rw [run] at h
      repeat' split at h
      all_goals exact .of_some h (.refl b)
  | accept on =>
    refine .of_some h ?_
    cases on <;> simp only [Broker.accept, Broker.moveJobs, Bool.false_eq_true, if_true, if_false] <;>
      split <;> exact .of_eq rfl rfl rfl
  | _ =>
    rw [run] at h
    repeat' split at h
    all_goals first
      | exact .of_some h (.refl b)
      | exact .of_some h (.of_eq rfl rfl rfl)
      | exact .of_some h (.of_stats rfl rfl)
      | exact .of_some h (b.uncounted_modifyUnit (fun _ => by rfl) _)
      | cases h

theorem GateStep.uncounted {s : GateStep} (h : s.run b = some turn) : b.Uncounted turn.broker := by
  cases s <;> rw [run] at h <;> repeat' split at h
  all_goals first
    | exact .of_some h (.of_eq rfl rfl rfl)
    | cases h

theorem CrewStep.uncounted {s : CrewStep} (h : s.run me ch b = some turn) :
    b.Uncounted turn.broker := by
  rcases s with u | ⟨u, n⟩ | ⟨u, n, k⟩ | ⟨u, n⟩ | ⟨u, n⟩ | (_ | ⟨u, us⟩) | ⟨u, _ | n, us⟩ | _ <;>
    rw [run] at h <;> (try simp only at h) <;> repeat' split at h
  all_goals first
    | exact .of_some h (.of_eq rfl rfl rfl)
    | exact .of_some h (.of_eq rfl (Table.map_modify_of_eq (fun _ => by rfl) _ _) rfl)
    | cases h

/-! ### The two steps that count -/

/-- Whether a worker tells the back-end of a compile, or counts it. -/
def Action.scores : Action → Bool
  | .worker _ (.rule _) | .worker _ (.count _) => true
  | _ => false

/-- Whether a worker counts a compile. -/
def Action.counts : Action → Bool
  | .worker _ (.count _) => true
  | _ => false

/-- The compile that a worker may tell its back-end of. -/
def Action.ruled? : Action → Option Finished
  | .worker _ (.rule f) => some f
  | _ => none

/-- A compile is a success if there is no reason for a failure. -/
def Finished.Judged (f : Finished) : Prop := f.result.success = f.result.failure.isNone

theorem CompileRun.judged_refuse (c : CompileRun) (reason : FailureReason) :
    (c.refuse reason).Judged := rfl

theorem CompileRun.judged_finished (c : CompileRun) : c.finished.Judged := rfl

/-- An action that is not to count a compile, and tells the back-end of a compile that was judged. -/
def Action.Fair (a : Action) : Prop := a.counts = false ∧ ∀ f ∈ a.ruled?, f.Judged

theorem Action.fair_of_scores {a : Action} (h : a.scores = false) : a.Fair := by
  unfold Fair counts ruled?
  split
  · cases h
  split
  · cases h
  · exact ⟨rfl, fun f hf => by cases hf⟩

theorem Action.fair_of_kind {a : Action} (h : a.kind ≠ .worker) : a.Fair := by
  refine fair_of_scores ?_
  unfold scores
  split
  · exact absurd rfl h
  · exact absurd rfl h
  · rfl

theorem Action.fair_rule {w : WorkerId} {f : Finished} (h : f.Judged) :
    (Action.worker w (.rule f)).Fair := ⟨rfl, fun _ hf => Option.some.inj hf ▸ h⟩

/-- A turn that brings such actions only. -/
def Turn.Fair (turn : Turn) : Prop := ∀ a ∈ turn.next, a.Fair

namespace Turn.Fair

theorem of_some {turn' : Turn} (h : some turn' = some turn) (ht : turn'.Fair) : turn.Fair := by
  obtain rfl := Option.some.inj h
  exact ht

/-- Where the actions are known, this can be computed. -/
theorem of_all {next : List Action} {reply : Option Reply} {hired : Option WorkerId}
    (h : next.all (!·.scores) = true) :
    Fair { broker := b, next := next, reply := reply, hired := hired } := by
  intro a ha
  exact Action.fair_of_scores (by simpa using List.all_eq_true.1 h a ha)

theorem single {a : Action} {reply : Option Reply} (h : a.Fair) :
    Fair { broker := b, next := [a], reply := reply } := List.forall_mem_singleton.2 h

theorem concat {as : List Action} {a : Action} (h : ∀ a ∈ as, a.Fair) (ha : a.Fair) :
    Fair { broker := b, next := as ++ [a] } :=
  List.forall_mem_append.2 ⟨h, List.forall_mem_singleton.2 ha⟩

/-- Only workers bring steps of workers. -/
theorem of_kind {k : Action.Kind} (h : turn.Kin k) (hk : k.brings .worker = false) : turn.Fair := by
  intro a ha
  refine Action.fair_of_kind fun hkind => ?_
  have hbrings := h a ha
  rw [hkind, hk] at hbrings
  cases hbrings

end Turn.Fair

namespace WorkerStep

variable {w : WorkerId} {worker : Worker} {unit : TierUnit} {s : WorkerStep} {c : CompileRun}

theorem obey_uncounted {task : Task} {move : BackendMove}
    (h : obey b w c task unit move = some turn) : b.Uncounted turn.broker := by
  cases move with
  | operate o => exact .of_some h (b.operate_uncounted o)
  | _ =>
    rw [obey] at h
    repeat' split at h
    all_goals exact .of_some h (.of_eq rfl rfl rfl)

theorem obey_fair {task : Task} {move : BackendMove} (h : obey b w c task unit move = some turn) :
    turn.Fair := by
  cases move with
  | call call =>
    refine .of_some h (.concat (fun a ha => Action.fair_of_kind fun hkind => ?_)
      (Action.fair_of_scores rfl))
    have hcall := Call.kind_of_mem ha
    rw [hkind] at hcall
    revert hcall
    decide
  | _ =>
    rw [obey] at h
    repeat' split at h
    all_goals exact .of_some h (.of_all rfl)

/-- The other steps of a worker count no compile. -/
theorem uncounted (hscores : (Action.worker w s).scores = false)
    (h : s.run me ch b w worker unit = some turn) : b.Uncounted turn.broker := by
  cases s with
  | rule f | count f => cases hscores
  | compile c =>
    rw [run] at h
    split at h
    · exact .of_some h (.refl b)
    · cases h
    · exact obey_uncounted h
  | choose =>
    rw [run] at h
    repeat' split at h
    all_goals first
      | exact .of_some h (.refl b)
      | exact .of_some h (b.uncounted_modifyUnit (fun _ => by rfl) _)
      | (have hb := Broker.select_uncounted ‹_›
         first
         | exact .of_some h hb
         | exact .of_some h (hb.trans (Broker.uncounted_modifyUnit _ (fun _ => by rfl) _)))
  | _ =>
    rw [run] at h
    repeat' split at h
    all_goals first
      | exact .of_some h (.of_eq rfl rfl rfl)
      | exact .of_some h (.of_stats rfl rfl)
      | exact .of_some h (b.uncounted_modifyUnit (fun _ => by rfl) _)
      | exact .of_some h (b.uncounted_modifyMethod (fun _ => by simp) _)
      | exact .of_some h (.of_eq rfl (Table.map_modify_of_eq (fun _ => by rfl) _ _) rfl)
      | cases h

/-- A worker comes to count a compile only by telling the back-end of it. -/
theorem fair (hscores : (Action.worker w s).scores = false)
    (h : s.run me ch b w worker unit = some turn) : turn.Fair := by
  cases s with
  | rule f | count f => cases hscores
  | compile c =>
    rw [run] at h
    split at h
    · exact .of_some h (.of_all rfl)
    · cases h
    · exact obey_fair h
  | choose =>
    rw [run] at h
    repeat' split at h
    all_goals first
      | exact .of_some h (.of_all rfl)
      | (refine .of_some h (.concat (fun a ha => Action.fair_of_kind ?_) (Action.fair_of_scores rfl))
         rw [Action.kind_stale _ a ha]
         decide)
  | examine c =>
    rw [run] at h
    repeat' split at h
    all_goals first
      | exact .of_some h (.of_all rfl)
      | exact .of_some h (.single (Action.fair_rule (c.judged_refuse _)))
  | giveUp c =>
    rw [run] at h
    split at h
    · exact .of_some h (.of_all rfl)
    · exact .of_some h (.single (Action.fair_rule (c.judged_refuse _)))
  | judge c =>
    -- The result comes from whether there is a failure, so that it was judged.
    refine .of_some h (.concat (fun a ha => ?_) (Action.fair_rule c.judged_finished))
    obtain ⟨kind, -, rfl⟩ := List.mem_map.1 ha
    exact Action.fair_of_scores rfl
  | settle =>
    rw [run] at h
    split at h <;> exact .of_some h (.of_all rfl)
  | _ =>
    rw [run] at h
    repeat' split at h
    all_goals first
      | exact .of_some h (.of_all rfl)
      | cases h

end WorkerStep

/-- No other action counts a compile. -/
theorem Action.run_uncounted {a : Action} (hscores : a.scores = false)
    (h : a.run me ch b = some turn) : b.Uncounted turn.broker := by
  cases a with
  | request s => exact RequestStep.uncounted h
  | task s => exact TaskStep.uncounted h
  | control s => exact ControlStep.uncounted h
  | gate s => exact GateStep.uncounted h
  | worker w s =>
    rw [run] at h
    repeat' split at h
    · exact .of_some h (.refl b)
    · exact .of_some h (.refl b)
    · exact WorkerStep.uncounted hscores h
  | crew s => exact CrewStep.uncounted h
  | answer r => exact .of_some h (.refl b)
  | fault => cases h

/-- No other action leads to the count of a compile. -/
theorem Action.run_fair {a : Action} (hscores : a.scores = false) (h : a.run me ch b = some turn) :
    turn.Fair := by
  cases a with
  | worker w s =>
    rw [run] at h
    repeat' split at h
    · exact .of_some h (.of_all rfl)
    · exact .of_some h (.of_all rfl)
    · exact WorkerStep.fair hscores h
  | task s =>
    refine .of_kind (Action.brings_of_run h) ?_
    rcases Action.kind_task s with hk | hk <;> rw [hk] <;> rfl
  | request s | control s =>
    refine .of_kind (Action.brings_of_run h) ?_
    cases s <;> rfl
  | _ => exact .of_kind (Action.brings_of_run h) rfl

end JitBroker
