import JitBroker.Proofs.Agenda

/-!
# What comes of what

A step may put other actions in the place of its own, but not any: a request goes on as a request,
nobody but a replay and a call enters a new one, a decompilation is recorded only if code was
detached for it, crews are enlarged by crews and by workers that have finished a task, and only a
worker makes steps of a worker, or ends a task as one that it has worked on. So actions fall into
kinds, with a table of the kinds that each may bring (`Action.Kind.brings`), and every step goes by
the table (`Action.brings_of_run`).
-/

namespace JitBroker

/-- The kinds of actions, as far as it matters what brings them. -/
inductive Action.Kind where
  /-- The first step of a request. -/
  | enter
  /-- A later step of a request. -/
  | request
  /-- A step in which a worker ends a task that it has worked on. -/
  | report
  /-- Any other step that ends a task. -/
  | task
  /-- A step that detaches code. -/
  | detach
  /-- The record of a decompilation. -/
  | record
  /-- A step of a replay. -/
  | replay
  /-- Any other step of control. -/
  | control
  /-- A step at the gate. -/
  | gate
  /-- The step in which a worker writes the result of a task. -/
  | publish
  /-- The last step of a worker with a task. -/
  | settle
  /-- Any other step of a worker. -/
  | worker
  /-- A step that enlarges a crew. -/
  | crew
  /-- An answer. -/
  | answer
  /-- A standstill. -/
  | fault
  deriving DecidableEq

/-- The kind of an action. -/
def Action.kind : Action → Action.Kind
  | .request (.enter _) => .enter
  | .request _ => .request
  | .task (.complete _ .worker) | .task (.complete _ .requester) | .task (.free _ .worker) => .report
  | .task _ => .task
  | .control (.detach _) => .detach
  | .control (.record _) => .record
  | .control .replay | .control (.again _ _) | .control (.tally _ _) => .replay
  | .control _ => .control
  | .gate _ => .gate
  | .worker _ (.publish _) => .publish
  | .worker _ .settle => .settle
  | .worker _ _ => .worker
  | .crew _ => .crew
  | .answer _ => .answer
  | .fault => .fault

theorem Action.kind_task (s : TaskStep) :
    (Action.task s).kind = .report ∨ (Action.task s).kind = .task := by
  cases s with
  | complete t who | free t who => cases who <;> simp [kind]
  | _ => exact .inr rfl

/-- Whether an action of the first kind may bring one of the second. -/
def Action.Kind.brings : Action.Kind → Action.Kind → Bool
  | .enter, .request | .enter, .fault => true
  | .request, .request | .request, .control | .request, .task | .request, .fault => true
  | .report, .report | .report, .task | .report, .fault => true
  | .task, .task | .task, .fault => true
  | .detach, .control | .detach, .record | .detach, .answer => true
  | .replay, .replay | .replay, .enter | .replay, .fault => true
  | .control, .control | .control, .task | .control, .fault => true
  | .gate, .gate => true
  | .publish, .report | .publish, .settle | .publish, .fault => true
  | .settle, .worker | .settle, .crew | .settle, .fault => true
  | .worker, .request | .worker, .record | .worker, .crew | .worker, .report => false
  | .worker, _ => true
  | .crew, .crew | .crew, .control | .crew, .answer | .crew, .fault => true
  | _, _ => false

/-- A turn goes by the table. -/
def Turn.Kin (k : Action.Kind) (turn : Turn) : Prop := ∀ a ∈ turn.next, k.brings a.kind = true

variable {me : Caller} {ch : Choices} {b b' : Broker} {turn : Turn} {k : Action.Kind}

namespace Turn.Kin

theorem of_some {turn' : Turn} (h : some turn' = some turn) (ht : turn'.Kin k) : turn.Kin k := by
  obtain rfl := Option.some.inj h
  exact ht

/-- Where the actions are known, the table answers. -/
theorem of_all {next : List Action} {reply : Option Reply} {hired : Option WorkerId}
    (h : next.all (fun a => k.brings a.kind) = true) :
    Kin k { broker := b, next := next, reply := reply, hired := hired } := List.all_eq_true.1 h

theorem append {as as' : List Action} (h : ∀ a ∈ as, k.brings a.kind = true)
    (h' : as'.all (fun a => k.brings a.kind) = true) :
    Kin k { broker := b, next := as ++ as' } := by
  intro a ha
  rcases List.mem_append.1 ha with ha | ha
  · exact h a ha
  · exact List.all_eq_true.1 h' a ha

end Turn.Kin

/-- To end stale tasks is to end tasks. -/
theorem Action.kind_stale (ts : List TaskId) : ∀ a ∈ ts.flatMap stale, a.kind = .task := by
  intro a ha
  obtain ⟨t, -, ha⟩ := List.mem_flatMap.1 ha
  obtain ⟨s, hs, rfl⟩ := List.mem_map.1 ha
  simp only [TaskStep.stale, List.mem_cons, List.not_mem_nil, or_false] at hs
  rcases hs with rfl | rfl | rfl | rfl <;> rfl

namespace RequestStep

variable {s : RequestStep} {q : Inquiry} {t : TaskId} {x : Task}

theorem leave_kin {gaveUp : Bool} (h : leave b q t x gaveUp = some turn) : turn.Kin .request := by
  unfold leave at h
  split at h <;> exact .of_some h (.of_all rfl)

theorem wakeUp_kin {watch : Option Watch} (h : wakeUp b ch q t x watch = some turn) :
    turn.Kin .request := by
  unfold wakeUp at h
  repeat' split at h
  all_goals first
    | exact leave_kin h
    | exact .of_some h (.of_all rfl)

/-- A request goes on as a request. -/
theorem kin (h : s.run me ch b = some turn) : turn.Kin (Action.request s).kind := by
  cases s <;> rw [run] at h <;> (try simp only at h) <;> repeat' split at h
  all_goals first
    | exact .of_some h (.of_all rfl)
    | exact wakeUp_kin h
    | exact leave_kin h
    | cases h

end RequestStep

/-- Who ends a task goes on with its end. -/
theorem TaskStep.kin {s : TaskStep} (h : s.run b = some turn) : turn.Kin (Action.task s).kind := by
  cases s with
  | complete t who | free t who =>
    rw [run] at h
    cases who <;> repeat' split at h
    all_goals exact .of_some h (.of_all rfl)
  | _ =>
    rw [run] at h
    repeat' split at h
    all_goals exact .of_some h (.of_all rfl)

/-- Steps of control that are neither decompilation nor replay, by a list. -/
theorem ControlStep.kind_map {ss : List ControlStep}
    (h : ss.all (fun s => decide ((Action.control s).kind = .control)) = true) :
    ∀ a ∈ ss.map Action.control, Action.Kind.control.brings a.kind = true := by
  intro a ha
  obtain ⟨s, hs, rfl⟩ := List.mem_map.1 ha
  rw [of_decide_eq_true (List.all_eq_true.1 h s hs)]
  rfl

/-- A step of control goes on as its kind does. -/
theorem ControlStep.kin {s : ControlStep} (h : s.run me b = some turn) :
    turn.Kin (Action.control s).kind := by
  cases s with
  | disable =>
    rw [run] at h
    split at h
    · exact .of_some h (.of_all rfl)
    · refine .of_some h (ControlStep.kind_map (List.all_eq_true.2 fun s hs => ?_))
      simp only [List.mem_append, List.mem_flatMap, List.mem_pair, List.mem_singleton] at hs
      rcases hs with ⟨u, -, rfl | rfl⟩ | rfl <;> rfl
  | drain u =>
    rw [run] at h
    repeat' split at h
    all_goals first
      | exact .of_some h (.of_all rfl)
      | exact .of_some h fun a ha => by rw [Action.kind_stale _ a ha]; rfl
      | cases h
  | rouse =>
    rw [run] at h
    split at h
    · cases h
    · exact .of_some h (ControlStep.kind_map (by simp [Action.kind]))
  | nudge w =>
    rw [run] at h
    split at h
    · exact .of_some h (.of_all rfl)
    · refine .of_some h fun a ha => ?_
      obtain ⟨t, -, rfl⟩ := List.mem_map.1 ha
      rfl
  | shutdown =>
    rw [run] at h
    split at h
    · exact .of_some h (.of_all rfl)
    · refine .of_some h (ControlStep.kind_map (List.all_eq_true.2 fun s hs => ?_))
      simp only [List.mem_append, List.mem_cons, List.mem_map] at hs
      rcases hs with (rfl | ⟨u, -, rfl⟩) | hs
      · rfl
      · rfl
      · split at hs
        · exact absurd hs List.not_mem_nil
        · rw [List.mem_singleton.1 hs]
          rfl
  | joinAll =>
    rw [run] at h
    split at h
    · cases h
    · exact .of_some h (ControlStep.kind_map (by simp [Action.kind]))
  | detach d =>
    rw [run] at h
    split at h
    · refine .of_some h (.of_all ?_)
      cases Broker.unitOf? _ d.tier <;> rfl
    · exact .of_some h (.of_all rfl)
  | again ds summary =>
    cases ds with
    | nil => exact .of_some h (.of_all rfl)
    | cons d ds =>
      rw [run] at h
      repeat' split at h
      all_goals exact .of_some h (.of_all rfl)
  | _ =>
    rw [run] at h
    repeat' split at h
    all_goals first
      | exact .of_some h (.of_all rfl)
      | cases h

theorem GateStep.kin {s : GateStep} (h : s.run b = some turn) : turn.Kin .gate := by
  cases s <;> rw [run] at h <;> repeat' split at h
  all_goals first
    | exact .of_some h (.of_all rfl)
    | cases h

theorem CrewStep.kin {s : CrewStep} (h : s.run me ch b = some turn) : turn.Kin .crew := by
  rcases s with u | ⟨u, n⟩ | ⟨u, n, k⟩ | ⟨u, n⟩ | ⟨u, n⟩ | (_ | ⟨u, us⟩) | ⟨u, _ | n, us⟩ | _ <;>
    rw [run] at h <;> (try simp only at h) <;> repeat' split at h
  all_goals first
    | exact .of_some h (.of_all rfl)
    | cases h

/-- A call is neither a later step of a request, nor the record of a decompilation, nor a step of a
worker or of a crew. -/
theorem Call.kind_of_mem {c : Call} {a : Action} (h : a ∈ c.agenda) :
    a.kind ∈ [Action.Kind.enter, .detach, .replay, .control, .answer] := by
  revert a
  cases c <;> simp [agenda, Action.kind]

namespace WorkerStep

variable {w : WorkerId} {worker : Worker} {unit : TierUnit} {s : WorkerStep} {c : CompileRun}

theorem obey_kin {task : Task} {move : BackendMove} (h : obey b w c task unit move = some turn) :
    turn.Kin .worker := by
  cases move with
  | call call =>
    refine .of_some h (.append (fun a ha => ?_) rfl)
    have hkind := Call.kind_of_mem ha
    revert hkind
    cases a.kind <;> decide
  | _ =>
    rw [obey] at h
    repeat' split at h
    all_goals exact .of_some h (.of_all rfl)

/-- A worker goes on as its kind does. -/
theorem kin (h : s.run me ch b w worker unit = some turn) : turn.Kin (Action.worker w s).kind := by
  cases s with
  | compile c =>
    rw [run] at h
    split at h
    · exact .of_some h (.of_all rfl)
    · cases h
    · exact obey_kin h
  | choose =>
    rw [run] at h
    repeat' split at h
    all_goals first
      | exact .of_some h (.of_all rfl)
      | exact .of_some h (.append (fun a ha => by rw [Action.kind_stale _ a ha]; rfl) rfl)
  | judge c =>
    rw [run] at h
    cases hf : c.report.cacheFull <;> rw [hf] at h <;> exact .of_some h (.of_all rfl)
  | settle =>
    rw [run] at h
    split at h <;> exact .of_some h (.of_all rfl)
  | _ =>
    rw [run] at h
    (try simp only at h)
    repeat' split at h
    all_goals first
      | exact .of_some h (.of_all rfl)
      | cases h

end WorkerStep

/-- Every step goes by the table. -/
theorem Action.brings_of_run {a : Action} (h : a.run me ch b = some turn) : turn.Kin a.kind := by
  cases a with
  | request s => exact RequestStep.kin h
  | task s => exact TaskStep.kin h
  | control s => exact ControlStep.kin h
  | gate s => exact GateStep.kin h
  | worker w s =>
    rw [run] at h
    repeat' split at h
    · cases s <;> exact .of_some h (.of_all rfl)
    · cases s <;> exact .of_some h (.of_all rfl)
    · exact WorkerStep.kin h
  | crew s => exact CrewStep.kin h
  | answer r => exact .of_some h (.of_all rfl)
  | fault => cases h

/-- Only a request goes on as a request. -/
theorem Action.exists_request_of_brings {a : Action} (h : a.kind.brings .request = true) :
    ∃ s, a = .request s := by
  cases a with
  | request s => exact ⟨s, rfl⟩
  | control s => cases s <;> cases h
  | worker w s => cases s <;> cases h
  | task s => rcases Action.kind_task s with hk | hk <;> rw [hk] at h <;> cases h
  | _ => cases h

end JitBroker
