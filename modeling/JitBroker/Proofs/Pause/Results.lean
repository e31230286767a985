import JitBroker.Proofs.Fittings
import JitBroker.Proofs.Kinds
import JitBroker.Proofs.Rest.Order

/-!
# Where results come from

From the time that a back-end has returned, or that a worker has refused a compile, until the task
is ended, the worker hands the result from step to step. A result is handed on for the same task, or
comes of a refusal, or of a back-end that has returned; in the last case, and in no other one, the
worker passes the pause gate before it does anything with the result (`Action.hands_run`).

Who ends a task that it has worked on has a round of a worker before it (`System.Reachable.rounded`);
so nobody but a worker does, and no worker that is inside its back-end.
-/

namespace JitBroker

/-! ### Results -/

/-- The task whose result is handed on by an action. -/
def Action.result? : Action → Option TaskId
  | .worker _ (.judge c) | .worker _ (.giveUp c) => some c.task
  | .worker _ (.rule f) | .worker _ (.count f) | .worker _ (.announce f) | .worker _ (.close f)
  | .worker _ (.drop f) | .worker _ (.unmark f) | .worker _ (.publish f) => some f.task
  | .task (.complete t .worker) | .task (.complete t .requester) | .task (.free t .worker) => some t
  | _ => none

/-- Whether a back-end has returned. -/
def Action.judges : Action → Bool
  | .worker _ (.judge _) => true
  | _ => false

/-- Whether the method of a task has breakpoints. -/
def Broker.stopsAt (b : Broker) (t : TaskId) : Bool :=
  ((b.tasks[t]?.bind fun x => b.methods[x.method]?).map (·.hasBreakpoints)).getD false

/-- The task that a worker refuses to compile: its method has breakpoints, or jobs are not taken any
more. -/
def Action.refused? (b : Broker) : Action → Option TaskId
  | .worker _ (.examine c) => if b.stopsAt c.task then some c.task else none
  | .worker _ (.clear c) => if b.accepting then none else some c.task
  | _ => none

/-- The kinds of actions that may hand on a result. -/
def Action.Kind.hands : Action.Kind → Bool
  | .worker | .publish | .report => true
  | _ => false

/-- Results are handed on by workers, and by those who end tasks that they have worked on. -/
theorem Action.result_of_kind {a : Action} (h : a.kind.hands = false) : a.result? = none := by
  unfold result?
  split
  all_goals first
    | rfl
    | cases h

theorem Action.worker_or_report {a : Action} {t : TaskId} (h : a.result? = some t) :
    (∃ w st, a = .worker w st) ∨ a.kind = .report := by
  unfold result? at h
  split at h
  all_goals first
    | exact .inl ⟨_, _, rfl⟩
    | exact .inr rfl
    | cases h

theorem Action.result_of_judges {a : Action} (h : a.judges = true) : a.result? ≠ none := by
  unfold judges at h
  split at h
  · exact Option.some_ne_none _
  · cases h

/-- A turn hands on no result but that of its action, or of a compile that the action refuses. -/
def Turn.Hands (b : Broker) (a : Action) (turn : Turn) : Prop :=
  ∀ a' ∈ turn.next, a'.judges = false ∧
    ∀ t, a'.result? = some t → a.result? = some t ∨ a.refused? b = some t

variable {me : Caller} {ch : Choices} {b b' : Broker} {a a' : Action} {turn : Turn} {t : TaskId}

namespace Turn.Hands

theorem of_some {turn' : Turn} (h : some turn' = some turn) (ht : turn'.Hands b a) :
    turn.Hands b a := by
  obtain rfl := Option.some.inj h
  exact ht

/-- It may hand on none. -/
theorem of_none (h : ∀ a' ∈ turn.next, a'.result? = none) : turn.Hands b a := by
  refine fun a' ha' => ⟨Bool.eq_false_iff.2 fun hjudges => ?_, fun t ht => ?_⟩
  · exact Action.result_of_judges hjudges (h a' ha')
  · cases (h a' ha').symm.trans ht

/-- Where the actions are known, it can be computed that it hands on none. -/
theorem of_all {next : List Action} {r : Option Reply} {hired : Option WorkerId}
    (h : next.all (·.result?.isNone) = true) :
    Hands b a { broker := b', next := next, reply := r, hired := hired } :=
  of_none fun a' ha' => Option.isNone_iff_eq_none.1 (List.all_eq_true.1 h a' ha')

/-- So it does if its action is of a kind that brings no such action. -/
theorem of_kind (h : turn.Kin a.kind) (hworker : a.kind.brings .worker = false)
    (hpublish : a.kind.brings .publish = false) (hreport : a.kind.brings .report = false) :
    turn.Hands b a := by
  refine of_none fun a' ha' => Action.result_of_kind ?_
  have hbrings := h a' ha'
  cases hkind : a'.kind <;> rw [hkind] at hbrings
  case worker => exact absurd (hworker.symm.trans hbrings) Bool.false_ne_true
  case publish => exact absurd (hpublish.symm.trans hbrings) Bool.false_ne_true
  case report => exact absurd (hreport.symm.trans hbrings) Bool.false_ne_true
  all_goals rfl

/-- Before the last action there may be others that hand on none. -/
theorem concat {as : List Action} (h : ∀ a ∈ as, a.kind.hands = false) (h' : a'.result? = none) :
    Hands b a { broker := b', next := as ++ [a'] } := by
  refine of_none fun a₀ h₀ => ?_
  rcases List.mem_append.1 h₀ with h₀ | h₀
  · exact Action.result_of_kind (h a₀ h₀)
  · rw [List.mem_singleton.1 h₀, h']

/-- Most turns bring one action. -/
theorem single {r : Option Reply} (hjudges : a'.judges = false)
    (h : ∀ t, a'.result? = some t → a.result? = some t ∨ a.refused? b = some t) :
    Hands b a { broker := b', next := [a'], reply := r } :=
  fun _ ha => List.mem_singleton.1 ha ▸ ⟨hjudges, h⟩

end Turn.Hands

namespace WorkerStep

variable {w : WorkerId} {worker : Worker} {unit : TierUnit} {s : WorkerStep} {c : CompileRun}

/-- A back-end returns. -/
def Returns (w : WorkerId) (c : CompileRun) (turn : Turn) : Prop :=
  turn.next = [.gate .poll, .worker w (.judge c)]

theorem obey_hands {task : Task} {move : BackendMove} (h : obey b w c task unit move = some turn) :
    Returns w c turn ∨ turn.Hands b (.worker w (.compile c)) := by
  cases move with
  | finish =>
    rw [obey] at h
    split at h
    · obtain rfl := Option.some.inj h
      exact .inl rfl
    · exact .inr (.of_some h (.of_all rfl))
  | call call =>
    refine .inr (.of_some h (.concat (fun a ha => ?_) rfl))
    have hkind := Call.kind_of_mem ha
    revert hkind
    cases a.kind <;> decide
  | _ =>
    rw [obey] at h
    repeat' split at h
    all_goals exact .inr (.of_some h (.of_all rfl))

/-- What a worker hands on, unless its back-end returns. -/
theorem hands (h : s.run me ch b w worker unit = some turn) :
    (∃ c, s = .compile c ∧ Returns w c turn) ∨ turn.Hands b (.worker w s) := by
  cases s with
  | compile c =>
    rw [run] at h
    split at h
    · exact .inr (.of_some h (.of_all rfl))
    · cases h
    · exact (obey_hands h).imp_left fun hreturns => ⟨c, rfl, hreturns⟩
  | choose =>
    right
    rw [run] at h
    repeat' split at h
    all_goals first
      | exact .of_some h (.of_all rfl)
      | exact .of_some h (.concat (fun a ha => by rw [Action.kind_stale _ a ha]; rfl) rfl)
  | examine c =>
    right
    rw [run] at h
    repeat' split at h
    · exact .of_some h (.of_all rfl)
    · exact .of_some h (.of_all rfl)
    · rename_i x hx _ m hm hbreak
      refine .of_some h (.single rfl fun t ht => .inr ?_)
      rw [Action.refused?, Broker.stopsAt, hx, Option.bind_some, hm, Option.map_some,
        Option.getD_some, if_pos hbreak]
      exact ht
    · exact .of_some h (.of_all rfl)
  | clear c =>
    right
    rw [run] at h
    split at h
    · exact .of_some h (.of_all rfl)
    · refine .of_some h (.single rfl fun t ht => .inr ?_)
      rw [Action.refused?, if_neg ‹_›]
      exact ht
  | judge c =>
    right
    rw [run] at h
    refine .of_some h fun a ha => ?_
    rcases List.mem_append.1 ha with ha | ha
    · obtain ⟨kind, -, rfl⟩ := List.mem_map.1 ha
      exact ⟨rfl, fun _ ht => by cases ht⟩
    · rw [List.mem_singleton.1 ha]
      exact ⟨rfl, fun t ht => .inl ht⟩
  | publish f =>
    right
    refine .of_some h fun a ha => ?_
    rcases List.mem_pair.1 ha with rfl | rfl
    · exact ⟨rfl, fun t ht => .inl ht⟩
    · exact ⟨rfl, fun _ ht => by cases ht⟩
  | giveUp _ | rule _ | count _ | announce _ | close _ | drop _ | unmark _ =>
    right
    rw [run] at h
    (try simp only at h)
    repeat' split at h
    all_goals first
      | exact .of_some h (.single rfl fun t ht => .inl ht)
      | exact .of_some h (.of_all rfl)
  | settle =>
    right
    rw [run] at h
    split at h <;> exact .of_some h (.of_all rfl)
  | _ =>
    right
    rw [run] at h
    repeat' split at h
    all_goals first
      | exact .of_some h (.of_all rfl)
      | cases h

end WorkerStep

/-- Every step hands on the result of its action, or that of a compile that the action refuses, or
none, unless a back-end returns. -/
theorem Action.hands_run (h : a.run me ch b = some turn) :
    (∃ w c, a = .worker w (.compile c) ∧ WorkerStep.Returns w c turn) ∨ turn.Hands b a := by
  have hkin := Action.brings_of_run h
  cases a with
  | worker w s =>
    rw [run] at h
    repeat' split at h
    · exact .inr (.of_some h (.of_all rfl))
    · exact .inr (.of_some h (.of_all rfl))
    · rcases WorkerStep.hands h with ⟨c, rfl, hreturns⟩ | hhands
      · exact .inl ⟨w, c, rfl, hreturns⟩
      · exact .inr hhands
  | task s =>
    right
    cases s with
    | complete t who =>
      rw [run, TaskStep.run] at h
      repeat' split at h
      · exact .of_some h (.of_all rfl)
      · exact .of_some h (.of_all rfl)
      · exact .of_some h (.of_all rfl)
      · cases who
        · exact .of_some h (.single rfl fun t ht => .inl ht)
        · exact .of_some h (.of_all rfl)
        · exact .of_some h (.of_all rfl)
    | _ =>
      rw [run, TaskStep.run] at h
      repeat' split at h
      all_goals exact .of_some h (.of_all rfl)
  | request s | control s => exact .inr (by cases s <;> exact .of_kind hkin rfl rfl rfl)
  | _ => exact .inr (.of_kind hkin rfl rfl rfl)

/-! ### Who ends tasks -/

theorem Action.Kind.of_brings_report {k : Action.Kind} (h : k.brings .report = true) :
    k = .publish ∨ k = .report := by
  revert h
  cases k <;> decide

theorem Action.exists_publish (h : a.kind = .publish) : ∃ w f, a = .worker w (.publish f) := by
  unfold kind at h
  split at h
  all_goals first
    | exact ⟨_, _, rfl⟩
    | cases h

/-- Who ends a task that was worked on was at its end before, or has just written the result, and
has a round of a worker before it. -/
theorem Action.settle_of_report (h : a.run me ch b = some turn) (ha' : a' ∈ turn.next)
    (hreport : a'.kind = .report) : a.kind = .report ∨ ∃ w, .worker w .settle ∈ turn.next := by
  have hbrings := Action.brings_of_run h a' ha'
  rw [hreport] at hbrings
  refine (Action.Kind.of_brings_report hbrings).symm.imp_right fun hpublish => ?_
  obtain ⟨w, f, rfl⟩ := exists_publish hpublish
  rw [run] at h
  repeat' split at h
  all_goals obtain rfl := Option.some.inj h
  · rw [List.mem_singleton.1 ha'] at hreport
    cases hreport
  · rw [List.mem_singleton.1 ha'] at hreport
    cases hreport
  · exact ⟨w, List.mem_cons_of_mem _ List.mem_cons_self⟩

/-- Who ends a task that was worked on has a round of a worker before it. -/
def Thread.Rounded (th : Thread) : Prop :=
  (∃ a ∈ th.agenda, a.kind = .report) → ∃ w, .worker w .settle ∈ th.agenda

/-- Nothing comes after a step of a worker. -/
theorem Action.worker_precedes (w : WorkerId) (st : WorkerStep) (a : Action) :
    (Action.worker w st).precedes a = false := Bool.and_false _

/-- So it is the last action of an agenda in order. -/
theorem Action.eq_concat_of_worker {as : List Action} {w : WorkerId} {st : WorkerStep}
    (h : as.Pairwise (·.precedes ·)) (ha : .worker w st ∈ as) :
    ∃ pre, as = pre ++ [Action.worker w st] := by
  obtain ⟨pre, post, rfl⟩ := List.append_of_mem ha
  have hpost := (List.pairwise_cons.1 (List.pairwise_append.1 h).2.1).1
  cases post with
  | nil => exact ⟨pre, rfl⟩
  | cons a post =>
    exact absurd ((worker_precedes w st a).symm.trans (hpost a List.mem_cons_self)) Bool.false_ne_true

/-- And there is no other one. -/
theorem Action.worker_unique {as : List Action} {w w' : WorkerId} {st st' : WorkerStep}
    (h : as.Pairwise (·.precedes ·)) (ha : .worker w st ∈ as) (ha' : .worker w' st' ∈ as) :
    Action.worker w st = .worker w' st' := by
  obtain ⟨pre, rfl⟩ := eq_concat_of_worker h ha
  obtain ⟨pre', heq⟩ := eq_concat_of_worker h ha'
  exact List.singleton_inj.1 (List.append_inj' heq rfl).2

/-- It stays so. -/
theorem Thread.Rounded.after {th : Thread} {rest : List Action} (h : th.Rounded)
    (ho : th.agenda.Pairwise (·.precedes ·)) (ha : th.agenda = a :: rest)
    (hrun : a.run me ch b = some turn) : (th.after turn).Rounded := by
  rw [Rounded, System.Thread.agenda_after ha]
  rw [Rounded, ha] at h
  -- The round is not what the step has run, since the end of a task comes before it.
  have later {a' : Action} (ha' : a' ∈ a :: rest) (hreport : a'.kind = .report) :
      ∃ w, .worker w .settle ∈ turn.next ++ rest := by
    obtain ⟨w, hsettle⟩ := h ⟨a', ha', hreport⟩
    refine ⟨w, List.mem_append_right _ ((List.mem_cons.1 hsettle).resolve_left ?_)⟩
    rintro rfl
    rcases List.mem_cons.1 ha' with rfl | ha'
    · cases hreport
    · have hprecedes := (List.pairwise_cons.1 (ha ▸ ho)).1 a' ha'
      exact Bool.false_ne_true ((Action.worker_precedes w _ a').symm.trans hprecedes)
  rintro ⟨a', ha', hreport⟩
  rcases List.mem_append.1 ha' with hnext | hrest
  · rcases Action.settle_of_report hrun hnext hreport with hold | ⟨w, hsettle⟩
    · exact later List.mem_cons_self hold
    · exact ⟨w, List.mem_append_left _ hsettle⟩
  · exact later (List.mem_cons_of_mem _ hrest) hreport

namespace System

variable {s first : System}

/-- In every state that a system can get into, who ends a task that was worked on has a round of a
worker before it. -/
theorem Reachable.rounded {b : Broker} (hb : b.Fresh) (h : Reachable (launch b) s) {i : ThreadId}
    {th : Thread} (hth : s.threads[i]? = some th) : th.Rounded := by
  let Inv (s : System) : Prop := ∀ (i : ThreadId) (th : Thread), s.threads[i]? = some th → th.Rounded
  suffices Inv s from this i th hth
  refine h.invariant (fun j t ht => ?_) (fun {s s' i ch} hr hinv hstep j t ht => ?_)
    (fun c n _ hinv j t ht => ?_) fun o _ hinv => hinv
  · rintro ⟨a, ha, hreport⟩
    rw [agenda_launch ht, List.mem_singleton] at ha
    cases ha ▸ hreport
  · obtain ⟨t₀, a, rest, turn, ht₀, ha, hrun, rfl⟩ := step_eq_some_iff.1 hstep
    rcases threadsAfter_cases ht₀ ht with ⟨rfl, rfl⟩ | ⟨-, hold⟩ | ⟨-, w, -, rfl⟩
    · exact (hinv j t₀ ht₀).after ((hr.ordered hb).order ht₀) ha hrun
    · exact hinv j t hold
    · rintro ⟨a, ha, hreport⟩
      cases List.mem_singleton.1 ha ▸ hreport
  · rcases thread_call_cases ht with hold | rfl
    · exact hinv j t hold
    · rintro ⟨a, ha, hreport⟩
      have hkind := Call.kind_of_mem ha
      rw [hreport] at hkind
      exact absurd hkind (by decide)

end System

end JitBroker
