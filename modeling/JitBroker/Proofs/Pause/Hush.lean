import Mathlib.Data.List.Induction
import JitBroker.Proofs.Pause.Results
import JitBroker.Proofs.Shutdown.Hold

/-!
# What a pause holds back

A worker that polls the pause gate while a guard is alive does not come past it (`GateStep.stays`).
So once every worker waits for work, is parked or is inside its back-end, a pause holds back each
result that comes of a back-end: the worker parks before it does anything with it.

What a worker refuses to compile is not held back, as the gate is not polled on that way. So in every
state of the pause each thread is at the gate, or has no result but those of compiles that were
refused since it began (`System.hushed_foldl`).
-/

namespace JitBroker

/-! ### The gate -/

variable {me : Caller} {ch : Choices} {b : Broker} {a : Action} {turn : Turn} {t : TaskId}
  {R R' : TaskId → Prop} {th : Thread} {rest : List Action}

/-- Who is at the gate stays there while a guard is alive. -/
theorem GateStep.stays {g : GateStep} (h : g.run b = some turn) (hgate : b.gate.Consistent)
    (hguards : b.gate.guards ≠ 0) : ∃ g', turn.next = [.gate g'] := by
  have hrequested : b.gate.requested = true := hgate.trans (decide_eq_true (Nat.pos_of_ne_zero hguards))
  cases g with
  | poll =>
    obtain rfl := Option.some.inj h
    exact ⟨.park, if_pos hrequested⟩
  | park =>
    rw [run, if_neg hguards] at h
    obtain rfl := Option.some.inj h
    exact ⟨_, rfl⟩
  | parked bell =>
    rw [run] at h
    split at h
    · cases h
    · obtain rfl := Option.some.inj h
      exact ⟨_, rfl⟩

/-! ### Threads that are hushed -/

/-- An action with no result but those of certain tasks, and with none of a back-end. -/
def Action.Hushed (R : TaskId → Prop) (a : Action) : Prop :=
  a.judges = false ∧ ∀ t, a.result? = some t → R t

/-- A thread that is at the gate, or has no result but those of certain tasks. -/
def Thread.Hushed (R : TaskId → Prop) (th : Thread) : Prop :=
  (∃ g rest, th.agenda = .gate g :: rest) ∨ ∀ a ∈ th.agenda, a.Hushed R

theorem Action.Hushed.of_none (h : a.result? = none) : a.Hushed R :=
  ⟨Bool.eq_false_iff.2 fun hjudges => Action.result_of_judges hjudges h,
    fun _ ht => by cases h.symm.trans ht⟩

theorem Action.Hushed.mono (h : a.Hushed R) (hR : ∀ t, R t → R' t) : a.Hushed R' :=
  ⟨h.1, fun t ht => hR t (h.2 t ht)⟩

theorem Thread.Hushed.mono (h : th.Hushed R) (hR : ∀ t, R t → R' t) : th.Hushed R' :=
  h.imp_right fun h a ha => (h a ha).mono hR

/-- While a guard is alive, a step adds no result but that of a compile that it refuses. -/
theorem Thread.Hushed.after (h : th.Hushed R) (ha : th.agenda = a :: rest)
    (hrun : a.run me ch b = some turn) (hgate : b.gate.Consistent) (hguards : b.gate.guards ≠ 0)
    (hR : ∀ t, a.refused? b = some t → R t) : (th.after turn).Hushed R := by
  have hagenda : (th.after turn).agenda = turn.next ++ rest := System.Thread.agenda_after ha
  have held {g : GateStep} {next : List Action} (hnext : turn.next = .gate g :: next) :
      (th.after turn).Hushed R := .inl ⟨g, next ++ rest, by rw [hagenda, hnext, List.cons_append]⟩
  rcases h with ⟨g, rest', hg⟩ | hall
  · obtain ⟨rfl, -⟩ := List.cons.inj (ha.symm.trans hg)
    obtain ⟨g', hnext⟩ := GateStep.stays hrun hgate hguards
    exact held hnext
  · rcases Action.hands_run hrun with ⟨w, c, -, hreturns⟩ | hhands
    · exact held hreturns
    · refine .inr fun a' ha' => ?_
      rw [hagenda] at ha'
      rcases List.mem_append.1 ha' with hnext | hrest
      · obtain ⟨hjudges, hresult⟩ := hhands a' hnext
        refine ⟨hjudges, fun t ht => (hresult t ht).elim ?_ (hR t)⟩
        exact (hall a (ha ▸ List.mem_cons_self)).2 t
      · exact hall a' (ha ▸ List.mem_cons_of_mem _ hrest)

/-! ### Workers that are at ease -/

/-- A worker waits for work or for its back-end to be started, is parked, is inside its back-end, or
has left. -/
def Thread.eased (th : Thread) : Bool :=
  match th.agenda with
  | [] | .worker _ .start :: _ | .worker _ .starting :: _ | .worker _ (.asleep _ _) :: _
  | .gate (.parked _) :: _ => true
  | as => as.any (·.atBackend)

theorem Action.exists_of_atBackend (h : a.atBackend = true) : ∃ w st, a = .worker w st := by
  unfold atBackend at h
  split at h
  all_goals first
    | exact ⟨_, _, rfl⟩
    | cases h

/-- Inside the back-end there is no result yet. -/
theorem Action.result_of_atBackend (h : a.atBackend = true) : a.result? = none := by
  unfold atBackend at h
  split at h
  all_goals first
    | rfl
    | cases h

/-- Then it has no result, unless it is at the gate. -/
theorem Thread.hushed_of_eased (h : th.eased = true) (hround : th.Rounded)
    (horder : th.agenda.Pairwise (·.precedes ·)) : th.Hushed R := by
  -- A worker that has nothing but one step before it, and no result.
  have one {w : WorkerId} {st : WorkerStep} {rest : List Action}
      (hagenda : th.agenda = .worker w st :: rest) (hst : (Action.worker w st).result? = none) :
      th.Hushed R := by
    refine .inr fun a ha => ?_
    rw [hagenda] at ha horder
    rcases List.mem_cons.1 ha with rfl | ha
    · exact .of_none hst
    · have hprecedes := (List.pairwise_cons.1 horder).1 a ha
      exact absurd ((Action.worker_precedes w st a).symm.trans hprecedes) Bool.false_ne_true
  unfold eased at h
  split at h
  · rename_i hagenda
    exact .inr fun a ha => absurd (hagenda ▸ ha) List.not_mem_nil
  · exact one ‹_› rfl
  · exact one ‹_› rfl
  · exact one ‹_› rfl
  · rename_i hagenda
    exact .inl ⟨_, _, hagenda⟩
  · obtain ⟨a₀, ha₀, hback⟩ := List.any_eq_true.1 h
    obtain ⟨w, st, rfl⟩ := Action.exists_of_atBackend hback
    refine .inr fun a ha => .of_none ?_
    by_contra hne
    obtain ⟨t, ht⟩ := Option.ne_none_iff_exists'.1 hne
    rcases Action.worker_or_report ht with ⟨w', st', rfl⟩ | hreport
    · rw [Action.worker_unique horder ha ha₀, Action.result_of_atBackend hback] at ht
      cases ht
    · obtain ⟨w', hsettle⟩ := hround ⟨a, ha, hreport⟩
      rw [← Action.worker_unique horder hsettle ha₀] at hback
      cases hback

namespace System

variable {s : System} {m : Move} {ms : List Move} {i : ThreadId}

/-- Every worker waits for work or for its back-end to be started, is parked, is inside its back-end,
or has left. -/
def AtEase (s : System) : Prop :=
  ∀ (i : ThreadId) (th : Thread), s.threads[i]? = some th → th.worker.isSome = true → th.eased = true

theorem atEase_iff :
    s.AtEase ↔ ∀ th ∈ s.threads.toList, th.worker.isSome = true → th.eased = true := by
  constructor
  · intro h th hth
    obtain ⟨i, hi⟩ := Table.mem_toList_iff.1 hth
    exact h i th hi
  · exact fun h i th hth => h th (Table.mem_toList_iff.2 ⟨i, hth⟩)

instance : Decidable s.AtEase := decidable_of_iff _ atEase_iff.symm

/-- Each thread is at the gate, or has no result but those of certain tasks. -/
def Hushed (R : TaskId → Prop) (s : System) : Prop :=
  ∀ (i : ThreadId) (th : Thread), s.threads[i]? = some th → th.Hushed R

/-- When every worker is at ease, nobody has a result, unless at the gate. -/
theorem AtEase.hushed (h : s.AtEase) (ho : s.Ordered)
    (hround : ∀ {i : ThreadId} {th : Thread}, s.threads[i]? = some th → th.Rounded) : s.Hushed R := by
  intro i th hth
  cases hworker : th.worker with
  | some w => exact Thread.hushed_of_eased (h i th hth (by rw [hworker]; rfl)) (hround hth) (ho.order hth)
  | none =>
    -- Whoever is no worker has no step of a worker before it.
    have hnot {w : WorkerId} {st : WorkerStep} (ha : .worker w st ∈ th.agenda) : False := by
      rcases ho.worker hth _ ha with h | h
      · cases h
      · cases h.trans hworker
    refine .inr fun a ha => .of_none ?_
    by_contra hne
    obtain ⟨t, ht⟩ := Option.ne_none_iff_exists'.1 hne
    rcases Action.worker_or_report ht with ⟨w, st, rfl⟩ | hreport
    · exact hnot ha
    · obtain ⟨w, hsettle⟩ := hround hth ⟨a, ha, hreport⟩
      exact hnot hsettle

/-! ### Runs during a pause -/

/-- The task that a worker refuses to compile in a move. -/
def refused? (s : System) (m : Move) : Option TaskId := (s.ran m).bind (·.refused? s.broker)

/-- Whether a guard is alive in every state of a run. -/
def staysPaused (s : System) : List Move → Bool
  | [] => decide (s.broker.gate.guards ≠ 0)
  | m :: ms => decide (s.broker.gate.guards ≠ 0) && (s.move m).staysPaused ms

theorem staysPaused_of_append {ms' : List Move} (h : s.staysPaused (ms ++ ms') = true) :
    s.staysPaused ms = true := by
  induction ms generalizing s with
  | nil =>
    cases ms' with
    | nil => exact h
    | cons m ms' => exact (Bool.and_eq_true_iff.1 h).1
  | cons m ms ih =>
    obtain ⟨hguards, hrest⟩ := Bool.and_eq_true_iff.1 h
    exact Bool.and_eq_true_iff.2 ⟨hguards, ih hrest⟩

theorem guards_of_staysPaused (h : s.staysPaused ms = true) :
    (ms.foldl move s).broker.gate.guards ≠ 0 := by
  induction ms generalizing s with
  | nil => exact of_decide_eq_true h
  | cons m ms ih =>
    rw [staysPaused, Bool.and_eq_true] at h
    exact ih h.2

/-- The request flag of the gate goes on to tell whether a guard is alive. -/
theorem consistent_move (hs : s.Lawful) (h : s.broker.gate.Consistent) (m : Move) :
    (s.move m).broker.gate.Consistent := by
  rcases s.move_cases hs m with ⟨o, -, hmove⟩ | ⟨hop, ⟨-, hmove⟩ | ⟨i, ch, th, a, rest, turn, hruns⟩⟩
  · rw [hmove, (s.broker.operate_operated o).gate]
    cases o with
    | pause => exact .pause
    | unpause =>
      simp only
      split
      · exact h
      · exact h.release
    | _ => exact h
  · rwa [hmove]
  · rw [hruns.turned, broker_turned]
    cases Action.refits hruns.run with
    | keeps hfit => exact hfit.gate ▸ h
    | operate ho => exact absurd ho (hruns.not_operate hop)
    | _ => exact h

theorem consistent_foldl (hs : s.Lawful) (h : s.broker.gate.Consistent) (ms : List Move) :
    (ms.foldl System.move s).broker.gate.Consistent := by
  induction ms generalizing s with
  | nil => exact h
  | cons m ms ih => exact ih (hs.move m) (consistent_move hs h m)

/-- While a guard is alive, a move adds no result but that of a compile that is refused. -/
theorem Hushed.move (h : s.Hushed R) (hgate : s.broker.gate.Consistent)
    (hguards : s.broker.gate.guards ≠ 0) (hR : ∀ t, s.refused? m = some t → R t) :
    (s.move m).Hushed R := by
  cases m with
  | operate o => exact h
  | call c n =>
    intro j th hth
    rcases thread_call_cases hth with hold | rfl
    · exact h j th hold
    · refine .inr fun a ha => .of_none (Action.result_of_kind ?_)
      have hkind := Call.kind_of_mem ha
      revert hkind
      cases a.kind <;> decide
  | step i ch =>
    cases hran : s.ran (.step i ch) with
    | none => rwa [move_step_of_ran hran]
    | some a =>
      obtain ⟨i', ch', th, rest, turn, hruns⟩ := exists_runs hran
      have hrefused (t : TaskId) (ht : a.refused? s.broker = some t) : R t :=
        hR t (by rw [refused?, hran]; exact ht)
      intro j th' hth'
      rw [hruns.turned] at hth'
      rcases threadsAfter_cases hruns.thread hth' with ⟨rfl, rfl⟩ | ⟨-, hold⟩ | ⟨-, w, -, rfl⟩
      · exact (h _ _ hruns.thread).after hruns.agenda hruns.run hgate hguards hrefused
      · exact h j th' hold
      · exact .inr fun a ha => List.mem_singleton.1 ha ▸ .of_none rfl

/-- What a move runs is no more than its thread has. -/
theorem Hushed.ran (h : s.Hushed R) (hran : s.ran m = some a) : a.Hushed R := by
  obtain ⟨i, ch, th, rest, turn, hruns⟩ := exists_runs hran
  rcases h i th hruns.thread with ⟨g, rest', hgate⟩ | hall
  · obtain ⟨rfl, -⟩ := List.cons.inj (hruns.agenda.symm.trans hgate)
    exact .of_none rfl
  · exact hall a (hruns.agenda ▸ List.mem_cons_self)

/-- While a guard is alive, whoever is not at the gate has no result but those of compiles that were
refused meanwhile. -/
theorem hushed_foldl (hs : s.Lawful) (hgate : s.broker.gate.Consistent) (h : ∀ R, s.Hushed R)
    (hpaused : s.staysPaused ms = true) :
    (ms.foldl System.move s).Hushed (· ∈ s.gather refused? ms) := by
  induction ms using List.reverseRecOn with
  | nil => exact h _
  | append_singleton ms m ih =>
    have hbefore := staysPaused_of_append hpaused
    rw [List.foldl_concat, gather_concat]
    refine Hushed.move (fun i th hth => (ih hbefore i th hth).mono fun t ht =>
      List.mem_append_left _ ht) (consistent_foldl hs hgate ms) (guards_of_staysPaused hbefore)
      fun t ht => ?_
    exact List.mem_append_right _ (Option.mem_toList.2 ht)

/-- So whatever is run meanwhile has no other result. -/
theorem hushed_of_ran {ms₁ ms₂ : List Move} (hs : s.Lawful) (hgate : s.broker.gate.Consistent)
    (h : ∀ R, s.Hushed R) (hpaused : s.staysPaused (ms₁ ++ m :: ms₂) = true)
    (hran : (ms₁.foldl System.move s).ran m = some a) :
    a.Hushed (· ∈ s.gather refused? (ms₁ ++ m :: ms₂)) := by
  have hhushed := hushed_foldl hs hgate h (staysPaused_of_append hpaused)
  refine (hhushed.ran hran).mono fun t ht => ?_
  rw [gather_append]
  exact List.mem_append_left _ ht

end System

end JitBroker
