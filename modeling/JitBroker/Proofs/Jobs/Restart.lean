import Mathlib.Logic.Function.Basic
import JitBroker.Proofs.Code.Balance
import JitBroker.Proofs.Jobs.Stop

/-!
# Going on after a stop for want of code space

Jobs are stopped because an allocation failed in one segment. They go on when a request or a
decompilation looks at the segment of *its own* tier and finds room there; which segment was full is
not remembered by the broker. So it is remembered here, beside the run (`History`): the segment for
which jobs were last stopped, and what each thread saw when it last looked for room.

* `Action.run_calm`: a thread lets jobs go on right after it has looked for room, and stops them
  right after it has reported a segment, and does nothing else in between;
* `System.restart_of_run`: whenever jobs go on, the segment that was looked at had room then, and
  now lacks no more of it than was allocated there since. If that is the segment that was full, it
  has room again; if it is another one, it need not have.
-/

namespace JitBroker

/-! ### Actions that follow at once -/

/-- Whether an action is run right after the one that brought it. -/
def Action.urgent : Action → Bool
  | .control .resume | .control .react => true
  | _ => false

/-- A turn that brings nothing urgent. -/
def Turn.Calm (turn : Turn) : Prop := turn.next.any Action.urgent = false

theorem any_urgent_control {ss : List ControlStep} (h : ∀ s ∈ ss, s ≠ .resume ∧ s ≠ .react) :
    (ss.map Action.control).any Action.urgent = false := by
  rw [List.any_eq_false]
  intro a ha
  obtain ⟨s, hs, rfl⟩ := List.mem_map.1 ha
  obtain ⟨hresume, hreact⟩ := h s hs
  cases s <;> simp_all [Action.urgent]

@[simp] theorem any_urgent_stale (ts : List TaskId) :
    (ts.flatMap Action.stale).any Action.urgent = false := by
  rw [List.any_eq_false]
  intro a ha
  obtain ⟨t, -, ha⟩ := List.mem_flatMap.1 ha
  obtain ⟨s, -, rfl⟩ := List.mem_map.1 ha
  simp [Action.urgent]

@[simp] theorem any_urgent_call (c : Call) : c.agenda.any Action.urgent = false := by
  cases c <;> rfl

theorem Turn.Calm.of_some {turn turn' : Turn} (h : some turn' = some turn) (hc : turn'.Calm) :
    turn.Calm := by
  obtain rfl := Option.some.inj h
  exact hc

variable {me : Caller} {ch : Choices} {b b' : Broker} {turn : Turn}

namespace RequestStep

variable {s : RequestStep} {q : Inquiry} {t : TaskId} {x : Task}

theorem leave_calm {gaveUp : Bool} (h : leave b q t x gaveUp = some turn) : turn.Calm := by
  unfold leave at h
  split at h <;> exact .of_some h rfl

theorem wakeUp_calm {watch : Option Watch} (h : wakeUp b ch q t x watch = some turn) :
    turn.Calm := by
  unfold wakeUp at h
  repeat' split at h
  all_goals first
    | exact leave_calm h
    | exact .of_some h rfl

theorem calm (h : s.run me ch b = some turn) : turn.Calm := by
  cases s <;> rw [run] at h <;> (try simp only at h) <;> repeat' split at h
  all_goals first
    | exact .of_some h rfl
    | exact wakeUp_calm h
    | exact leave_calm h
    | cases h

end RequestStep

theorem TaskStep.calm {s : TaskStep} (h : s.run b = some turn) : turn.Calm := by
  cases s <;> rw [run] at h <;> (try simp only at h) <;> repeat' split at h
  all_goals exact .of_some h rfl

theorem GateStep.calm {s : GateStep} (h : s.run b = some turn) : turn.Calm := by
  cases s <;> rw [run] at h <;> repeat' split at h
  all_goals first
    | exact .of_some h rfl
    | cases h

theorem CrewStep.calm {s : CrewStep} (h : s.run me ch b = some turn) : turn.Calm := by
  rcases s with u | ⟨u, n⟩ | ⟨u, n, k⟩ | ⟨u, n⟩ | ⟨u, n⟩ | (_ | ⟨u, us⟩) | ⟨u, _ | n, us⟩ | _ <;>
    rw [run] at h <;> (try simp only at h) <;> repeat' split at h
  all_goals first
    | exact .of_some h rfl
    | cases h

/-- What is urgent after a step of control. -/
theorem ControlStep.calm {s : ControlStep} (h : s.run me b = some turn) :
    turn.Calm ∨
      (turn.next = [.control .resume] ∧ ∃ u unit, s = .room u ∧ b.units[u]? = some unit ∧
        b.config.restartHeadroom ≤ b.cache.unallocated unit.config.blobKind) ∨
      (turn.next = [.control .react] ∧ ∃ k, s = .full k) := by
  cases s with
  | room u =>
    rw [run] at h
    split at h
    · exact .inl (.of_some h rfl)
    · rename_i unit hunit
      split at h
      · exact .inl (.of_some h rfl)
      · rename_i hroom
        obtain rfl := Option.some.inj h
        exact .inr (.inl ⟨rfl, u, unit, rfl, hunit, UInt64.not_lt.1 hroom⟩)
  | full k =>
    obtain rfl := Option.some.inj h
    exact .inr (.inr ⟨rfl, k, rfl⟩)
  | detach d =>
    left
    rw [run] at h
    split at h
    · refine .of_some h ?_
      cases Broker.unitOf? _ _ <;> rfl
    · exact .of_some h rfl
  | again ds summary =>
    left
    cases ds with
    | nil => exact .of_some h rfl
    | cons d ds =>
      rw [run] at h
      repeat' split at h
      all_goals exact .of_some h rfl
  | nudge w =>
    left
    rw [run] at h
    split at h
    · exact .of_some h rfl
    · rename_i worker _
      refine .of_some h ?_
      cases worker.current <;> rfl
  | _ =>
    left
    rw [run] at h
    repeat' split at h
    all_goals first
      | exact .of_some h rfl
      | exact .of_some h (any_urgent_control (by grind))
      | exact .of_some h (any_urgent_stale _)
      | cases h

namespace WorkerStep

variable {w : WorkerId} {worker : Worker} {unit : TierUnit} {s : WorkerStep} {c : CompileRun}

theorem obey_calm {task : Task} {move : BackendMove} (h : obey b w c task unit move = some turn) :
    turn.Calm := by
  cases move with
  | call call =>
    refine .of_some h ?_
    rw [Turn.Calm, List.any_append, any_urgent_call]
    rfl
  | _ =>
    rw [obey] at h
    repeat' split at h
    all_goals exact .of_some h rfl

theorem calm (h : s.run me ch b w worker unit = some turn) : turn.Calm := by
  cases s with
  | compile c =>
    rw [run] at h
    split at h
    · exact .of_some h rfl
    · cases h
    · exact obey_calm h
  | choose =>
    rw [run] at h
    repeat' split at h
    all_goals first
      | exact .of_some h rfl
      | (refine .of_some h ?_
         rw [Turn.Calm, List.any_append, any_urgent_stale]
         rfl)
  | judge c =>
    refine .of_some h ?_
    rw [Turn.Calm]
    cases c.report.cacheFull <;> rfl
  | settle =>
    refine .of_some h ?_
    rw [Turn.Calm]
    split <;> rfl
  | _ =>
    rw [run] at h
    (try simp only at h)
    repeat' split at h
    all_goals first
      | exact .of_some h rfl
      | cases h

end WorkerStep

/-- Jobs are let go on right after room was found, and stopped right after a segment was reported;
nothing else is urgent. -/
theorem Action.run_calm {a : Action} (h : a.run me ch b = some turn) :
    turn.Calm ∨
      (turn.next = [.control .resume] ∧ ∃ u unit, a = .control (.room u) ∧
        b.units[u]? = some unit ∧
        b.config.restartHeadroom ≤ b.cache.unallocated unit.config.blobKind) ∨
      (turn.next = [.control .react] ∧ ∃ k, a = .control (.full k)) := by
  cases a with
  | request s => exact .inl (RequestStep.calm h)
  | task s => exact .inl (TaskStep.calm h)
  | control s =>
    rcases ControlStep.calm h with hcalm | ⟨hnext, u, unit, rfl, hroom⟩ | ⟨hnext, k, rfl⟩
    · exact .inl hcalm
    · exact .inr (.inl ⟨hnext, u, unit, rfl, hroom⟩)
    · exact .inr (.inr ⟨hnext, k, rfl⟩)
  | gate s => exact .inl (GateStep.calm h)
  | worker w s =>
    left
    rw [run] at h
    repeat' split at h
    · exact .of_some h rfl
    · exact .of_some h rfl
    · exact WorkerStep.calm h
  | crew s => exact .inl (CrewStep.calm h)
  | answer r => exact .inl (.of_some h rfl)
  | fault => cases h

/-- Jobs are stopped for want of code space where they run and a segment was reported. -/
theorem Action.jobs_eq_stoppedForCache {a : Action} {eviction : Bool} {j : JobState}
    (h : a.jobs eviction j = .stoppedForCache) :
    j = .stoppedForCache ∨ (a = .control .react ∧ eviction = true ∧ j = .run) := by
  unfold Action.jobs at h
  split at h <;> (try split at h) <;> simp_all

/-! ### What is remembered of a run -/

/-- What the broker does not remember of a run. -/
structure History where
  /-- The segment that each thread last reported to be full. -/
  reported : ThreadId → Option BlobKind := fun _ => none
  /-- The unit for which each thread last looked for room, and the cache that it saw. -/
  looked : ThreadId → Option (UnitId × CodeCache) := fun _ => none
  /-- The segment for which jobs were last stopped. -/
  cause : Option BlobKind := none

namespace History

/-- The history after a thread has run an action. -/
def note (h : History) (b : Broker) (i : ThreadId) : Action → History
  | .control (.full k) => { h with reported := Function.update h.reported i (some k) }
  | .control (.room u) => { h with looked := Function.update h.looked i (some (u, b.cache)) }
  | .control .react =>
    if b.config.eviction = true ∧ b.jobs = .run then { h with cause := h.reported i } else h
  | _ => h

/-- The history after a move. -/
def after (h : History) (s : System) : System.Move → History
  | .step i ch => ((s.ran (.step i ch)).map (h.note s.broker i)).getD h
  | .call _ _ | .operate _ => h

/-- The history after a row of moves. -/
def afterAll (h : History) (s : System) : List System.Move → History
  | [] => h
  | m :: ms => (h.after s m).afterAll (s.move m) ms

/-- What an urgent action of a thread relies on: jobs are let go on by who has found room in the
segment of some unit, and stopped by who has reported a segment. -/
def Backs (h : History) (b : Broker) (i : ThreadId) : Action → Prop
  | .control .resume => ∃ u tier c, h.looked i = some (u, c) ∧ b.unitConfigs[u]? = some tier ∧
      b.config.restartHeadroom ≤ c.unallocated tier.blobKind ∧ c.Balanced ∧ c.Steps b.cache
  | .control .react => ∃ k, h.reported i = some k
  | _ => True

/-- The history agrees with a state of the system. -/
structure Agrees (h : History) (s : System) : Prop where
  /-- What is urgent comes first. -/
  urgent : ∀ {i : ThreadId} {t : Thread}, s.threads[i]? = some t →
    t.agenda.tail.any Action.urgent = false
  /-- It is backed by what was done before it. -/
  backs : ∀ {i : ThreadId} {t : Thread} {a : Action} {rest : List Action},
    s.threads[i]? = some t → t.agenda = a :: rest → h.Backs s.broker i a
  /-- Jobs were stopped for want of code space in some segment. -/
  cause : s.broker.jobs = .stoppedForCache → ∃ k, h.cause = some k
  /-- The accounts of the cache are right. -/
  balanced : s.broker.cache.Balanced

variable {h : History} {s s' : System} {i j : ThreadId} {a x : Action}

theorem backs_of_urgent_eq_false (hx : x.urgent = false) : h.Backs b i x := by
  unfold Backs
  split
  · cases hx
  · cases hx
  · trivial

/-- What one thread does leaves what backs the others. -/
theorem Backs.note (hx : h.Backs b j x) (hj : j ≠ i) (hb : b.Regular a b') :
    (h.note b i a).Backs b' j x := by
  have hlooked : (h.note b i a).looked j = h.looked j := by
    unfold History.note
    repeat' split
    all_goals simp [Function.update_of_ne hj]
  have hreported : (h.note b i a).reported j = h.reported j := by
    unfold History.note
    repeat' split
    all_goals simp [Function.update_of_ne hj]
  unfold Backs at hx ⊢
  split
  · obtain ⟨u, tier, c, hlook, htier, hroom, hc, hsteps⟩ := hx
    exact ⟨u, tier, c, hlooked.trans hlook, hb.units ▸ htier, hb.config ▸ hroom, hc,
      hsteps.tail hb.cache⟩
  · exact hreported ▸ hx
  · trivial

/-- What is urgent after a step of a thread comes first, and is backed by this step. -/
theorem Agrees.own {t : Thread} {rest : List Action} (hh : h.Agrees s) {ch : Choices}
    (ht : s.threads[i]? = some t) (ha : t.agenda = a :: rest)
    (hrun : a.run (t.caller i) ch s.broker = some turn) :
    (turn.next ++ rest).tail.any Action.urgent = false ∧
      ∀ {x : Action} {xs : List Action}, turn.next ++ rest = x :: xs →
        (h.note s.broker i a).Backs turn.broker i x := by
  have hrest : rest.any Action.urgent = false := by simpa [ha] using hh.urgent ht
  have hregular := Action.run_regular hrun
  rcases Action.run_calm hrun with hcalm | ⟨hnext, u, unit, rfl, hunit, hroom⟩ | ⟨hnext, k, rfl⟩
  · have hall : (turn.next ++ rest).any Action.urgent = false := by
      rw [List.any_append, hcalm, hrest]
      rfl
    rw [List.any_eq_false] at hall
    refine ⟨List.any_eq_false.2 fun x hx => hall x (List.mem_of_mem_tail hx), fun heq => ?_⟩
    exact backs_of_urgent_eq_false (Bool.not_eq_true _ ▸ hall _ (heq ▸ List.mem_cons_self))
  · rw [hnext]
    refine ⟨hrest, fun heq => ?_⟩
    obtain ⟨rfl, -⟩ := List.cons.inj heq
    refine ⟨u, unit.config, s.broker.cache, Function.update_self .., ?_, ?_, hh.balanced,
      .single hregular.cache⟩
    · rw [hregular.units, Broker.unitConfigs, Table.getElem?_map, hunit]
      rfl
    · rwa [hregular.config]
  · rw [hnext]
    refine ⟨hrest, fun heq => ?_⟩
    obtain ⟨rfl, -⟩ := List.cons.inj heq
    exact ⟨k, Function.update_self ..⟩

/-- A step keeps the history in agreement. -/
theorem Agrees.step {ch : Choices} (hh : h.Agrees s) (hstep : s.step i ch = some s') :
    (h.after s (.step i ch)).Agrees s' := by
  obtain ⟨t, a, rest, turn, ht, ha, hrun, rfl⟩ := System.step_eq_some_iff.1 hstep
  have hafter : h.after s (.step i ch) = h.note s.broker i a := by
    simp [after, System.ran, ht, hstep, ha]
  have hregular := Action.run_regular hrun
  obtain ⟨hurgent, hbacks⟩ := hh.own ht ha hrun
  rw [← System.Thread.agenda_after ha] at hurgent hbacks
  rw [hafter]
  refine ⟨fun {j t'} ht' => ?_, fun {j t' x xs} ht' ha' => ?_, fun hjobs => ?_,
    hregular.cache.balanced hh.balanced⟩
  · rcases System.threadsAfter_cases ht ht' with ⟨-, rfl⟩ | ⟨-, ht'⟩ | ⟨-, w, -, rfl⟩
    · exact hurgent
    · exact hh.urgent ht'
    · rfl
  · rcases System.threadsAfter_cases ht ht' with ⟨rfl, rfl⟩ | ⟨hj, ht'⟩ | ⟨-, w, -, rfl⟩
    · exact hbacks ha'
    · exact (hh.backs ht' ha').note hj hregular
    · obtain ⟨rfl, -⟩ := List.cons.inj ha'
      trivial
  · rw [System.broker_turned, hregular.jobs] at hjobs
    rcases Action.jobs_eq_stoppedForCache hjobs with hcache | ⟨rfl, heviction, hrunning⟩
    · obtain ⟨k, hk⟩ := hh.cause hcache
      refine ⟨k, hk ▸ ?_⟩
      unfold note
      split <;> simp [hcache]
    · obtain ⟨k, hk⟩ := hh.backs ht ha
      exact ⟨k, by simp [note, heviction, hrunning, hk]⟩

/-- Every move keeps the history in agreement. -/
theorem Agrees.move (hh : h.Agrees s) (m : System.Move) : (h.after s m).Agrees (s.move m) := by
  cases m with
  | step i ch =>
    cases hstep : s.step i ch with
    | some s' => simpa [System.move, hstep] using hh.step hstep
    | none =>
      have hafter : h.after s (.step i ch) = h := by
        have hran : s.ran (.step i ch) = none := by
          simp [System.ran, hstep]
        rw [after, hran]
        rfl
      simpa [System.move, hstep, hafter] using hh
  | call c n =>
    obtain ⟨urgent, backs, cause, balanced⟩ := hh
    refine ⟨fun ht => ?_, fun {j t x xs} ht ha => ?_, cause, balanced⟩
    · rcases System.thread_call_cases ht with ht | rfl
      · exact urgent ht
      · cases c <;> rfl
    · rcases System.thread_call_cases ht with ht | rfl
      · exact backs ht ha
      · have hagenda : c.agenda = x :: xs := ha
        have hcall := any_urgent_call c
        rw [hagenda, List.any_cons, Bool.or_eq_false_iff] at hcall
        exact backs_of_urgent_eq_false hcall.1
  | operate o =>
    obtain ⟨urgent, backs, cause, balanced⟩ := hh
    have hsteady := s.broker.operate_steady o
    refine ⟨urgent, fun {j t x xs} ht ha => ?_, fun hjobs => cause (hsteady.jobs ▸ hjobs), ?_⟩
    · have := backs ht ha
      unfold Backs at this ⊢
      split at this
      · exact hsteady.units.symm ▸ hsteady.config.symm ▸ hsteady.cache.symm ▸ this
      · exact this
      · trivial
    · exact hsteady.cache.symm ▸ balanced

/-- So does every row of moves. -/
theorem Agrees.foldl (hh : h.Agrees s) (ms : List System.Move) :
    (h.afterAll s ms).Agrees (ms.foldl System.move s) := by
  induction ms generalizing h s with
  | nil => exact hh
  | cons m ms ih => exact ih (hh.move m)

/-- There is nothing to remember at first. -/
theorem agrees_launch (hjobs : b.jobs ≠ .stoppedForCache) (hcache : b.cache.Balanced) :
    ({} : History).Agrees (System.launch b) := by
  refine ⟨fun ht => ?_, fun ht ha => ?_, fun h => absurd h hjobs, hcache⟩
  · rw [System.agenda_launch ht]
    rfl
  · rw [System.agenda_launch ht] at ha
    obtain ⟨rfl, -⟩ := List.cons.inj ha
    trivial

end History

/-! ### Going on -/

/-- What holds when a thread lets jobs go on that were stopped for want of space in the segment `k`:
it has looked for room in the segment of a unit, and saw the cache `c`. -/
structure System.Regained (s : System) (h : History) (i : ThreadId) (k : BlobKind) (u : UnitId)
    (tier : TierConfig) (c : CodeCache) : Prop where
  /-- Jobs were stopped because of this segment. -/
  cause : h.cause = some k
  /-- This is what the thread saw when it last looked. -/
  looked : h.looked i = some (u, c)
  /-- This is the tier of the unit. -/
  unit : s.broker.unitConfigs[u]? = some tier
  /-- The segment of the tier had room. -/
  room : s.broker.config.restartHeadroom ≤ c.unallocated tier.blobKind
  /-- It still has, but for what was allocated in it since the look and is live. -/
  left : s.broker.config.restartHeadroom.toNat ≤ (s.broker.cache.unallocated tier.blobKind).toNat +
    s.broker.cache.bytes (CodeCache.since tier.blobKind c.nextId)
  /-- So the segment that was full has room again if it is that of the tier, and nothing was
  allocated in it since the look. -/
  same : k = tier.blobKind → s.broker.cache.bytes (CodeCache.since k c.nextId) = 0 →
    s.broker.config.restartHeadroom ≤ s.broker.cache.unallocated k

namespace System

variable {s : System} {m : Move}

/-- Jobs go on after a stop for want of code space, unless they are told to, by one action. -/
theorem ran_of_restarts (h : s.Restarts m) : s.ran m = some (.control .resume) := by
  obtain ⟨hcache, haccept⟩ := h
  rcases s.jobs_move m with heq | ⟨a, ha, heq⟩
  all_goals rw [(accepting_eq_true_iff.1 haccept).1, hcache] at heq
  · cases heq
  · rw [ha]
    unfold Action.jobs at heq
    split at heq <;> simp_all

/-- Whenever jobs go on after a stop for want of code space, the segment of the tier that asks for
it had room when it was looked at. -/
theorem restart_of_run {config : Config} {parts : Broker.Parts} {b : Broker}
    (h : Broker.assemble config parts = .ok b) (hcache : parts.cache.Balanced) (moves : List Move)
    (hm : (moves.foldl move (launch b)).Restarts m) :
    ∃ i ch k u tier c, m = .step i ch ∧
      (moves.foldl move (launch b)).Regained (({} : History).afterAll (launch b) moves) i k u tier
        c := by
  have hagrees : (({} : History).afterAll (launch b) moves).Agrees (moves.foldl move (launch b)) := by
    obtain ⟨units, -, rfl⟩ := Broker.exists_of_assemble h
    refine (History.agrees_launch ?_ hcache).foldl moves
    dsimp only
    split <;> simp
  have hran := ran_of_restarts hm
  obtain ⟨k, hk⟩ := hagrees.cause hm.1
  cases m with
  | call c n => cases hran
  | operate o => cases hran
  | step i ch =>
    cases hstep : (moves.foldl move (launch b)).step i ch with
    | none => simp [ran, hstep] at hran
    | some s' =>
      obtain ⟨t, a, rest, turn, ht, ha, -, -⟩ := step_eq_some_iff.1 hstep
      obtain rfl : a = .control .resume := by simpa [ran, hstep, ht, ha] using hran
      obtain ⟨u, tier, c, hlooked, htier, hroom, hc, hsteps⟩ := hagrees.backs ht ha
      have hleft := (UInt64.le_iff_toNat_le.1 hroom).trans (hsteps.unallocated_le hc tier.blobKind)
      refine ⟨i, ch, k, u, tier, c, rfl, hk, hlooked, htier, hroom, hleft, fun hkind hnone => ?_⟩
      subst hkind
      rw [hnone, Nat.add_zero] at hleft
      exact UInt64.le_iff_toNat_le.2 hleft

/-- The broker with two tiers starts, a compile at the first tier installs code and then finds its
segment full, and a request at the second tier is about to let jobs go on. -/
def duoExhausted : List Move :=
  times 0 8 ++ [.step 1 {}, .step 1 { started := some (.ok ()) },
    .operate (.addClass { name := "C" }), .operate (.addMethod { name := "f", className := "C" }),
    .call (.request { method := 0, tier := 1 }) 0]
    ++ times 3 20 ++ times 1 11
    ++ [.step 1 { move := some (.install 600 300) }, .step 1 {},
      .step 1 { move := some (.install 600 300) }, .step 1 { move := some .finish }]
    ++ times 1 5 ++ duoRequest 4 5

/-- There the segment that was full does not have the room that is asked for: 400 bytes are free. -/
theorem restart_of_duoExhausted :
    (duoExhausted.foldl move (launch .duo)).Restarts (.step 4 {}) ∧
      (∃ i ch k u tier c, Move.step 4 {} = .step i ch ∧
        (duoExhausted.foldl move (launch .duo)).Regained
          (({} : History).afterAll (launch .duo) duoExhausted) i k u tier c) ∧
      (({} : History).afterAll (launch .duo) duoExhausted).cause = some .profiled ∧
      (duoExhausted.foldl move (launch .duo)).broker.cache.unallocated .profiled = 400 ∧
      Broker.duo.config.restartHeadroom = 600 :=
  ⟨by decide +kernel, restart_of_run Broker.assemble_duo (CodeCache.balanced_ofCapacities ..)
    duoExhausted (by decide +kernel), by decide +kernel, by decide +kernel, rfl⟩

end System

end JitBroker
