import JitBroker.Proofs.Books.Entries
import JitBroker.Proofs.Jobs.Stop

/-!
# The states of jobs

Jobs are taken or not, and compilation is disabled or not. The two are changed by swaps that do
nothing in most states; the counts of stops and restarts follow those that took effect. Along every
run (`System.states_of_run`):

* stops and restarts alternate, beginning with a stop, and until the broker is shut down they tell
  whether jobs are stopped for want of code space;
* being disabled is for good, and so is being shut down, which disables as well.

A stop is counted one step after it was made; what is not counted yet is due (`System.owed`). In the
same way a thread that shuts the broker down disables compilation one step later.
-/

namespace JitBroker

/-- Jobs are shut down by one action, and stay so. -/
theorem Action.jobs_eq_shutDown {a : Action} {eviction : Bool} {j : JobState} :
    a.jobs eviction j = .shutDown ↔ j = .shutDown ∨ a = .control .shutdown := by
  unfold Action.jobs
  split <;> try split
  all_goals simp_all

namespace System

variable {s first : System} {m : Move} {ms : List Move} {a : Action} {b : Broker} {config : Config}
  {parts : Broker.Parts}

/-- What is pending stays so until it is run. -/
theorem mem_pending_move (h : a ∈ s.pending) (hran : s.ran m ≠ some a) : a ∈ (s.move m).pending := by
  cases m with
  | step i ch =>
    cases hstep : s.step i ch with
    | none => rwa [move, hstep]
    | some s' =>
      obtain ⟨t, a', rest, turn, ht, ha', -, rfl⟩ := step_eq_some_iff.1 hstep
      have hne : a ≠ a' := by
        rintro rfl
        exact hran (by simp [ran, ht, hstep, ha'])
      have hmem : a ∈ (s.turned i turn).pending + {a'} :=
        pending_turned ht ha' ▸ Multiset.mem_add.2 (.inl h)
      rw [move, hstep]
      exact (Multiset.mem_add.1 hmem).resolve_right fun h => hne (Multiset.mem_singleton.1 h)
  | call c n => exact pending_spawn s _ ▸ Multiset.mem_add.2 (.inl h)
  | operate o => exact h

/-! ### Shutting down -/

/-- A broker that is shut down is disabled, or a thread is about to disable it. -/
def Sealed (s : System) : Prop :=
  s.broker.jobs = .shutDown → s.broker.disabled = true ∨ .control .disable ∈ s.pending

/-- Jobs are shut down where they were before, or by the action for it. -/
theorem jobs_move_eq_shutDown (h : (s.move m).broker.jobs = .shutDown) :
    s.broker.jobs = .shutDown ∨ s.ran m = some (.control .shutdown) := by
  rcases s.jobs_move m with heq | ⟨a, ha, heq⟩
  · exact .inl (heq ▸ h)
  · rcases Action.jobs_eq_shutDown.1 (heq ▸ h) with hj | rfl
    · exact .inl hj
    · exact .inr ha

/-- Being shut down is for good. -/
theorem shutDown_move (h : s.broker.jobs = .shutDown) (m : Move) :
    (s.move m).broker.jobs = .shutDown := by
  rcases s.jobs_move m with heq | ⟨a, -, heq⟩
  · rw [heq, h]
  · rw [heq]
    exact Action.jobs_eq_shutDown.2 (.inl h)

/-- Who shuts the broker down is to disable it. -/
theorem disable_of_shutdown (hran : s.ran m = some (.control .shutdown))
    (h : s.broker.jobs ≠ .shutDown) : .control .disable ∈ (s.move m).pending := by
  cases m with
  | step i ch =>
    rw [ran] at hran
    split at hran
    · rename_i t s' ht hstep
      obtain ⟨t', a, rest, turn, ht', ha, hrun, rfl⟩ := step_eq_some_iff.1 hstep
      obtain rfl := Option.some.inj (ht.symm.trans ht')
      rw [ha, List.head?_cons] at hran
      obtain rfl := Option.some.inj hran
      rw [Action.run, ControlStep.run, if_neg h] at hrun
      obtain rfl := Option.some.inj hrun
      rw [move, hstep]
      refine mem_pending.2 ⟨i, _, threadsAfter_self ht, ?_⟩
      rw [Thread.agenda_after ha]
      exact List.mem_cons_self
    · cases hran
  | call c n => cases hran
  | operate o => cases hran

theorem Sealed.move (h : s.Sealed) (m : Move) : (s.move m).Sealed := by
  intro hjobs
  by_cases hran : s.ran m = some (.control .disable)
  · left
    rw [(regular_of_ran hran).disabled]
    exact Bool.or_true _
  · by_cases hbefore : s.broker.jobs = .shutDown
    · exact (h hbefore).imp (disabled_move · m) (mem_pending_move · hran)
    · exact .inr (disable_of_shutdown ((jobs_move_eq_shutDown hjobs).resolve_left hbefore) hbefore)

theorem Reachable.sealed (hfirst : first.broker.jobs ≠ .shutDown) (h : Reachable first s) :
    s.Sealed := by
  induction h with
  | first => exact fun hjobs => absurd hjobs hfirst
  | move m _ ih => exact ih.move m

theorem shutDown_foldl (h : s.broker.jobs = .shutDown) (ms : List Move) :
    (ms.foldl move s).broker.jobs = .shutDown := by
  induction ms generalizing s with
  | nil => exact h
  | cons m ms ih => exact ih (shutDown_move h m)

/-- A broker that is shut down was told to. -/
theorem shutdown_mem_trace (h : (ms.foldl move s).broker.jobs = .shutDown) :
    s.broker.jobs = .shutDown ∨ .control .shutdown ∈ s.trace ms := by
  induction ms generalizing s with
  | nil => exact .inl h
  | cons m ms ih =>
    rw [trace, List.mem_append]
    rcases ih h with hj | hmem
    · exact (jobs_move_eq_shutDown hj).imp_right fun hran => .inl (Option.mem_toList.2 hran)
    · exact .inr (.inr hmem)

/-! ### The states along a run -/

/-- No stop and no restart is still to be counted, and nobody is about to disable compilation. So it
is between whole steps. -/
def Quiet (s : System) : Prop :=
  s.owed .stop = 0 ∧ s.owed .restart = 0 ∧ .control .disable ∉ s.pending

/-- What the states of jobs are in the state `s` after a run, and from there on. -/
structure States (trace : List Action) (s : System) : Prop where
  /-- Stops and restarts alternate. -/
  alternate : s.broker.stats.restarted + s.owed .restart ≤ s.broker.stats.stopped + s.owed .stop ∧
    s.broker.stats.stopped + s.owed .stop ≤ s.broker.stats.restarted + s.owed .restart + 1
  /-- Before the broker is shut down, there was one more stop if and only if jobs are stopped. -/
  stopped : .control .shutdown ∉ trace →
    (s.broker.stats.stopped + s.owed .stop = s.broker.stats.restarted + s.owed .restart + 1 ↔
      s.broker.jobs = .stoppedForCache)
  /-- Between whole steps the counts say so. -/
  counts : s.Quiet → s.broker.stats.restarted ≤ s.broker.stats.stopped ∧
    s.broker.stats.stopped ≤ s.broker.stats.restarted + 1 ∧
    (.control .shutdown ∉ trace → (s.broker.stats.stopped = s.broker.stats.restarted + 1 ↔
      s.broker.jobs = .stoppedForCache))
  /-- Jobs are taken if they run and compilation is not disabled. -/
  accepting : s.broker.accepting = true ↔ s.broker.jobs = .run ∧ s.broker.disabled = false
  /-- Being disabled is for good. -/
  disabled : s.broker.disabled = true → ∀ after : List Move,
    (after.foldl move s).broker.disabled = true ∧ (after.foldl move s).broker.accepting = false
  /-- So is being shut down, which disables. -/
  shutDown : s.broker.jobs = .shutDown → ∀ after : List Move,
    (after.foldl move s).broker.accepting = false ∧
      ((after.foldl move s).Quiet → (after.foldl move s).broker.disabled = true)

theorem accepting_of_disabled (h : s.broker.disabled = true) : s.broker.accepting = false := by
  rw [Broker.accepting, h]
  exact Bool.and_false _

theorem accepting_of_shutDown (h : s.broker.jobs = .shutDown) : s.broker.accepting = false := by
  rw [Broker.accepting, h]
  rfl

/-- In every run of a broker, whatever is asked of it and in whatever order, jobs are in these
states. -/
theorem states_of_run (h : Broker.assemble config parts = .ok b) (ms : List Move) :
    States ((launch b).trace ms) (ms.foldl move (launch b)) := by
  have hjobs : (launch b).broker.jobs ≠ .shutDown := by
    obtain ⟨units, -, rfl⟩ := Broker.exists_of_assemble h
    dsimp only [launch]
    split <;> nofun
  have hr : Reachable (launch b) (ms.foldl move (launch b)) := reachable_iff_foldl.2 ⟨ms, rfl⟩
  obtain ⟨-, -, -, stops, stopped⟩ := hr.balanced h
  have hstopped (hnot : .control .shutdown ∉ (launch b).trace ms) := stopped fun hj =>
    hnot ((shutdown_mem_trace hj).resolve_left hjobs)
  refine ⟨stops, hstopped, ?_, accepting_eq_true_iff, fun hdis after => ?_, fun hj after => ?_⟩
  · rintro ⟨hstop, hrestart, -⟩
    rw [owed] at hstop hrestart
    simp only [hstop, hrestart, Nat.add_zero] at stops hstopped
    exact ⟨stops.1, stops.2, hstopped⟩
  · have hlater := disabled_foldl hdis after
    exact ⟨hlater, accepting_of_disabled hlater⟩
  · have hlater := shutDown_foldl hj after
    refine ⟨accepting_of_shutDown hlater, fun hquiet => ?_⟩
    have hreach := hr.trans (reachable_iff_foldl.2 ⟨after, rfl⟩)
    exact (hreach.sealed hjobs hlater).resolve_right hquiet.2.2

/-- Jobs of the small broker are stopped for want of code space. -/
def soloFull : List Move := soloStart ++ [.call (.cacheFull .profiled) 0] ++ times 2 3

/-- There the stop is counted, and no restart is. -/
theorem states_of_soloFull :
    States ((launch .solo).trace soloFull) (soloFull.foldl move (launch .solo)) ∧
      (soloFull.foldl move (launch .solo)).broker.jobs = .stoppedForCache ∧
      (soloFull.foldl move (launch .solo)).broker.stats.stopped = 1 ∧
      (soloFull.foldl move (launch .solo)).broker.stats.restarted = 0 :=
  ⟨states_of_run Broker.assemble_solo _, by decide +kernel⟩

end System

end JitBroker
