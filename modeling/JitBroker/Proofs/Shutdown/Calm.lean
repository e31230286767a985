import JitBroker.Proofs.Shutdown.Claims

/-!
# Who disables compilation

Only one thread ever disables compilation, and only once: the one that sets the mark. All other
threads are calm (`Thread.Calm`): they drain no queue and ring no bell, and tasks are completed by
workers only, outside their back-ends. Before the mark is set every thread is calm
(`System.Reachable.calm`), and afterwards a calm thread stays so.
-/

namespace JitBroker

/-- A duty of a thread that does not disable compilation, with those that come after it: to be a
worker is the last one, and tasks are completed by workers that are not at a back-end. -/
def Duty.Calm (worker : Option WorkerId) (d : Duty) (ds : List Duty) : Prop :=
  match d with
  | .drain _ | .rouse | .nudge _ | .wake _ => False
  | .scrap _ | .finish _ => worker.isSome = true ∧ ∀ w t, .post w (.inside t) ∉ ds
  | .post w _ => worker = some w ∧ ds = []
  | _ => True

variable {l l' : Ledger} {d : Option Duty} {new rest : List Duty} {hired worker : Option WorkerId}

/-- A worker may end stale tasks before it goes on. -/
theorem followed_calm_discard (ts : List TaskId) (hworker : worker.isSome = true)
    (hrest : Followed (Duty.Calm worker) rest) (hinside : ∀ w t, .post w (.inside t) ∉ rest) :
    Followed (Duty.Calm worker) (ts.flatMap Duty.discard ++ rest) := by
  induction ts with
  | nil => exact hrest
  | cons t ts ih =>
    refine ⟨trivial, trivial, ⟨hworker, fun w t' h => ?_⟩, ih⟩
    exact (List.mem_append.1 h).elim (Duty.post_not_mem_discard _) (hinside w t')

/-- An event leaves a calm thread calm, unless it disables compilation. -/
theorem Event.calm (h : Event l d new hired l') (hdis : l.disabled = true ∨ l'.disabled = false)
    (hf : Followed (Duty.Calm worker) (d.toList ++ rest)) :
    Followed (Duty.Calm worker) (new ++ rest) := by
  have hrest := hf.of_append
  cases h with
  | plain d | know d => exact hf
  | disable hopen =>
    rcases hdis with hdis | hdis
    · rw [hopen] at hdis
      cases hdis
    · cases hdis
  | drain _ _ _ _ _ | rouse | nudge _ | wake => exact hf.1.elim
  | append _ _ _ _ =>
    split
    · exact ⟨trivial, hrest⟩
    · exact hrest
  | fetch _ _ _ _ =>
    obtain ⟨hworker, rfl⟩ := hf.1
    rw [List.append_nil]
    exact followed_calm_discard _ (by rw [hworker]; rfl) ⟨⟨hworker, rfl⟩, trivial⟩ (by simp)
  | clean _ _ _ _ ha =>
    obtain ⟨hworker, rfl⟩ := hf.1
    rw [List.append_nil]
    refine followed_calm_discard _ (by rw [hworker]; rfl) ⟨⟨hworker, rfl⟩, trivial⟩ ?_
    rcases ha with ⟨rfl, -⟩ | ⟨rfl, -⟩ <;> simp
  | publish _ =>
    obtain ⟨hworker, rfl⟩ := hf.1
    exact ⟨⟨by rw [hworker]; rfl, by simp⟩, ⟨hworker, rfl⟩, trivial⟩
  | lookIn _ _ _ | lookOut _ _ _ | stay _ | take | compile _ | judge _ | giveUp _ | drop | release _
  | retire _ _ | desert => exact ⟨hf.1, hrest⟩
  | turnAway | refuse _ | unclaim | findDisabled _ _ | leave _ _ | free _ | unmark _ | spoil
  | ring _ _ _ | quit | hire _ => exact hrest
  | _ => exact ⟨trivial, hrest⟩

/-- The duties of a thread that does not disable compilation. -/
def Thread.Calm (t : Thread) : Prop := Followed (Duty.Calm t.worker) (JitBroker.duties t.agenda)

/-- No duty of a calm thread is to drain a queue, or to ring a bell. -/
theorem Thread.Calm.not_mem {t : Thread} {d : Duty} (h : t.Calm)
    (hd : ∀ worker ds, ¬d.Calm worker ds) : d ∉ JitBroker.duties t.agenda := by
  intro hmem
  obtain ⟨as, bs, heq⟩ := List.append_of_mem hmem
  rw [Thread.Calm, heq] at h
  exact hd _ _ h.of_append.1

namespace System

variable {s s' : System} {i j : ThreadId} {ch : Choices} {th th' : Thread} {a : Action}
  {rest : List Action} {turn : Turn} {b : Broker}

/-- No thread disables compilation. -/
def Calm (s : System) : Prop :=
  ∀ (j : ThreadId) (th : Thread), s.threads[j]? = some th → th.Calm

/-- The thread of a new worker is calm. -/
theorem calm_ofWorker (w : WorkerId) : (Thread.ofWorker w).Calm := ⟨⟨rfl, rfl⟩, trivial⟩

/-- A thread that has just been given a call is calm. -/
theorem calm_call (c : Call) (n : Nat) :
    Thread.Calm { initializers := n, agenda := c.agenda } := by
  rw [Thread.Calm, JitBroker.duties_call]
  trivial

/-- Threads are calm after a step if the one that made it is, and the others were. -/
theorem calm_turned (hth : s.threads[i]? = some th) (hself : (th.after turn).Calm)
    (hothers : ∀ {j : ThreadId} {th' : Thread}, j ≠ i → s.threads[j]? = some th' → th'.Calm) :
    (s.turned i turn).Calm := by
  intro j th' hth'
  rcases threadsAfter_cases hth hth' with ⟨-, rfl⟩ | ⟨hj, hth'⟩ | ⟨-, w, -, rfl⟩
  · exact hself
  · exact hothers hj hth'
  · exact calm_ofWorker w

/-- A calm thread stays calm in its own step, unless this disables compilation. -/
theorem calm_after (ha : th.agenda = a :: rest) (hcalm : th.Calm)
    (hdis : l.disabled = true ∨ l'.disabled = false)
    (hevent : Event l a.duty? (JitBroker.duties turn.next) hired l') : (th.after turn).Calm := by
  rw [Thread.Calm, Thread.agenda_after ha, duties_append]
  refine hevent.calm hdis ?_
  rw [← duties_cons, ← ha]
  exact hcalm

namespace Calm

theorem step (h : s.Calm) (hs : s.Lawful) (hstep : s.step i ch = some s')
    (hdis : s.broker.disabled = true ∨ s'.broker.disabled = false) : s'.Calm := by
  obtain ⟨th, a, rest, turn, hth, ha, -, rfl, hshift⟩ := hs.shift hstep
  exact calm_turned hth (calm_after ha (h i th hth) hdis hshift.event) fun _ hth' => h _ _ hth'

theorem call (h : s.Calm) (c : Call) (n : Nat) : (s.call c n).Calm := by
  intro j th hth
  rcases thread_call_cases hth with hold | rfl
  · exact h j th hold
  · exact calm_call c n

/-- When compilation is disabled, threads stay calm in every move. -/
theorem move (h : s.Calm) (hs : s.Lawful) (hdis : s.broker.disabled = true) (m : Move) :
    (s.move m).Calm := by
  cases m with
  | call c n => exact h.call c n
  | operate o => exact h
  | step i ch =>
    cases hstep : s.step i ch with
    | none => rwa [System.move, hstep]
    | some s' =>
      rw [System.move, hstep]
      exact h.step hs hstep (.inl hdis)

/-- So is none of all duties. -/
theorem not_mem (h : s.Calm) {d : Duty} (hd : ∀ worker ds, ¬d.Calm worker ds) : d ∉ s.duties := by
  intro hmem
  obtain ⟨a, ha, hduty⟩ := mem_duties.1 hmem
  obtain ⟨j, th, hth, ha⟩ := mem_pending.1 ha
  exact (h j th hth).not_mem hd (JitBroker.mem_duties.2 ⟨a, ha, hduty⟩)

end Calm

/-- As long as compilation is not disabled, all threads are calm. -/
theorem Reachable.calm (hb : b.Fresh) (h : Reachable (launch b) s)
    (henabled : s.broker.disabled = false) : s.Calm := by
  let Inv (s : System) : Prop := s.Lawful ∧ (s.broker.disabled = false → s.Calm)
  suffices Inv s from this.2 henabled
  have hdisabled {d : Option Duty} {new : List Duty} {hired : Option WorkerId} {s s' : System}
      (hevent : Event s.ledger d new hired s'.ledger) (h : s'.broker.disabled = false) :
      s.broker.disabled = false :=
    Bool.not_eq_true _ ▸ fun hd => Bool.false_ne_true (h.symm.trans (hevent.extends.disabled hd))
  refine h.invariant ⟨lawful_launch hb, fun _ j th hth => ?_⟩ (fun {s s' i ch} _ hs hstep => ?_)
    (fun {s} c n _ hs => ⟨hs.1.call c n, fun h => (hs.2 h).call c n⟩)
    fun {s} o _ hs => ⟨hs.1.operate o, fun h => ?_⟩
  · rw [thread_launch hth]
    trivial
  · obtain ⟨_, _, _, _, _, _, _, _, hshift⟩ := hs.1.shift hstep
    exact ⟨hs.1.step hstep, fun h => (hs.2 (hdisabled hshift.event h)).step hs.1 hstep (.inr h)⟩
  · exact hs.2 (hdisabled (shift_operate s o).event h)

end System

end JitBroker
