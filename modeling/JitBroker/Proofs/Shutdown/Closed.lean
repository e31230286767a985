import JitBroker.Proofs.Jobs.Stop
import JitBroker.Proofs.Shutdown.Hold
import JitBroker.Proofs.Shutdown.Reject

/-!
# Brokers that are closed

Once the thread that disabled compilation is through with it, the broker is *closed* for good
(`System.Closed`): its queues are empty and gain no tasks, requests are rejected, the tasks that were
drained are complete and say that they went stale, and a requester that sleeps without a bell has its
task with a worker that is about to complete it.

* `System.underway_of_disabled`: the step that sets the mark leaves everything still to be done;
* `System.over_of_left`: everything is done when the thread has run what the step brought;
* `System.closed_of_run`: so the broker is closed in every later state, whatever happens.
-/

namespace JitBroker

namespace System

variable {s s' : System} {i : ThreadId} {ch : Choices} {th : Thread} {a : Action} {rest : List Action}
  {ts : List TaskId} {b : Broker}

/-- What holds in a state `s` after compilation was disabled: by then these tasks were drained, and
the queues had gained what they had in the state `s₀`. -/
structure Closed (s₀ s : System) (drained : List TaskId) : Prop where
  /-- The queues are empty. -/
  empty : ∀ unit ∈ s.broker.units.toList, unit.queue.list.toList = []
  /-- They have gained nothing. -/
  added : s.broker.units.toList.map (·.queue.added) = s₀.broker.units.toList.map (·.queue.added)
  /-- A request that begins is rejected within three steps of its thread. -/
  rejected : ∀ {j : ThreadId} {th : Thread} {r : Request} {rest : List Action} {ms : List Move},
    s.threads[j]? = some th → th.agenda = .request (.enter r) :: rest →
      3 ≤ ms.countP (·.isStepOf j) → ∃ pre, pre <+: ms ∧ ∃ th e,
        (pre.foldl move s).threads[j]? = some th ∧ th.agenda = rest ∧
          th.reply = some (.outcome (.rejected e))
  /-- A task that was drained is complete, its failure says so, and its method is not claimed. -/
  ended : ∀ t ∈ drained, ∃ x m, s.broker.tasks[t]? = some x ∧ x.complete = true ∧
    x.result.success = false ∧ x.result.failure.map (·.text) = some "stale task" ∧
      s.broker.methods[x.method]? = some m ∧ m.queued = false
  /-- The task of a requester that sleeps, and has heard all bells, is with a worker that is not at the
  back-end, and stays there until the worker has completed it. -/
  sleeper : ∀ {j : ThreadId} {th : Thread} {q : Inquiry} {t : TaskId} {bell : Nat}
    {watch : Option Watch} {rest : List Action} {x : Task}, s.threads[j]? = some th →
      th.agenda = .request (.asleep q t bell watch) :: rest → s.broker.tasks[t]? = some x →
        x.bell = bell → ∃ i w n, s.Holds i w t n ∧
          ∀ ms : List Move, (ms.foldl move s).Held i w t (n - (s.trace ms).countP (·.serves t))

@[simp] theorem drainedIn_append (s : System) (ms ms' : List Move) :
    s.drainedIn (ms ++ ms') = s.drainedIn ms ++ (ms.foldl move s).drainedIn ms' := by
  induction ms generalizing s with
  | nil => rfl
  | cons m ms ih => rw [List.cons_append, drainedIn, drainedIn, ih, List.append_assoc, List.foldl_cons]

/-! ### The one who disables compilation -/

/-- The step that disables compilation leaves its thread with all the rest to do. -/
theorem underway_of_disabled (hs : s.Lawful) (hcalm : s.Calm) (hth : s.threads[i]? = some th)
    (ha : th.agenda = a :: rest) (henabled : s.broker.disabled = false)
    (hdisabled : (s.move (.step i ch)).broker.disabled = true) :
    (s.move (.step i ch)).Underway i rest [] := by
  cases hstep : s.step i ch with
  | none =>
    rw [System.move, hstep] at hdisabled
    exact absurd (henabled.symm.trans hdisabled) Bool.false_ne_true
  | some s' =>
    rw [System.move, hstep] at hdisabled ⊢
    obtain ⟨turn, -, rfl, hshift⟩ := hs.shift_of hth ha hstep
    have hnext : turn.next ≠ [] := by
      rintro hnil
      rcases hshift.event.disabled_eq with h | ⟨-, -, h⟩
      · exact Bool.false_ne_true (henabled.symm.trans (h.symm.trans hdisabled))
      · simp [hnil, JitBroker.duties] at h
    refine ⟨_, turn.next, threadsAfter_self hth, Thread.agenda_after ha, hnext, ?_,
      fun j th' hj hth' => ?_, fun _ ht => absurd ht List.not_mem_nil⟩
    · have hcalm := hcalm i th hth
      rw [Thread.Calm, ha, duties_cons] at hcalm
      exact hcalm.of_append
    · rcases threadsAfter_cases hth hth' with ⟨hj', -⟩ | ⟨-, hth'⟩ | ⟨-, w, -, rfl⟩
      · exact absurd hj' hj
      · exact hcalm j th' hth'
      · exact calm_ofWorker w

/-- Compilation is disabled, and a thread is still at it, or it is over. -/
theorem Underway.foldl (ho : s.Orderly) (hdis : s.broker.disabled = true)
    (h : s.Underway i rest ts ∨ s.Over ts) (ms : List Move) :
    (ms.foldl System.move s).Underway i rest (ts ++ s.drainedIn ms) ∨
      (ms.foldl System.move s).Over (ts ++ s.drainedIn ms) := by
  induction ms generalizing s ts with
  | nil => simpa [drainedIn] using h
  | cons m ms ih =>
    rw [List.foldl_cons, drainedIn, ← List.append_assoc]
    refine ih (ho.move m) ((ho.lawful.extends_move m).disabled hdis) ?_
    rcases h with h | h
    · exact h.move ho hdis m
    · rw [h.drainedBy m, List.append_nil]
      exact .inr (h.move ho hdis m)

/-- A thread is through with it when it has run all that the step brought. -/
theorem over_of_left (h : s.Underway i rest ts ∨ s.Over ts) (hleft : s.left i ≤ rest.length) :
    s.Over ts := by
  refine h.resolve_left ?_
  rintro ⟨th, pre, hth, ha, hpre, -⟩
  have hlength := List.length_pos_iff.2 hpre
  rw [left, hth, Option.map_some, Option.getD_some, ha, List.length_append] at hleft
  omega

/-- A thread with so many actions before it is at the first of them. -/
theorem exists_of_left {n : Nat} (h : s.left i = n + 1) : ∃ th a rest,
    s.threads[i]? = some th ∧ th.agenda = a :: rest ∧ rest.length = n := by
  unfold left at h
  cases hth : s.threads[i]? with
  | none => simp [hth] at h
  | some th =>
    rw [hth, Option.map_some, Option.getD_some] at h
    obtain ⟨a, rest, ha⟩ := List.exists_cons_of_length_eq_add_one h
    rw [ha] at h
    exact ⟨th, a, rest, rfl, ha, Nat.succ.inj h⟩

/-! ### What is over -/

namespace Over

variable {u : UnitId} {st st' : Stock} {t : TaskId}

/-- Nobody is to drain a queue, so it is empty, and nobody brings a task. -/
theorem drained (h : s.Over ts) (ho : s.Orderly) (hdis : s.broker.disabled = true)
    (hst : s.ledger.stocks[u]? = some st) :
    st.list.toList = [] ∧ ∀ d ∈ s.duties, d.passed u = false :=
  (ho.closing.drained hdis hst).resolve_left (h.1.not_mem fun _ _ => id)

/-- A method of a task that was drained is not claimed: no queue has a task of it, and nobody is
bringing one. -/
theorem claimed (h : s.Over ts) (ho : s.Orderly) (hdis : s.broker.disabled = true) (ht : t ∈ ts) :
    ∃ x, s.ledger.tasks[t]? = some x ∧ x.stale = true ∧ x.complete = true ∧
      s.ledger.claimed x.method = false := by
  obtain ⟨x, hx, hstale, hcomplete, hclaimed⟩ := h.2 t ht
  refine ⟨x, hx, hstale, hcomplete.resolve_right List.not_mem_nil, ?_⟩
  refine Bool.not_eq_true _ ▸ fun hm => ?_
  rcases hclaimed hm with ⟨_, hmem, -⟩ | ⟨u, hbound⟩
  · exact List.not_mem_nil hmem
  · rcases hbound.claim with ⟨d, hd, hbrings⟩ | ⟨st, hst, t', ht', -⟩
    · have hpassed := Duty.passed_of_brings hbrings
      obtain ⟨st, hst⟩ := Table.exists_getElem? (Duty.lt_of_passed (ho.lawful.known d hd) hpassed)
      rw [(h.drained ho hdis hst).2 d hd] at hpassed
      cases hpassed
    · rw [(h.drained ho hdis hst).1] at ht'
      exact List.not_mem_nil ht'

/-- No queue gains a task. -/
theorem added (h : s.Over ts) (ho : s.Orderly) (hdis : s.broker.disabled = true) (m : Move) :
    (s.move m).ledger.stocks.map (·.added) = s.ledger.stocks.map (·.added) := by
  obtain ⟨d, new, hired, hshift⟩ := ho.lawful.shift_move m
  refine Table.ext_getElem? fun u => ?_
  rw [Table.getElem?_map, Table.getElem?_map]
  cases hst' : (s.move m).ledger.stocks[u]? with
  | none =>
    have hsize := hshift.event.extends.stocks
    rw [Table.getElem?_eq_none_iff, hsize, ← Table.getElem?_eq_none_iff] at hst'
    rw [hst']
  | some st' =>
    obtain ⟨st, hst, ⟨hadded, -⟩ | ⟨m, t, rfl⟩⟩ := hshift.event.stock_of hst'
    · rw [hst, Option.map_some, Option.map_some, hadded]
    · have := (h.drained ho hdis hst).2 _ (hshift.mem _ rfl)
      simp [Duty.passed] at this

theorem foldl (h : s.Over ts) (ho : s.Orderly) (hdis : s.broker.disabled = true) (ms : List Move) :
    (ms.foldl System.move s).Over ts ∧ s.drainedIn ms = [] ∧
      (ms.foldl System.move s).ledger.stocks.map (·.added) = s.ledger.stocks.map (·.added) := by
  induction ms generalizing s with
  | nil => exact ⟨h, rfl, rfl⟩
  | cons m ms ih =>
    obtain ⟨hover, hdrained, hadded⟩ :=
      ih (h.move ho hdis m) (ho.move m) ((ho.lawful.extends_move m).disabled hdis)
    refine ⟨hover, ?_, hadded.trans (h.added ho hdis m)⟩
    rw [drainedIn, h.drainedBy m, hdrained]
    rfl

/-- When all is over, the broker is closed. -/
theorem closed {s₀ : System} (h : s.Over ts) (ho : s.Orderly) (hdis : s.broker.disabled = true)
    (hadded : s.ledger.stocks.map (·.added) = s₀.ledger.stocks.map (·.added)) :
    Closed s₀ s ts where
  empty unit hunit := by
    obtain ⟨u, hu⟩ := Table.mem_toList_iff.1 hunit
    exact (h.drained ho hdis (stock_of_unit hu)).1
  added := by
    have harrivals (s : System) : (s.ledger.stocks.map (·.added)).toList =
        s.broker.units.toList.map (·.queue.added) := by
      rw [Table.toList_map, ledger, Broker.ledger, Table.toList_map, List.map_map]
      rfl
    rw [← harrivals, hadded, harrivals]
  rejected hth ha hms := (Refused.enter hth ha).rejected ho.lawful hdis hms
  ended t ht := by
    obtain ⟨x, hx, hstale, hcomplete, hclaimed⟩ := h.claimed ho hdis ht
    have hfair := ho.lawful.custody t x hx
    have hspoil : share s.duties t .spoil = 0 := by
      have hle := hfair.spoil
      rw [hfair.scrap, hcomplete, Bool.not_true, Bool.and_false] at hle
      exact Nat.le_zero.1 hle
    obtain ⟨hsuccess, hfailure⟩ :=
      (hfair.result hstale).resolve_left fun hpos => Nat.lt_irrefl 0 (hspoil ▸ hpos)
    obtain ⟨m, hm⟩ := ho.lawful.sound.exists_method hx
    refine ⟨x, m, hx, hcomplete, hsuccess, by rw [hfailure]; rfl, hm, ?_⟩
    simpa [Ledger.claimed, ledger, hm] using hclaimed
  sleeper {j th q t bell watch rest x} hth ha hx hbell := by
    subst hbell
    have hsleep : Duty.sleep t x.bell ∈ s.duties :=
      mem_duties.2 ⟨_, mem_pending.2 ⟨j, th, hth, ha ▸ List.mem_cons_self⟩, rfl⟩
    obtain ⟨i, w, hholds⟩ := exists_holds ho hdis h.1 hx hsleep
    exact ⟨i, w, 17, hholds, fun ms => Held.run (.inr hholds) ho hdis ms⟩

end Over

/-- In every run of a broker, whatever requesters and workers do: once the thread whose step disabled
compilation is through with it, the broker is closed in every later state. -/
theorem closed_of_run {config : Config} {parts : Broker.Parts}
    (hb : Broker.assemble config parts = .ok b) (hs : Reachable (launch b) s)
    (hth : s.threads[i]? = some th) (ha : th.agenda = a :: rest)
    (henabled : s.broker.disabled = false)
    (hdisabled : (s.move (.step i ch)).broker.disabled = true) {during : List Move}
    (hleft : (during.foldl move (s.move (.step i ch))).left i ≤ rest.length) (after : List Move) :
    Closed (during.foldl move (s.move (.step i ch)))
      (after.foldl move (during.foldl move (s.move (.step i ch))))
      ((s.move (.step i ch)).drainedIn (during ++ after)) := by
  have hfresh := Broker.fresh_assemble hb
  have hunderway := underway_of_disabled (hs.lawful hfresh) (hs.calm hfresh henabled) hth ha henabled
    hdisabled
  have later {s : System} (hs : Reachable (launch b) s) (ms : List Move) :
      Reachable (launch b) (ms.foldl move s) := hs.trans (reachable_iff_foldl.2 ⟨ms, rfl⟩)
  have hs₁ : Reachable (launch b) (s.move (.step i ch)) := hs.move _
  have hs₂ := later hs₁ during
  have hdis₂ := disabled_foldl hdisabled during
  have hover := over_of_left
    (Underway.foldl (hs₁.orderly hfresh) hdisabled (.inl hunderway) during) hleft
  obtain ⟨hover, hdrained, hadded⟩ := hover.foldl (hs₂.orderly hfresh) hdis₂ after
  rw [drainedIn_append, hdrained, List.append_nil]
  exact hover.closed ((later hs₂ after).orderly hfresh) (disabled_foldl hdis₂ after) hadded

/-- Two requesters sleep. The worker is to take up the task of one of them, and that of the other is in
the queue. A third thread is to disable compilation. -/
def soloDisable : List Move :=
  soloStart ++ [.operate (.addMethod { name := "g", className := "C" }),
      .call (.request { method := 0, tier := 1, reason := .normal, blocking := true }) 0]
    ++ times 2 21 ++ times 1 5
    ++ [.call (.request { method := 1, tier := 1, reason := .normal, blocking := true }) 0]
    ++ times 3 21 ++ [.call .disable 0]

/-- There the queued task is drained, and its requester is still to leave; the other one has no bell to
hear before the worker has completed its task. -/
theorem closed_of_soloDisable :
    (soloDisable.foldl move (launch .solo)).left 4 = 2 ∧
      (soloDisable.foldl move (launch .solo)).broker.disabled = false ∧
      ((soloDisable.foldl move (launch .solo)).move (.step 4 {})).broker.disabled = true ∧
      ((times 4 8).foldl move ((soloDisable.foldl move (launch .solo)).move (.step 4 {}))).left 4 = 1 ∧
      Closed ((times 4 8).foldl move ((soloDisable.foldl move (launch .solo)).move (.step 4 {})))
        ((times 1 3).foldl move
          ((times 4 8).foldl move ((soloDisable.foldl move (launch .solo)).move (.step 4 {})))) [1] := by
  have hbusy : (soloDisable.foldl move (launch .solo)).left 4 = 2 := by decide +kernel
  have henabled : (soloDisable.foldl move (launch .solo)).broker.disabled = false := by decide +kernel
  have hdisabled : ((soloDisable.foldl move (launch .solo)).move (.step 4 {})).broker.disabled = true :=
    by decide +kernel
  have hleft : ((times 4 8).foldl move
      ((soloDisable.foldl move (launch .solo)).move (.step 4 {}))).left 4 = 1 := by decide +kernel
  have hdrained : ((soloDisable.foldl move (launch .solo)).move (.step 4 {})).drainedIn
      (times 4 8 ++ times 1 3) = [1] := by decide +kernel
  obtain ⟨th, a, rest, hth, ha, hrest⟩ := exists_of_left hbusy
  have hclosed := closed_of_run Broker.assemble_solo (reachable_iff_foldl.2 ⟨soloDisable, rfl⟩) hth ha
    henabled hdisabled (hrest ▸ hleft.le) (times 1 3)
  rw [hdrained] at hclosed
  exact ⟨hbusy, henabled, hdisabled, hleft, hclosed⟩

end System

end JitBroker
