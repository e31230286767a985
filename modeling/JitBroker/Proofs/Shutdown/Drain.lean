import JitBroker.Proofs.Shutdown.Calm

/-!
# Draining the queues
-/

namespace JitBroker

variable {l l' : Ledger} {ds ds' : Multiset Duty} {d : Option Duty} {new pre pre' : List Duty}
  {hired : Option WorkerId} {u : UnitId} {w : WorkerId} {t : TaskId} {st : Stock}

/-! ### Tasks that were drained -/

theorem Duty.part_eq_scrap {d : Duty} : d.part? t = some .scrap ↔ d = .scrap t := by
  cases d <;> simp [part?]

namespace Event

/-- Who is to complete a task goes on with it, or completes it. -/
theorem served {d : Duty} {p : Part} (h : Event l (some d) new hired l')
    (hp : p = .work ∨ p = .scrap) (hd : d.part? t = some p) :
    (∃ d' ∈ new, d'.part? t = some p) ∨ ∃ x, l'.tasks[t]? = some x ∧ x.complete = true := by
  have goesOn {d' : Duty} (hd' : d'.part? t = some p) : ∃ d'' ∈ [d'], d''.part? t = some p :=
    ⟨d', List.mem_singleton_self _, hd'⟩
  have ends {t' : TaskId} (hd : d = .scrap t' ∨ d = .finish t') : t' = t := by
    rcases hd with rfl | rfl <;> simp_all [Duty.part?]
  cases h with
  | plain _ | know _ => exact .inl (goesOn hd)
  | ring hd' hx _ =>
    obtain rfl := ends hd'
    exact .inr ⟨_, Table.getElem?_modify_self hx _, rfl⟩
  | close hd' hx _ =>
    obtain rfl := ends hd'
    exact .inr ⟨_, Table.getElem?_modify_self hx _, rfl⟩
  | take | compile _ | giveUp _ | drop | release _ => exact .inl (goesOn hd)
  | judge ha => exact .inl (goesOn (by rcases ha with rfl | rfl <;> exact hd))
  | publish _ =>
    refine .inl ⟨_, List.mem_cons_self, ?_⟩
    simp_all [Duty.part?, Phase.task?]
  | lookOut _ ha _ => rcases ha with rfl | rfl <;> simp [Duty.part?, Phase.task?] at hd
  | _ => rcases hp with rfl | rfl <;> simp [Duty.part?, Phase.task?] at hd

/-- Who is to give back the claim of a task that will not run is still to do so, or does it. -/
theorem unmarked {m : MethodId} (h : Event l (some (.unmark t)) new hired l') (hs : l.Sound)
    (hfor : l.isFor m t = true) : .unmark t ∈ new ∨ l'.claimed m = false := by
  cases h with
  | plain _ | know _ => exact .inl (List.mem_singleton_self _)
  | unmark hx =>
    rw [Ledger.isFor_of_some hx] at hfor
    obtain rfl := of_decide_eq_true hfor
    exact .inr (Ledger.claimed_claim (hs.method hx) false)
  | ring hd _ _ | close hd _ _ => rcases hd with hd | hd <;> cases hd

end Event

/-- A task that was drained is stale; it is complete, or these duties are to complete it; and if its
method is claimed, they are to give the claim back, or it is on its way to a queue. -/
def Ending (l : Ledger) (ds : Multiset Duty) (pre : List Duty) (t : TaskId) : Prop :=
  ∃ x, l.tasks[t]? = some x ∧ x.stale = true ∧ (x.complete = true ∨ .scrap t ∈ pre) ∧
    (l.claimed x.method = true →
      (∃ t', .unmark t' ∈ pre ∧ l.isFor x.method t' = true) ∨ ∃ u, Bound l ds x.method u)

namespace Ending

/-- Every event leads on, if those who are to end the task go on. -/
theorem shift (he : Ending l ds pre t) (hs : l.Sound) (hk : ∀ d ∈ ds, d.Known l)
    (hpre : ∀ d ∈ pre, d ∈ ds) (hg : Guarded l ds) (h : Shift l ds d new hired l' ds')
    (hdis : l.disabled = true) (hgo : ∀ d' ∈ pre, d' ∈ pre' ∨ d = some d' ∧ new ⊆ pre')
    (hdrain : ∀ u, d = some (.drain u) → new ⊆ pre') : Ending l' ds' pre' t := by
  have hext := h.event.extends
  obtain ⟨x, hx, hstale, hend, hclaim⟩ := he
  obtain ⟨x', hx', hev⟩ := hext.task hx
  refine ⟨x', hx', hev.stale hstale, ?_, fun hclaimed => ?_⟩
  · rcases hend with hcomplete | hscrap
    · exact .inl (hev.complete hcomplete)
    · rcases hgo _ hscrap with hscrap | ⟨rfl, hnew⟩
      · exact .inr hscrap
      · rcases h.event.served (.inr rfl) (show (Duty.scrap t).part? t = some .scrap by
          simp [Duty.part?]) with ⟨d', hd', hpart⟩ | ⟨y, hy, hcomplete⟩
        · exact .inr (hnew (Duty.part_eq_scrap.1 hpart ▸ hd'))
        · obtain rfl := Option.some.inj (hx'.symm.trans hy)
          exact .inl hcomplete
  · rw [hev.method] at hclaimed ⊢
    rcases Bound.of_claimed hg hk h hdis hclaimed with hold | hbound
    · rcases hclaim hold with ⟨t', hunmark, hfor⟩ | ⟨u, hbound⟩
      · have hfor' : l'.isFor x.method t' = true := (Ledger.isFor_mono hext (hk _ (hpre _ hunmark))).trans hfor
        rcases hgo _ hunmark with hunmark | ⟨rfl, hnew⟩
        · exact .inl ⟨t', hunmark, hfor'⟩
        · rcases h.event.unmarked hs hfor with hunmark | hgiven
          · exact .inl ⟨t', hnew hunmark, hfor'⟩
          · rw [hclaimed] at hgiven
            cases hgiven
      · rcases hbound.shift hs hk h hdis with hbound | hgiven | ⟨hd, t', hunmark, hfor⟩
        · exact .inr ⟨u, hbound⟩
        · rw [hclaimed] at hgiven
          cases hgiven
        · exact .inl ⟨t', hdrain u hd hunmark, hfor⟩
    · exact .inr hbound

/-- A task that is drained is being ended by what the drain brings. -/
theorem of_drain (hs : l.Sound) (h : Event l (some (.drain u)) new hired l')
    (hst : l.stocks[u]? = some st) (ht : t ∈ st.list.toList) (hdrain : .drain u ∉ new)
    (hnew : new ⊆ pre) : Ending l' ds pre t := by
  cases h with
  | plain _ | know _ => exact absurd (List.mem_singleton_self _) hdrain
  | ring hd _ _ | close hd _ _ => rcases hd with hd | hd <;> cases hd
  | drain hst' hfree hlist hempty htasks =>
    obtain rfl := Option.some.inj (hst.symm.trans hst')
    obtain ⟨x, hx⟩ := Table.exists_getElem? (hs.queued hst t ht)
    obtain ⟨un, hx'⟩ := htasks.task hx
    have hts := hlist.perm.subset ht
    rw [hempty, List.append_nil] at hts
    refine ⟨_, hx', by simp [hts], .inr (hnew (Duty.mem_discard.2 ⟨t, hts, .inr (.inr rfl)⟩)),
      fun _ => .inl ⟨t, hnew (Duty.mem_discard.2 ⟨t, hts, .inl rfl⟩), ?_⟩⟩
    rw [Ledger.isFor_of_some hx']
    exact decide_eq_true rfl

end Ending

/-- Whoever drains a queue is not to drain it once more. -/
theorem ControlStep.drain_notMem {me : Caller} {b : Broker} {turn : Turn} {u' : UnitId}
    (h : (ControlStep.drain u).run me b = some turn) : .drain u' ∉ duties turn.next := by
  have fault (h : Turn.fault b = some turn) : .drain u' ∉ duties turn.next := by
    obtain rfl := Option.some.inj h
    exact List.not_mem_nil
  rw [run] at h
  split at h
  · exact fault h
  · split at h
    · split at h
      · obtain rfl := Option.some.inj h
        rw [duties_stale]
        intro hmem
        obtain ⟨_, -, hmem | hmem | hmem⟩ := Duty.mem_discard.1 hmem <;> cases hmem
      · exact fault h
    · exact absurd h (by simp)

namespace System

variable {s s' : System} {i j : ThreadId} {ch : Choices} {th : Thread} {a : Action}
  {rest : List Action} {ts : List TaskId} {m : Move}

/-- How many actions a thread has before it. -/
def left (s : System) (i : ThreadId) : Nat := (s.threads[i]?.map (·.agenda.length)).getD 0

/-- The tasks that a move takes off a queue for good. -/
def drainedBy (s : System) (m : Move) : List TaskId :=
  match s.ran m with
  | some (.control (.drain u)) => (s.broker.units[u]?.map (·.queue.list.toList)).getD []
  | _ => []

/-- The tasks that are drained in a row of moves. -/
def drainedIn (s : System) : List Move → List TaskId
  | [] => []
  | m :: ms => s.drainedBy m ++ (s.move m).drainedIn ms

theorem ran_step (hth : s.threads[i]? = some th) (ha : th.agenda = a :: rest)
    (h : s.step i ch = some s') : s.ran (.step i ch) = some a := by
  simp [ran, hth, h, ha]

theorem ran_of_none (h : s.step i ch = none) : s.ran (.step i ch) = none := by
  rw [ran, h]
  split <;> simp_all

theorem ran_mem (h : s.ran m = some a) : a ∈ s.pending := by
  cases m with
  | step i ch =>
    rw [ran] at h
    split at h
    · rename_i th _ hth _
      exact mem_pending.2 ⟨i, th, hth, List.mem_of_head? h⟩
    · cases h
  | _ => cases h

theorem mem_drainedBy (hran : s.ran m = some a) (h : t ∈ s.drainedBy m) :
    ∃ u st, a = .control (.drain u) ∧ s.ledger.stocks[u]? = some st ∧ t ∈ st.list.toList := by
  rw [drainedBy, hran] at h
  split at h
  · rename_i u heq
    obtain rfl := Option.some.inj heq
    cases hunit : s.broker.units[u]? with
    | none => simp [hunit] at h
    | some unit =>
      rw [hunit] at h
      exact ⟨u, unit.queue.stock, rfl, by simp [ledger, hunit], h⟩
  · cases h

/-- A thread has not finished to disable compilation: it has more before it than `rest`, with which
it goes on as a calm thread; the others are calm; and these tasks, which it has drained, are being
ended. -/
def Underway (s : System) (i : ThreadId) (rest : List Action) (ts : List TaskId) : Prop :=
  ∃ th pre, s.threads[i]? = some th ∧ th.agenda = pre ++ rest ∧ pre ≠ [] ∧
    Followed (Duty.Calm th.worker) (JitBroker.duties rest) ∧
    (∀ (j : ThreadId) (th' : Thread), j ≠ i → s.threads[j]? = some th' → th'.Calm) ∧
    ∀ t ∈ ts, Ending s.ledger s.duties (JitBroker.duties pre) t

/-- No thread disables compilation any more, and these tasks, which were drained, are ended. -/
def Over (s : System) (ts : List TaskId) : Prop :=
  s.Calm ∧ ∀ t ∈ ts, Ending s.ledger s.duties [] t

namespace Over

/-- A calm thread drains nothing. -/
theorem drainedBy (h : s.Over ts) (m : Move) : s.drainedBy m = [] := by
  refine List.eq_nil_iff_forall_not_mem.2 fun t ht => ?_
  cases hran : s.ran m with
  | none => simp [System.drainedBy, hran] at ht
  | some a =>
    obtain ⟨u, -, rfl, -, -⟩ := mem_drainedBy hran ht
    have hmem : Action.control (.drain u) ∈ s.pending := ran_mem hran
    exact h.1.not_mem (fun _ _ => id) (mem_duties.2 ⟨_, hmem, rfl⟩)

theorem shift {d : Option Duty} {new : List Duty} {hired : Option WorkerId} (h : s.Over ts)
    (ho : s.Orderly) (hdis : s.broker.disabled = true) (hcalm : s'.Calm)
    (hshift : Shift s.ledger s.duties d new hired s'.ledger s'.duties) : s'.Over ts := by
  refine ⟨hcalm, fun t ht => ?_⟩
  refine (h.2 t ht).shift ho.lawful.sound ho.lawful.known nofun ho.guarded hshift hdis nofun ?_
  rintro u rfl
  exact absurd (hshift.mem _ rfl) (h.1.not_mem fun _ _ => id)

/-- Every move leads on. -/
theorem move (h : s.Over ts) (ho : s.Orderly) (hdis : s.broker.disabled = true) (m : Move) :
    (s.move m).Over ts := by
  obtain ⟨_, _, _, hshift⟩ := ho.lawful.shift_move m
  exact h.shift ho hdis (h.1.move ho.lawful hdis m) hshift

end Over

namespace Underway

/-- What another thread does, and what happens outside, changes nothing. -/
theorem shift {d : Option Duty} {new : List Duty} {hired : Option WorkerId}
    (h : s.Underway i rest ts) (ho : s.Orderly) (hdis : s.broker.disabled = true)
    (hd : ∀ u, d ≠ some (.drain u)) (hself : ∀ {th}, s.threads[i]? = some th → s'.threads[i]? = some th)
    (hothers : ∀ (j : ThreadId) (th' : Thread), j ≠ i → s'.threads[j]? = some th' → th'.Calm)
    (hshift : Shift s.ledger s.duties d new hired s'.ledger s'.duties) : s'.Underway i rest ts := by
  obtain ⟨th, pre, hth, ha, hpre, hrest, -, hending⟩ := h
  refine ⟨th, pre, hself hth, ha, hpre, hrest, hothers, fun t ht => ?_⟩
  refine (hending t ht).shift ho.lawful.sound ho.lawful.known (fun d hd => ?_) ho.guarded hshift
    hdis (fun _ h => .inl h) fun u hu => absurd hu (hd u)
  obtain ⟨a, hmem, hduty⟩ := JitBroker.mem_duties.1 hd
  exact mem_duties.2 ⟨a, mem_pending.2 ⟨i, th, hth, ha ▸ List.mem_append_left _ hmem⟩, hduty⟩

/-- A step of the thread leads on, to the end at last. -/
theorem step_self (h : s.Underway i rest ts) (ho : s.Orderly) (hdis : s.broker.disabled = true)
    (hstep : s.step i ch = some s') :
    s'.Underway i rest (ts ++ s.drainedBy (.step i ch)) ∨
      s'.Over (ts ++ s.drainedBy (.step i ch)) := by
  obtain ⟨th, pre, hth, ha, hpre, hrest, hothers, hending⟩ := h
  obtain ⟨a, pre, rfl⟩ := List.exists_cons_of_ne_nil hpre
  obtain ⟨turn, hrun, rfl, hshift⟩ := ho.lawful.shift_of hth ha hstep
  have hran := ran_step hth ha hstep
  have hagenda : (th.after turn).agenda = (turn.next ++ pre) ++ rest := by
    rw [Thread.agenda_after ha, List.append_assoc]
    rfl
  have hduties : JitBroker.duties (turn.next ++ pre) =
      JitBroker.duties turn.next ++ JitBroker.duties pre := duties_append _ _
  have hnew : JitBroker.duties turn.next ⊆ JitBroker.duties (turn.next ++ pre) :=
    hduties ▸ List.subset_append_left _ _
  have hall : ∀ t ∈ ts ++ s.drainedBy (.step i ch), Ending (s.turned i turn).ledger
      (s.turned i turn).duties (JitBroker.duties (turn.next ++ pre)) t := by
    intro t ht
    rcases List.mem_append.1 ht with ht | ht
    · refine (hending t ht).shift ho.lawful.sound ho.lawful.known (fun d hd => ?_) ho.guarded hshift
        hdis (fun d hd => ?_) fun _ _ => hnew
      · obtain ⟨a', hmem, hduty⟩ := JitBroker.mem_duties.1 hd
        exact mem_duties.2 ⟨a', mem_pending.2 ⟨i, th, hth, ha ▸ List.mem_append_left _ hmem⟩, hduty⟩
      · rw [duties_cons, List.mem_append, Option.mem_toList] at hd
        rcases hd with hd | hd
        · exact .inr ⟨hd, hnew⟩
        · exact .inl (hduties ▸ List.mem_append_right _ hd)
    · obtain ⟨u, st, rfl, hst, htask⟩ := mem_drainedBy hran ht
      have hrun : (ControlStep.drain u).run (th.caller i) s.broker = some turn := hrun
      exact Ending.of_drain ho.lawful.sound hshift.event hst htask
        (ControlStep.drain_notMem hrun) hnew
  by_cases hnil : turn.next ++ pre = []
  · rw [hnil] at hagenda hall
    refine .inr ⟨fun j th' hth' => ?_, hall⟩
    refine calm_turned hth ?_ (fun {j th'} hj h => hothers j th' hj h) j th' hth'
    rw [Thread.Calm, hagenda]
    exact hrest
  · refine .inl ⟨_, _, threadsAfter_self hth, hagenda, hnil, hrest, fun j th' hj hth' => ?_, hall⟩
    rcases threadsAfter_cases hth hth' with ⟨hj', -⟩ | ⟨-, hth'⟩ | ⟨-, w, -, rfl⟩
    · exact absurd hj' hj
    · exact hothers j th' hj hth'
    · exact calm_ofWorker w

/-- Every move leads on. -/
theorem move (h : s.Underway i rest ts) (ho : s.Orderly) (hdis : s.broker.disabled = true)
    (m : Move) : (s.move m).Underway i rest (ts ++ s.drainedBy m) ∨
      (s.move m).Over (ts ++ s.drainedBy m) := by
  have hothers : ∀ (j : ThreadId) (th' : Thread), j ≠ i → s.threads[j]? = some th' → th'.Calm := by
    obtain ⟨_, _, _, _, _, _, h, _⟩ := h
    exact h
  have nothing {m : Move} (hran : ∀ u, s.ran m ≠ some (.control (.drain u))) : s.drainedBy m = [] := by
    unfold System.drainedBy
    split
    · rename_i u heq
      exact absurd heq (hran u)
    · rfl
  cases m with
  | call c n =>
    rw [nothing (by simp [ran]), List.append_nil]
    refine .inl (h.shift ho hdis (by simp) getElem?_threads_spawn (fun j th' hj hth' => ?_)
      (s.shift_call c n))
    rcases thread_call_cases hth' with hold | rfl
    · exact hothers j th' hj hold
    · exact calm_call c n
  | operate o =>
    rw [nothing (by simp [ran]), List.append_nil]
    exact .inl (h.shift ho hdis (by simp) id hothers (s.shift_operate o))
  | step j ch =>
    cases hstep : s.step j ch with
    | none =>
      rw [nothing (by simp [ran_of_none hstep]), List.append_nil, System.move, hstep]
      exact .inl h
    | some s' =>
      rw [System.move, hstep]
      by_cases hj : j = i
      · subst hj
        exact h.step_self ho hdis hstep
      obtain ⟨th', a, rest', turn, hth', ha, -, rfl, hshift⟩ := ho.lawful.shift hstep
      have hcalm := hothers j th' hj hth'
      have hdrain (u : UnitId) : a.duty? ≠ some (.drain u) := fun hd =>
        hcalm.not_mem (fun _ _ => id) (JitBroker.mem_duties.2 ⟨a, ha ▸ List.mem_cons_self, hd⟩)
      rw [nothing (m := .step j ch), List.append_nil]
      · refine .inl (h.shift ho hdis hdrain (fun hth => threadsAfter_of_ne hth (Ne.symm hj))
          (fun k th'' hk hth'' => ?_) hshift)
        rcases threadsAfter_cases hth' hth'' with ⟨-, rfl⟩ | ⟨-, hth''⟩ | ⟨-, w, -, rfl⟩
        · exact calm_after ha hcalm (.inl hdis) hshift.event
        · exact hothers k th'' hk hth''
        · exact calm_ofWorker w
      · intro u hran
        rw [ran_step hth' ha hstep, Option.some.injEq] at hran
        subst hran
        exact hdrain u rfl

end Underway

end System

end JitBroker
