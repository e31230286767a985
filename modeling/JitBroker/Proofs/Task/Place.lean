import JitBroker.Proofs.Ledger.Tiers
import JitBroker.Proofs.Task.Sole
import JitBroker.Proofs.Task.Whole

/-!
# Where tasks are

In a run of whole steps (`System.whole`), when all threads rest, every task that has not been freed
is at one place (`System.Placed`): in the queue of its own tier, once; or in the hands of a worker
of its tier; or it is complete, and its requester is still to take the result. And a method is
claimed if and only if one of its tasks is in a queue or in the hands of a worker, and then there is
one such task.

* `System.Lawful.place`: the parts that threads have in a task (`Fair`) leave it one place;
* `System.open_of_busy`: a task that is in a queue or in the hands of a worker is open, and so there
  is one for each claim;
* `System.placed_of_run`: so it is in all runs of whole steps.
-/

namespace JitBroker

/-- Where a task may be. -/
inductive Place where
  /-- In the queue of a unit. -/
  | queue (u : UnitId)
  /-- In the hands of a worker. -/
  | worker (w : WorkerId)
  /-- With a requester that waits for it. -/
  | requester (i : ThreadId)

/-- Whether an action is to wait for a task. -/
def Action.waitsFor (t : TaskId) : Action → Bool
  | .request (.asleep _ t' _ _) => t' == t
  | _ => false

namespace System

/-- A task is at a place. With its requester it is only once it is complete. -/
def At (s : System) (t : TaskId) : Place → Prop
  | .queue u => ∃ unit, s.broker.units[u]? = some unit ∧ t ∈ unit.queue.list.toList
  | .worker w => ∃ worker, s.broker.workers[w]? = some worker ∧ worker.current = some t
  | .requester i => (∃ x, s.broker.tasks[t]? = some x ∧ x.complete = true) ∧
      ∃ th, s.threads[i]? = some th ∧ th.agenda.any (·.waitsFor t) = true

/-- A task belongs to a place: it is there once, and the tier is its own. -/
def Fits (s : System) (t : TaskId) (x : Task) : Place → Prop
  | .queue u => ∃ unit, s.broker.units[u]? = some unit ∧ unit.config.level = x.tier ∧
      unit.queue.list.toList.count t = 1
  | .worker w => ∃ worker unit, s.broker.workers[w]? = some worker ∧
      s.broker.units[worker.unit]? = some unit ∧ unit.config.level = x.tier
  | .requester _ => x.blocking = true ∧ x.waiters = 1

/-- A task of a method is in a queue, or in the hands of a worker. -/
def Busy (s : System) (m : MethodId) (t : TaskId) : Prop :=
  (∃ x, s.broker.tasks[t]? = some x ∧ x.method = m) ∧
    ((∃ u, s.At t (.queue u)) ∨ ∃ w, s.At t (.worker w))

/-- Every task has its place, and every claim its task. -/
structure Placed (s : System) : Prop where
  /-- A task that has not been freed is at one place, to which it belongs, and at no other. -/
  place : ∀ {t : TaskId} {x : Task}, s.broker.tasks[t]? = some x → x.freed = false →
    ∃ p, s.At t p ∧ s.Fits t x p ∧ ∀ p', s.At t p' → p' = p
  /-- A method is claimed if and only if there is one task of it in a queue or in the hands of a
  worker. -/
  claim : ∀ {m : MethodId} {y : Method}, s.broker.methods[m]? = some y →
    (y.queued = true ↔ ∃! t, s.Busy m t)
  /-- If it is not claimed, there is none. -/
  idle : ∀ {m : MethodId} {y : Method}, s.broker.methods[m]? = some y → y.queued = false →
    ∀ t, ¬s.Busy m t

end System

/-! ### Duties at rest -/

/-- A thread that rests has a part in a task only as a worker that shows it, or as a requester that
waits for it. -/
theorem Duty.part_of_rests {d : Duty} {t : TaskId} {p : Part} (h : d.rests = true)
    (hp : d.part? t = some p) : (p = .work ∧ ∃ w a, d = .post w a ∧ a.shown? = some t) ∨
      p = .sleep ∧ ∃ bell, d = .sleep t bell := by
  cases d with
  | post w a =>
    cases a <;> simp_all [rests, part?, Phase.task?, Phase.shown?]
  | sleep t' bell =>
    simp only [part?, Option.ite_none_right_eq_some, Option.some.injEq] at hp
    obtain ⟨rfl, rfl⟩ := hp
    exact .inr ⟨rfl, bell, rfl⟩
  | desk u m stage => cases hp
  | outside _ _ | wake _ | drain _ | rouse | nudge _ => cases hp
  | _ => cases h

theorem Phase.task_of_shown {a : Phase} {t : TaskId} (h : a.shown? = some t) : a.task? = some t := by
  cases a <;> simp_all [shown?, task?]

theorem Phase.claimed_of_shown {a : Phase} {t : TaskId} (h : a.shown? = some t) :
    a.claimed? = some t := by
  cases a <;> simp_all [shown?, claimed?]

/-- A thread that rests has a claim only as a worker that shows a task. -/
theorem Duty.claims_of_rests {d : Duty} {l : Ledger} {m : MethodId} (h : d.rests = true)
    (hd : d.claims l m = true) : ∃ w a t, d = .post w a ∧ a.shown? = some t ∧ l.isFor m t = true := by
  cases d with
  | post w a =>
    cases a <;> simp_all [rests, claims, Phase.claimed?, Phase.shown?]
  | desk u m' stage => cases stage <;> first | cases hd | cases h
  | outside _ _ | wake _ | drain _ | rouse | nudge _ | sleep _ _ => cases hd
  | _ => cases h

namespace System

variable {s : System} {t t' : TaskId} {x : Task} {u : UnitId} {w : WorkerId} {i j : ThreadId}
  {m : MethodId}

theorem rests_duties (h : s.rests = true) : ∀ d ∈ s.duties, d.rests = true := by
  intro d hd
  obtain ⟨a, ha, hd⟩ := mem_duties.1 hd
  obtain ⟨i, th, hth, ha⟩ := mem_pending.1 ha
  have hrests := List.all_eq_true.1 h th (Table.mem_toList_iff.2 ⟨i, hth⟩)
  have := List.all_eq_true.1 hrests a ha
  rw [Action.rests, hd, Bool.and_eq_true] at this
  exact this.1

theorem rests_pending (h : s.rests = true) : ∀ a ∈ s.pending, a.gaveUp? = none := by
  intro a ha
  obtain ⟨i, th, hth, ha⟩ := mem_pending.1 ha
  have hrests := List.all_eq_true.1 h th (Table.mem_toList_iff.2 ⟨i, hth⟩)
  exact Action.gaveUp_of_rests (List.all_eq_true.1 hrests a ha)

theorem at_queue_iff : s.At t (.queue u) ↔
    ∃ st, s.ledger.stocks[u]? = some st ∧ t ∈ st.list.toList := by
  rw [At, ledger, Broker.getElem?_stocks]
  constructor
  · rintro ⟨unit, hunit, ht⟩
    exact ⟨_, by rw [hunit]; rfl, ht⟩
  · rintro ⟨st, hst, ht⟩
    obtain ⟨unit, hunit, rfl⟩ := Option.map_eq_some_iff.1 hst
    exact ⟨unit, hunit, ht⟩

/-- A task is in the hands of the workers that show it. -/
theorem at_worker_iff (hs : s.Lawful) (hp : Posted s.ledger s.duties) :
    s.At t (.worker w) ↔ ∃ a, .post w a ∈ s.duties ∧ a.shown? = some t := by
  constructor
  · rintro ⟨worker, hworker, ht⟩
    exact (hp.current (p := worker.post) (by simp [ledger, hworker])).1 ht
  · rintro ⟨a, ha, ht⟩
    obtain ⟨p, hpost⟩ := Table.exists_getElem? (hs.known _ ha).1
    have hcurrent := (hp.current hpost).2 ⟨a, ha, ht⟩
    rw [ledger, Broker.getElem?_posts] at hpost
    obtain ⟨worker, hworker, rfl⟩ := Option.map_eq_some_iff.1 hpost
    exact ⟨worker, hworker, hcurrent⟩

/-- Who waits for a task has a part in it. -/
theorem part_of_waitsFor {a : Action} (h : a.waitsFor t = true) : a.part? t = some .sleep := by
  cases a with
  | request s =>
    cases s with
    | asleep q t' bell watch =>
      obtain rfl : t' = t := by simpa [Action.waitsFor] using h
      simp [Action.part?, Action.duty?, RequestStep.duty?, Duty.part?]
    | _ => cases h
  | _ => cases h

theorem waitsFor_of_duty {a : Action} {bell : Nat} (h : a.duty? = some (.sleep t bell)) :
    a.waitsFor t = true := by
  cases a with
  | request s =>
    cases s with
    | asleep q t' bell watch =>
      obtain ⟨rfl, -⟩ := Duty.sleep.inj (Option.some.inj h)
      simp [Action.waitsFor]
    | _ => cases h
  | task s =>
    cases s with
    | complete t who => cases who <;> cases h
    | _ => cases h
  | control s => cases s <;> cases h
  | _ => cases h

/-- Two threads with a part in a task have two. -/
theorem two_le_share_of_threads {p : Part} {th th' : Thread} {a a' : Action}
    (hth : s.threads[i]? = some th) (hth' : s.threads[j]? = some th') (hij : i ≠ j)
    (ha : a ∈ th.agenda) (ha' : a' ∈ th'.agenda) (hp : a.part? t = some p)
    (hp' : a'.part? t = some p) : 2 ≤ share s.duties t p := by
  have hsplit := duties_park hth (List.append_nil th.agenda).symm
  have hone {as : List Action} {b : Action} (hb : b ∈ as) (hbp : b.part? t = some p) :
      ∃ d ∈ JitBroker.duties as, d.part? t = some p := by
    obtain ⟨d, hd, hdp⟩ := Option.bind_eq_some_iff.1 hbp
    exact ⟨d, JitBroker.mem_duties.2 ⟨b, hb, hd⟩, hdp⟩
  have hthread : (s.park i []).threads[j]? = some th' := by
    rw [park, Table.getElem?_modify_of_ne hij, hth']
  obtain ⟨d, hd, hdp⟩ := hone ha hp
  obtain ⟨d', hd', hdp'⟩ := Option.bind_eq_some_iff.1 hp'
  have hmem : d' ∈ (s.park i []).duties := mem_duties.2 ⟨a', mem_pending.2 ⟨j, th', hthread, ha'⟩, hd'⟩
  have h₁ : 0 < share ↑(JitBroker.duties th.agenda) t p := share_pos_iff.2 ⟨d, hd, hdp⟩
  have h₂ := share_pos_iff.2 ⟨d', hmem, hdp'⟩
  rw [hsplit, share_add]
  omega

/-! ### Places -/

theorem queued_pos (h : s.At t (.queue u)) : 0 < s.ledger.queued t := by
  obtain ⟨st, hst, ht⟩ := at_queue_iff.1 h
  exact (List.count_pos_iff.2 ht).trans_le
    (Table.le_total hst fun st : Stock => st.list.toList.count t)

theorem work_pos (hs : s.Lawful) (hp : Posted s.ledger s.duties) (h : s.At t (.worker w)) :
    0 < share s.duties t .work := by
  obtain ⟨a, ha, ht⟩ := (at_worker_iff hs hp).1 h
  exact share_pos_iff.2 ⟨_, ha, by simp [Duty.part?, Phase.task_of_shown ht]⟩

/-- A task that is in the queues once is in the queue of its tier. -/
theorem place_of_queued (ht : s.Tiered) (hx : s.broker.tasks[t]? = some x)
    (hone : s.ledger.queued t = 1) :
    ∃ u, s.At t (.queue u) ∧ s.Fits t x (.queue u) ∧ ∀ u', s.At t (.queue u') → u' = u := by
  obtain ⟨u, st, hst, hcount⟩ : ∃ (u : UnitId) (st : Stock), s.ledger.stocks[u]? = some st ∧
      st.list.toList.count t ≠ 0 := by
    by_contra hnone
    push Not at hnone
    exact absurd (hone.symm.trans (Table.total_eq_zero_iff.2 hnone)) (by simp)
  have hmem : t ∈ st.list.toList := List.count_pos_iff.1 (Nat.pos_of_ne_zero hcount)
  have hle : st.list.toList.count t ≤ s.ledger.queued t :=
    Table.le_total hst fun st : Stock => st.list.toList.count t
  obtain ⟨y, hy, htier⟩ := ht.task.queued hst t hmem
  obtain rfl := Option.some.inj (hx.symm.trans hy)
  obtain ⟨unit, hunit, hlevel⟩ := Option.map_eq_some_iff.1 htier
  have hstock : unit.queue.stock = st := by simpa [ledger, hunit] using hst
  refine ⟨u, at_queue_iff.2 ⟨st, hst, hmem⟩, ⟨unit, hunit, hlevel, ?_⟩, fun u' hu' => ?_⟩
  · have hcount' : unit.queue.list.toList.count t = st.list.toList.count t :=
      congrArg (fun st : Stock => st.list.toList.count t) hstock
    omega
  · obtain ⟨st', hst', hmem'⟩ := at_queue_iff.1 hu'
    by_contra hne
    have htwo : st.list.toList.count t + st'.list.toList.count t ≤ s.ledger.queued t :=
      Table.add_le_total hst hst' (Ne.symm hne) fun st : Stock => st.list.toList.count t
    have := List.count_pos_iff.2 hmem'
    omega

/-- A task that one thread is at work on is in the hands of a worker of its tier. -/
theorem place_of_work (hs : s.Lawful) (hp : Posted s.ledger s.duties) (ht : s.Tiered)
    (hrests : s.rests = true) (hx : s.broker.tasks[t]? = some x)
    (hone : share s.duties t .work = 1) :
    ∃ w, s.At t (.worker w) ∧ s.Fits t x (.worker w) ∧ ∀ w', s.At t (.worker w') → w' = w := by
  obtain ⟨d, hd, hpart⟩ := share_pos_iff.1 (Nat.lt_of_lt_of_eq Nat.one_pos hone.symm)
  obtain ⟨-, w, a, rfl, hshown⟩ | ⟨hwork, -⟩ := Duty.part_of_rests (rests_duties hrests d hd) hpart
  · have hat := (at_worker_iff hs hp).2 ⟨a, hd, hshown⟩
    obtain ⟨y, p, hy, hpost, htier⟩ := ht.task.duty _ hd t (Phase.task_of_shown hshown)
    obtain rfl := Option.some.inj (hx.symm.trans hy)
    rw [ledger, Broker.getElem?_posts] at hpost
    obtain ⟨worker, hworker, rfl⟩ := Option.map_eq_some_iff.1 hpost
    obtain ⟨unit, hunit, hlevel⟩ := Option.map_eq_some_iff.1 htier
    refine ⟨w, hat, ⟨worker, unit, hworker, hunit, hlevel⟩, fun w' hw' => ?_⟩
    obtain ⟨a', hd', hshown'⟩ := (at_worker_iff hs hp).1 hw'
    by_contra hne
    have := two_le_share (p := .work) hd hd' (by simp [Ne.symm hne]) hpart
      (by simp [Duty.part?, Phase.task_of_shown hshown'])
    omega
  · cases hwork

/-- A complete task that one thread waits for is with its requester. -/
theorem place_of_sleep (hs : s.Lawful) (ht : s.Tiered) (hrests : s.rests = true)
    (hx : s.broker.tasks[t]? = some x) (hcomplete : x.complete = true)
    (hone : share s.duties t .sleep = 1) :
    ∃ i, s.At t (.requester i) ∧ s.Fits t x (.requester i) ∧
      ∀ i', s.At t (.requester i') → i' = i := by
  obtain ⟨d, hd, hpart⟩ := share_pos_iff.1 (Nat.lt_of_lt_of_eq Nat.one_pos hone.symm)
  obtain ⟨hsleep, -⟩ | ⟨-, bell, rfl⟩ := Duty.part_of_rests (rests_duties hrests d hd) hpart
  · cases hsleep
  · obtain ⟨y, hy, hblocking⟩ := ht.task.duty _ hd
    obtain rfl := Option.some.inj (hx.symm.trans hy)
    obtain ⟨a, ha, hduty⟩ := mem_duties.1 hd
    obtain ⟨i, th, hth, ha⟩ := mem_pending.1 ha
    have hwaits := waitsFor_of_duty hduty
    refine ⟨i, ⟨⟨x, hx, hcomplete⟩, th, hth, List.any_eq_true.2 ⟨a, ha, hwaits⟩⟩,
      ⟨hblocking, (hs.custody t x hx).waiters.trans hone⟩, ?_⟩
    rintro i' ⟨-, th', hth', hany⟩
    obtain ⟨a', ha', hwaits'⟩ := List.any_eq_true.1 hany
    by_contra hne
    have := two_le_share_of_threads hth hth' (Ne.symm hne) ha ha' (part_of_waitsFor hwaits)
      (part_of_waitsFor hwaits')
    omega

/-- Every task that has not been freed is at one place, to which it belongs. -/
theorem Lawful.place (hs : s.Lawful) (hp : Posted s.ledger s.duties) (ht : s.Tiered)
    (hrests : s.rests = true) (hx : s.broker.tasks[t]? = some x) (hfreed : x.freed = false) :
    ∃ p, s.At t p ∧ s.Fits t x p ∧ ∀ p', s.At t p' → p' = p := by
  obtain ⟨hkeeper, hscrap, -, -, hafter, -, -, -⟩ := hs.custody t x hx
  have hnone {p : Part} (hwork : p ≠ .work) (hsleep : p ≠ .sleep) : share s.duties t p = 0 :=
    Multiset.countP_eq_zero.2 fun d hd hpart => by
      rcases Duty.part_of_rests (rests_duties hrests d hd) hpart with ⟨h, -⟩ | ⟨h, -⟩
      · exact hwork h
      · exact hsleep h
  rw [hnone (p := .bring) (by simp) (by simp)] at hkeeper
  rw [hnone (p := .scrap) (by simp) (by simp)] at hscrap
  rw [hnone (p := .attend) (by simp) (by simp), hnone (p := .free) (by simp) (by simp), hfreed]
    at hafter
  cases hcomplete : x.complete with
  | true =>
    have hone := hafter hcomplete
    rw [hcomplete, Bool.true_or, if_pos rfl] at hkeeper
    obtain ⟨i, hat, hfits, hunique⟩ := place_of_sleep hs ht hrests hx hcomplete (by simpa using hone)
    refine ⟨_, hat, hfits, fun p' hp' => ?_⟩
    cases p' with
    | queue u => have := queued_pos hp'; omega
    | worker w => have := work_pos hs hp hp'; omega
    | requester i' => rw [hunique i' hp']
  | false =>
    have hopen {i' : ThreadId} (hp' : s.At t (.requester i')) : False := by
      obtain ⟨⟨y, hy, hy'⟩, -⟩ := hp'
      obtain rfl := Option.some.inj (hx.symm.trans hy)
      rw [hcomplete] at hy'
      cases hy'
    have hstale : x.stale = false := by
      cases hstale : x.stale with
      | false => rfl
      | true => simp [hstale, hcomplete] at hscrap
    simp only [hcomplete, hstale, Bool.or_self, Bool.false_eq_true, if_false] at hkeeper
    by_cases hqueued : s.ledger.queued t = 0
    · obtain ⟨w, hat, hfits, hunique⟩ := place_of_work hs hp ht hrests hx (by omega)
      refine ⟨_, hat, hfits, fun p' hp' => ?_⟩
      cases p' with
      | queue u => have := queued_pos hp'; omega
      | worker w' => rw [hunique w' hp']
      | requester i' => exact (hopen hp').elim
    · obtain ⟨u, hat, hfits, hunique⟩ := place_of_queued ht hx (by omega)
      refine ⟨_, hat, hfits, fun p' hp' => ?_⟩
      cases p' with
      | queue u' => rw [hunique u' hp']
      | worker w' => have := work_pos hs hp hp'; omega
      | requester i' => exact (hopen hp').elim

/-! ### Claims -/

/-- Where somebody has the claim on a method, a task of it is in a queue or in the hands of a
worker. -/
theorem exists_busy (hs : s.Lawful) (hp : Posted s.ledger s.duties) (hrests : s.rests = true)
    (h : 0 < claimants s.ledger s.duties m) : ∃ t, s.Busy m t := by
  unfold claimants at h
  rw [Ledger.waiting_eq_countP] at h
  rcases Nat.add_pos_iff_pos_or_pos.1 h with h | h
  · obtain ⟨t, hmem, hfor⟩ := Multiset.countP_pos.1 h
    obtain ⟨st, hst, ht⟩ := List.mem_flatMap.1 (Multiset.mem_coe.1 hmem)
    obtain ⟨u, hst⟩ := Table.mem_toList_iff.1 hst
    exact ⟨t, exists_of_isFor hfor, .inl ⟨u, at_queue_iff.2 ⟨st, hst, ht⟩⟩⟩
  · obtain ⟨d, hd, hclaims⟩ := Multiset.countP_pos.1 h
    obtain ⟨w, a, t, rfl, hshown, hfor⟩ := Duty.claims_of_rests (rests_duties hrests d hd) hclaims
    exact ⟨t, exists_of_isFor hfor, .inr ⟨w, (at_worker_iff hs hp).2 ⟨a, hd, hshown⟩⟩⟩

/-- A task that is in a queue or in the hands of a worker is open. -/
theorem open_of_busy (hs : s.Lawful) (hp : Posted s.ledger s.duties) (h : s.Busy m t) :
    s.Open m t := by
  obtain ⟨htask, ⟨u, unit, hunit, ht⟩ | ⟨w, hw⟩⟩ := h
  · exact ⟨htask, .inl ⟨u, unit, hunit, ht⟩⟩
  · obtain ⟨a, ha, hshown⟩ := (at_worker_iff hs hp).1 hw
    exact ⟨htask, .inr ⟨_, ha, Phase.claimed_of_shown hshown⟩⟩

/-- When all threads rest, every task has its place, and every claim its task. -/
theorem Tenured.placed (h : s.Tenured) (hs : s.Lawful) (hp : Posted s.ledger s.duties)
    (ht : s.Tiered) (hrests : s.rests = true) : s.Placed := by
  have hclaimed := h.claimed
  rw [tenures_eq_duties (rests_pending hrests)] at hclaimed
  have hqueued {m : MethodId} {y : Method} (hy : s.broker.methods[m]? = some y) :
      claimants s.ledger s.duties m = y.queued.toNat := by
    rw [hclaimed m]
    simp [Ledger.claimed, ledger, hy]
  have hidle {m : MethodId} {y : Method} (hy : s.broker.methods[m]? = some y)
      (hfree : y.queued = false) (t : TaskId) : ¬s.Busy m t := by
    intro hbusy
    have := claimants_pos_of_open (open_of_busy hs hp hbusy)
    rw [hqueued hy, hfree, Bool.toNat_false] at this
    omega
  refine ⟨fun hx hfreed => hs.place hp ht hrests hx hfreed, fun {m y} hy => ⟨fun hbusy => ?_, ?_⟩,
    hidle⟩
  · have hone := hqueued hy
    rw [hbusy, Bool.toNat_true] at hone
    obtain ⟨t, ht⟩ := exists_busy hs hp hrests (Nat.lt_of_lt_of_eq Nat.one_pos hone.symm)
    refine ⟨t, ht, fun t' ht' => ?_⟩
    by_contra hne
    have := two_le_claimants (open_of_busy hs hp ht') (open_of_busy hs hp ht) hne
    omega
  · rintro ⟨t, ht, -⟩
    by_contra hfree
    exact hidle hy (by simpa using hfree) t ht

/-- In every run of a broker that is made of whole steps, whatever these are and in whatever order:
when all threads rest, each task that has not been freed is in the queue of its tier, once, or in
the hands of one worker of its tier, or complete and with its requester, and nowhere else; and a
method is claimed if and only if one task of it is in a queue or in the hands of a worker. -/
theorem placed_of_run {config : Config} {parts : Broker.Parts} {b : Broker}
    (h : Broker.assemble config parts = .ok b) (moves : List Move)
    (hwhole : (launch b).whole moves = true) (hrests : (moves.foldl move (launch b)).rests = true) :
    (moves.foldl move (launch b)).Placed := by
  have hb := Broker.fresh_assemble h
  have hmethods : b.methods = .empty := by
    obtain ⟨units, -, rfl⟩ := Broker.exists_of_assemble h
    rfl
  have hr : Reachable (launch b) (moves.foldl move (launch b)) := reachable_iff_foldl.2 ⟨moves, rfl⟩
  exact ((tenured_launch hb hmethods).foldl (lawful_launch hb) hwhole).placed (hr.lawful hb)
    (hr.posted hb) (hr.tiered hb) hrests

/-- A requester waits for a task that the worker has taken to the back-end, and a task of another
method is in the queue. -/
def soloBusy : List Move :=
  soloStart ++ [.operate (.addMethod { name := "g", className := "C" }),
      .call (.request { method := 0, tier := 1, reason := .normal, blocking := true }) 0]
    ++ times 2 21 ++ times 1 11
    ++ [.call (.request { method := 1, tier := 1, reason := .normal, blocking := false }) 0]
    ++ times 3 20

/-- There both tasks have their places. -/
theorem placed_of_soloBusy :
    (launch .solo).whole soloBusy = true ∧ (soloBusy.foldl move (launch .solo)).rests = true ∧
      (soloBusy.foldl move (launch .solo)).broker.tasks.size = 2 ∧
      (soloBusy.foldl move (launch .solo)).Placed :=
  have hwhole : (launch .solo).whole soloBusy = true := by decide +kernel
  have hrests : (soloBusy.foldl move (launch .solo)).rests = true := by decide +kernel
  ⟨hwhole, hrests, by decide +kernel, placed_of_run Broker.assemble_solo soloBusy hwhole hrests⟩

end System

end JitBroker
