import JitBroker.Proofs.Task.Tenure

/-!
# One open task

A task is *open* from its arrival in a queue until the claim on its method has been given back for
it for the last time (`System.Open`). The claim is there so that a method has one open task at most,
and is claimed as long as that task is in a queue (`System.Sole`).

So it is in every run in which nobody intrudes on a method that a worker gave up on, whatever
requests, workers and calls do otherwise, and in whatever order. No more can be said of a run: a
request that intrudes, draws a number that may compile and finds room for a task (`System.admits`)
brings that task to its queue within five steps, and the worker still has its own
(`System.sole_of_run`).

* `System.claimants_pos_of_open`, `System.two_le_claimants`: each open task counts for one claimant;
* `System.Tenured.sole`: one claimant is one open task;
* `System.Delivers.claim`: a request that is admitted brings its task to its queue.
-/

namespace JitBroker

/-- The task that was taken off a queue, and for which the claim is still to be given back. -/
def Duty.pulled? : Duty → Option TaskId
  | .unmark t => some t
  | .post _ a => a.claimed?
  | _ => none

namespace System

/-- A task of a method is in a queue, or was taken off one and somebody is still to give the claim
back for it. -/
def Open (s : System) (m : MethodId) (t : TaskId) : Prop :=
  (∃ x, s.broker.tasks[t]? = some x ∧ x.method = m) ∧
    ((∃ (u : UnitId) (unit : TierUnit), s.broker.units[u]? = some unit ∧
        t ∈ unit.queue.list.toList) ∨
      ∃ d ∈ s.duties, d.pulled? = some t)

/-- Every method has one open task at most, and is claimed while a task of it is in a queue. -/
structure Sole (s : System) : Prop where
  /-- Two open tasks of a method are one, over all units and entries. -/
  one : ∀ {m : MethodId} {t t' : TaskId}, s.Open m t → s.Open m t' → t = t'
  /-- The method of a task in a queue is claimed. -/
  marked : ∀ {u : UnitId} {unit : TierUnit} {t : TaskId}, s.broker.units[u]? = some unit →
    t ∈ unit.queue.list.toList → ∃ x y, s.broker.tasks[t]? = some x ∧
      s.broker.methods[x.method]? = some y ∧ y.queued = true

/-- Whether a thread that is to claim a method gets, if it does so now, a number that may compile,
and there is room for its task. -/
def admits (s : System) (i : ThreadId) : Bool :=
  match s.threads[i]?.bind (·.agenda.head?) with
  | some (.request (.claim q)) =>
    s.broker.methods[q.request.method]?.any fun m =>
      s.broker.config.allowsId (s.broker.drawId (m.idKind q.request.bci)).1 &&
        s.broker.pool.allocate?.isSome
  | _ => false

variable {s : System} {i : ThreadId} {m : MethodId} {t t' : TaskId} {th : Thread}
  {rest : List Action} {q : Inquiry} {turn : Turn}

/-! ### Open tasks and claims -/

theorem exists_of_isFor (h : s.ledger.isFor m t = true) :
    ∃ x, s.broker.tasks[t]? = some x ∧ x.method = m :=
  Option.map_eq_some_iff.1 (of_decide_eq_true h)

theorem isFor_of_open (h : s.Open m t) : s.ledger.isFor m t = true := by
  obtain ⟨⟨x, hx, rfl⟩, -⟩ := h
  exact (Ledger.isFor_of_some hx).trans (decide_eq_true rfl)

/-- An open task is in some queue, or with somebody who has the claim. -/
theorem open_cases (h : s.Open m t) :
    t ∈ (↑(s.ledger.stocks.toList.flatMap (·.list.toList)) : Multiset TaskId) ∨
      ∃ d ∈ s.duties, d.pulled? = some t ∧ d.claims s.ledger m = true := by
  have hfor := isFor_of_open h
  obtain ⟨-, ⟨u, unit, hunit, ht⟩ | ⟨d, hd, hpulled⟩⟩ := h
  · have hst : s.ledger.stocks[u]? = some unit.queue.stock := by simp [ledger, hunit]
    exact .inl (List.mem_flatMap.2 ⟨_, Table.mem_toList_iff.2 ⟨u, hst⟩, ht⟩)
  · refine .inr ⟨d, hd, hpulled, ?_⟩
    cases d with
    | unmark t₀ =>
      obtain rfl := Option.some.inj hpulled
      exact hfor
    | post w a => simpa [Duty.claims, show a.claimed? = some t from hpulled] using hfor
    | _ => cases hpulled

/-- Where a method has an open task, somebody has the claim on it. -/
theorem claimants_pos_of_open (h : s.Open m t) : 0 < claimants s.ledger s.duties m := by
  unfold claimants
  rw [Ledger.waiting_eq_countP]
  rcases open_cases h with hqueue | ⟨d, hd, -, hclaims⟩
  · exact Nat.add_pos_left (Multiset.countP_pos.2 ⟨t, hqueue, isFor_of_open h⟩) _
  · exact Nat.add_pos_right _ (Multiset.countP_pos.2 ⟨d, hd, hclaims⟩)

/-- Where it has two, two have. -/
theorem two_le_claimants (h : s.Open m t) (h' : s.Open m t') (hne : t ≠ t') :
    2 ≤ claimants s.ledger s.duties m := by
  unfold claimants
  rw [Ledger.waiting_eq_countP]
  have queue {t : TaskId} (h : s.Open m t)
      (ht : t ∈ (↑(s.ledger.stocks.toList.flatMap (·.list.toList)) : Multiset TaskId)) :
      0 < Multiset.countP (fun t => s.ledger.isFor m t = true)
        (↑(s.ledger.stocks.toList.flatMap (·.list.toList)) : Multiset TaskId) :=
    Multiset.countP_pos.2 ⟨t, ht, isFor_of_open h⟩
  have somebody {d : Duty} (hd : d ∈ s.duties) (hclaims : d.claims s.ledger m = true) :
      0 < s.duties.countP (·.claims s.ledger m) := Multiset.countP_pos.2 ⟨d, hd, hclaims⟩
  -- Two in queues count as two there, two with somebody as two of those; else each side has one.
  rcases open_cases h with hq | ⟨d, hd, hpulled, hclaims⟩ <;>
    rcases open_cases h' with hq' | ⟨d', hd', hpulled', hclaims'⟩
  · have := two_le_countP (p := fun t => s.ledger.isFor m t = true) hq hq' hne (isFor_of_open h)
      (isFor_of_open h')
    omega
  · have := queue h hq
    have := somebody hd' hclaims'
    omega
  · have := queue h' hq'
    have := somebody hd hclaims
    omega
  · have hduties : d ≠ d' := by
      rintro rfl
      exact hne (Option.some.inj (hpulled.symm.trans hpulled'))
    have := two_le_countP (p := fun d => Duty.claims s.ledger m d = true) hd hd' hduties hclaims
      hclaims'
    omega

/-- Where one has the claim on each method that is claimed, there is one open task of each. -/
theorem Tenured.sole (h : s.Tenured) (hs : s.Lawful) : s.Sole := by
  refine ⟨fun {m t t'} ht ht' => ?_, fun {u unit t} hunit ht => ?_⟩
  · by_contra hne
    have := two_le_claimants ht ht' hne
    have := h.single m
    omega
  · -- A worker that gave up has no claim on a task in a queue, so those that count are enough.
    have hst : s.ledger.stocks[u]? = some unit.queue.stock := by simp [ledger, hunit]
    obtain ⟨x, hx⟩ := Table.exists_getElem? (hs.sound.queued hst t ht)
    obtain ⟨y, hy⟩ := hs.sound.exists_method hx
    have hfor : s.ledger.isFor x.method t = true :=
      (Ledger.isFor_of_some hx).trans (decide_eq_true rfl)
    have hpos : 0 < s.ledger.waiting (s.ledger.isFor x.method) :=
      (List.countP_pos_iff.2 ⟨t, ht, hfor⟩).trans_le
        (Table.le_total hst fun st : Stock => st.list.toList.countP (s.ledger.isFor x.method))
    have hclaimed := h.claimed x.method
    refine ⟨x, y, hx, hy, ?_⟩
    cases hy' : y.queued with
    | true => rfl
    | false =>
      have hfree : s.ledger.claimed x.method = false := by simp [Ledger.claimed, ledger, hy, hy']
      rw [hfree, Bool.toNat_false, claimants] at hclaimed
      omega

/-! ### Requests that intrude -/

/-- So many steps of a thread bring a task to a queue, and leave the actions of workers where they
are. -/
def Delivers (s : System) (i : ThreadId) (n : Nat) (m : MethodId) (t : TaskId) : Prop :=
  ((times i n).foldl move s).Open m t ∧ ∀ w x, Action.worker w x ∈ s.pending →
    Action.worker w x ∈ ((times i n).foldl move s).pending

namespace Delivers

variable {r r' : RequestStep} {b : Broker} {n : Nat} {unit : TierUnit} {x : Task}

/-- A step of a request is one more. -/
theorem step (hth : s.threads[i]? = some th) (ha : th.agenda = .request r :: rest)
    (hrun : r.run (th.caller i) {} s.broker = RequestStep.next b r')
    (hnext : ∀ {s' : System} {th' : Thread}, s'.broker = b → s'.threads[i]? = some th' →
      th'.agenda = .request r' :: rest → s'.Delivers i n m t) : s.Delivers i (n + 1) m t := by
  have hstep : s.move (.step i {}) = s.turned i { broker := b, next := [.request r'] } := by
    rw [System.move, step_eq_some_iff.2 ⟨th, _, rest, _, hth, ha, hrun, rfl⟩, Option.getD_some]
  have hbroker : (s.move (.step i {})).broker = b := congrArg System.broker hstep
  have hthread : (s.move (.step i {})).threads[i]? =
      some (th.after { broker := b, next := [.request r'] }) := by
    rw [hstep]
    exact threadsAfter_self hth
  obtain ⟨hopen, hkeeps⟩ := hnext hbroker hthread (Thread.agenda_after ha)
  refine ⟨hopen, fun w x hx => hkeeps w x ?_⟩
  rw [hstep]
  exact mem_turned_of_ne hth ha hx (by simp)

/-- The last step puts the task into the queue. -/
theorem append (hth : s.threads[i]? = some th) (ha : th.agenda = .request (.append q t) :: rest)
    (hunit : s.broker.units[q.unit]? = some unit) (hlist : unit.queue.list.Sound)
    (hx : s.broker.tasks[t]? = some x) (hslot : x.slot = none) : s.Delivers i 1 x.method t := by
  let unit' : TierUnit := { unit with queue := (unit.queue.push t).2.giveBack }
  obtain ⟨turn, hrun, htask, hunit'⟩ : ∃ turn,
      RequestStep.run (th.caller i) {} s.broker (.append q t) = some turn ∧
      turn.broker.tasks[t]? = some { x with slot := some (unit.queue.push t).1 } ∧
      turn.broker.units[q.unit]? = some unit' := by
    rw [RequestStep.run]
    simp only [hunit, hx, hslot, Option.isSome_none, Bool.false_eq_true, if_false]
    split <;>
      exact ⟨_, rfl, Table.getElem?_modify_self hx _, Table.getElem?_modify_self hunit _⟩
  have hstep : s.step i {} = some (s.turned i turn) :=
    step_eq_some_iff.2 ⟨th, _, rest, _, hth, ha, hrun, rfl⟩
  have hmove : (times i 1).foldl move s = s.turned i turn := by
    rw [times, List.replicate_one, List.foldl_cons, List.foldl_nil, System.move, hstep,
      Option.getD_some]
  have hlist' : t ∈ unit'.queue.list.toList := by
    show t ∈ (unit.queue.list.push t).2.toList
    rw [(hlist.push t).toList_eq]
    exact List.mem_append_right _ (List.mem_singleton_self t)
  rw [Delivers, hmove]
  exact ⟨⟨⟨_, htask, rfl⟩, .inl ⟨q.unit, unit', hunit', hlist'⟩⟩,
    fun w x hx => mem_turned_of_ne hth ha hx (by simp)⟩

theorem stamp (hth : s.threads[i]? = some th) (ha : th.agenda = .request (.stamp q t) :: rest)
    (hunit : s.broker.units[q.unit]? = some unit) (hlist : unit.queue.list.Sound)
    (hx : s.broker.tasks[t]? = some x) (hslot : x.slot = none) : s.Delivers i 2 x.method t := by
  obtain ⟨b, x', hrun, hunits, hx', hmethod, hslot'⟩ : ∃ b x',
      RequestStep.run (th.caller i) {} s.broker (.stamp q t) = RequestStep.next b (.append q t) ∧
      b.units = s.broker.units ∧ b.tasks[t]? = some x' ∧ x'.method = x.method ∧ x'.slot = none := by
    rw [RequestStep.run]
    simp only [hunit]
    exact ⟨_, _, rfl, rfl, Table.getElem?_modify_self hx _, rfl, hslot⟩
  rw [← hmethod]
  refine step hth ha hrun fun hb hth' ha' => ?_
  exact append hth' ha' (by rw [hb, hunits, hunit]) hlist (by rw [hb, hx']) hslot'

theorem allocate {id : UInt32} {pool : TaskPool} (hth : s.threads[i]? = some th)
    (ha : th.agenda = .request (.allocate q id) :: rest)
    (hunit : s.broker.units[q.unit]? = some unit) (hlist : unit.queue.list.Sound)
    (hpool : s.broker.pool.allocate? = some pool) :
    s.Delivers i 3 q.request.method s.broker.tasks.size := by
  obtain ⟨b, x, hrun, hunits, hx, hmethod, hslot⟩ : ∃ b x,
      RequestStep.run (th.caller i) {} s.broker (.allocate q id) =
        RequestStep.next b (.stamp q s.broker.tasks.size) ∧ b.units = s.broker.units ∧
      b.tasks[s.broker.tasks.size]? = some x ∧ x.method = q.request.method ∧ x.slot = none := by
    rw [RequestStep.run]
    simp only [hpool]
    exact ⟨_, _, rfl, rfl, Table.getElem?_add_self _ _, rfl, rfl⟩
  rw [← hmethod]
  refine step hth ha hrun fun hb hth' ha' => ?_
  exact stamp hth' ha' (by rw [hb, hunits, hunit]) hlist (by rw [hb, hx]) hslot

theorem number {y : Method} (hth : s.threads[i]? = some th)
    (ha : th.agenda = .request (.number q) :: rest)
    (hunit : s.broker.units[q.unit]? = some unit) (hlist : unit.queue.list.Sound)
    (hy : s.broker.methods[q.request.method]? = some y)
    (hid : s.broker.config.allowsId (s.broker.drawId (y.idKind q.request.bci)).1 = true)
    (hpool : s.broker.pool.allocate?.isSome = true) :
    s.Delivers i 4 q.request.method s.broker.tasks.size := by
  obtain ⟨pool, hpool⟩ := Option.isSome_iff_exists.1 hpool
  have hrun : RequestStep.run (th.caller i) {} s.broker (.number q) =
      RequestStep.next (s.broker.drawId (y.idKind q.request.bci)).2
        (.allocate q (s.broker.drawId (y.idKind q.request.bci)).1) := by
    rw [RequestStep.run]
    simp only [hy]
    exact if_pos hid
  refine step hth ha hrun fun {s' th'} hb hth' ha' => ?_
  have hsize : s'.broker.tasks.size = s.broker.tasks.size := by rw [hb]; rfl
  rw [← hsize]
  exact allocate hth' ha' (by rw [hb]; exact hunit) hlist (by rw [hb]; exact hpool)

/-- A request that is admitted brings its task to its queue. -/
theorem claim (hs : s.Lawful) (hth : s.threads[i]? = some th)
    (ha : th.agenda = .request (.claim q) :: rest)
    (hfree : s.ledger.claimed q.request.method = false) (hadmits : s.admits i = true) :
    s.Delivers i 5 q.request.method s.broker.tasks.size := by
  have hmem : Action.request (.claim q) ∈ s.pending :=
    mem_pending.2 ⟨i, th, hth, ha ▸ List.mem_cons_self⟩
  obtain ⟨hu, hm⟩ := hs.known _ (mem_duties.2 ⟨_, hmem, rfl⟩)
  obtain ⟨unit, hunit⟩ := Table.exists_getElem? (s.broker.size_stocks ▸ hu)
  obtain ⟨y, hy⟩ := Table.exists_getElem? (s.broker.size_claims ▸ hm)
  have hst : s.ledger.stocks[q.unit]? = some unit.queue.stock := by simp [ledger, hunit]
  have hlist : unit.queue.list.Sound := hs.sound.list hst
  have hqueued : y.queued = false := by simpa [Ledger.claimed, ledger, hy] using hfree
  simp only [admits, hth, ha, hy, Option.bind_some, List.head?_cons, Option.any_some,
    Bool.and_eq_true] at hadmits
  have hrun : RequestStep.run (th.caller i) {} s.broker (.claim q) =
      RequestStep.next (s.broker.modifyMethod q.request.method fun m => { m with queued := true })
        (.number q) := by
    rw [RequestStep.run]
    simp only [hy, hqueued, Bool.false_eq_true, if_false]
  refine step hth ha hrun fun {s' th'} hb hth' ha' => ?_
  have hy' : s'.broker.methods[q.request.method]? = some { y with queued := true } := by
    rw [hb]
    exact Table.getElem?_modify_self hy _
  have hsize : s'.broker.tasks.size = s.broker.tasks.size := by rw [hb]; rfl
  rw [← hsize]
  exact number hth' ha' (by rw [hb]; exact hunit) hlist hy' (by rw [hb]; exact hadmits.1)
    (by rw [hb]; exact hadmits.2)

end Delivers

/-- The task of a worker that gave up is open. -/
theorem open_of_gaveUp {w : WorkerId} {r : WorkerStep} {x : Task}
    (hmem : .worker w r ∈ s.pending) (hgave : (Action.worker w r).gaveUp? = some t)
    (hx : s.ledger.tasks[t]? = some x) : s.Open x.method t := by
  obtain ⟨_, _, heq, -, hphase⟩ := Action.post_of_gaveUp hgave
  obtain ⟨rfl, rfl⟩ := Action.worker.inj heq
  have hpulled : (Duty.post w r.phase).pulled? = some t := by
    rcases hphase with hphase | hphase <;> rw [hphase] <;> rfl
  exact ⟨⟨x, hx, rfl⟩, .inr ⟨_, mem_duties.2 ⟨_, hmem, rfl⟩, hpulled⟩⟩

/-- A request that intrudes and is admitted gives the method a second open task. -/
theorem Tenured.not_sole_of_intrudes (h : s.Tenured) (hs : s.Lawful)
    (hintrudes : s.intrudes (.step i {}) = true) (hadmits : s.admits i = true) :
    ¬((times i 5).foldl System.move s).Sole := by
  obtain ⟨th, rest, q, hth, ha, hforsaken⟩ := exists_of_intrudes hintrudes
  obtain ⟨hopen, hkeeps⟩ := Delivers.claim hs hth ha (h.quiet _ hforsaken) hadmits
  obtain ⟨a, hmem, t, hgave, hfor⟩ := forsaken_iff.1 hforsaken
  obtain ⟨w, r, rfl, -, -⟩ := Action.post_of_gaveUp hgave
  obtain ⟨x, hx, hmethod⟩ := exists_of_isFor hfor
  obtain ⟨x', hx', hext⟩ := (hs.extends_foldl (times i 5)).task hx
  have hopen' := open_of_gaveUp (hkeeps w r hmem) hgave hx'
  rw [hext.method, hmethod] at hopen'
  intro hsole
  exact absurd (hsole.one hopen' hopen) (Table.lt_size_of_getElem? hx).ne

/-- In every run in which nobody intrudes, whatever requesters, workers, stale tasks and calls do and
in whatever order: each method has one open task at most, over all units and entries, and is claimed
while a task of it is in a queue. And this is as far as it goes: from each state of such a run, the
next five steps of a request that intrudes and is admitted give its method a second open task. -/
theorem sole_of_run {config : Config} {parts : Broker.Parts} {b : Broker}
    (h : Broker.assemble config parts = .ok b) (moves : List Move)
    (hrun : (launch b).undisturbed moves = true) :
    (moves.foldl move (launch b)).Sole ∧
      ∀ i, (moves.foldl move (launch b)).intrudes (.step i {}) = true →
        (moves.foldl move (launch b)).admits i = true →
        ¬((moves ++ times i 5).foldl move (launch b)).Sole := by
  have hb := Broker.fresh_assemble h
  have hmethods : b.methods = .empty := by
    obtain ⟨units, -, rfl⟩ := Broker.exists_of_assemble h
    rfl
  have htenured := (tenured_launch hb hmethods).foldl_undisturbed (lawful_launch hb) hrun
  have hlawful := (lawful_launch hb).foldl moves
  refine ⟨htenured.sole hlawful, fun i hintrudes hadmits => ?_⟩
  rw [List.foldl_append]
  exact htenured.not_sole_of_intrudes hlawful hintrudes hadmits

/-- A request at a tier, for which nobody waits, of the only method there is. -/
def soloIntent : Request where
  method := 0
  tier := 1
  reason := .normal
  blocking := false

/-- A thread is given a call, and makes so many steps. -/
def soloCall (c : Call) (i : ThreadId) (n : Nat) : List Move := .call c 0 :: times i n

/-- The worker takes the only task and finds that jobs are no longer taken; then they are again, and
a second request comes as far as its claim. -/
def soloIntruder : List Move :=
  soloStart ++ soloCall (.request soloIntent) 2 20 ++ times 1 10
    ++ soloCall (.accept false) 3 2 ++ times 1 2
    ++ soloCall (.accept true) 4 2 ++ soloCall (.request soloIntent) 5 15

/-- There that request intrudes, and the method gets a second open task. -/
theorem sole_of_soloIntruder :
    (launch .solo).undisturbed soloIntruder = true ∧
      (soloIntruder.foldl move (launch .solo)).Sole ∧
      (soloIntruder.foldl move (launch .solo)).intrudes (.step 5 {}) = true ∧
      (soloIntruder.foldl move (launch .solo)).admits 5 = true ∧
      ¬((soloIntruder ++ times 5 5).foldl move (launch .solo)).Sole := by
  have hrun : (launch .solo).undisturbed soloIntruder = true := by decide +kernel
  have hintrudes : (soloIntruder.foldl move (launch .solo)).intrudes (.step 5 {}) = true := by
    decide +kernel
  have hadmits : (soloIntruder.foldl move (launch .solo)).admits 5 = true := by decide +kernel
  obtain ⟨hsole, hnot⟩ := sole_of_run Broker.assemble_solo soloIntruder hrun
  exact ⟨hrun, hsole, hintrudes, hadmits, hnot 5 hintrudes hadmits⟩

end System

end JitBroker
