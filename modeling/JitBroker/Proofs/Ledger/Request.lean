import JitBroker.Proofs.Ledger.Event

/-!
# The events of a request

A request changes nothing in the ledger before it has the lock of its queue. Under the lock it
claims its method and brings a task, or gives back what it has; afterwards it changes its task only
(`RequestStep.event`).
-/

namespace JitBroker.RequestStep

variable {me : Caller} {ch : Choices} {b : Broker} {turn : Turn} {q : Inquiry} {t : TaskId}
  {task : Task}

/-- What a requester does that finds its task complete, or gives up, as it wakes up. -/
theorem leave_event {bell : Nat} {gaveUp : Bool} (ht : b.tasks[t]? = some task)
    (h : leave b q t task gaveUp = some turn) :
    Event b.ledger (some (.sleep t bell)) (duties turn.next) turn.hired turn.broker.ledger := by
  unfold leave at h
  split at h
  · rename_i hc
    obtain rfl := Option.some.inj h
    exact .wakeComplete ht hc
  · rename_i hc
    obtain rfl := Option.some.inj h
    exact .leave ht (by simpa using hc)

/-- What a requester does that finds its task complete, or compilation disabled, before it sleeps: it
counts as waiting for a moment only. -/
theorem turnBack_event {u : UnitId} (ht : b.tasks[t]? = some task)
    (h : leave (b.modifyTask t fun x => { x with waiters := x.waiters + 1 }) q t task false =
      some turn) :
    Event b.ledger (some (.attend u t)) (duties turn.next) turn.hired turn.broker.ledger := by
  unfold leave at h
  split at h
  · rename_i hc
    obtain rfl := Option.some.inj h
    refine Event.cast (.findComplete ht hc) (congrArg (fun ts => { b.ledger with tasks := ts }) ?_)
    exact (Table.modify_modify _ _ _ _).trans (Table.modify_eq_self fun _ => by rfl)
  · rename_i hc
    obtain rfl := Option.some.inj h
    exact Event.cast (.findDisabled ht (by simpa using hc))
      (congrArg (fun ts => { b.ledger with tasks := ts }) (Table.modify_modify _ _ _ _))

theorem wakeUp_event {bell : Nat} {watch : Option Watch} (ht : b.tasks[t]? = some task)
    (h : wakeUp b ch q t task watch = some turn) :
    Event b.ledger (some (.sleep t bell)) (duties turn.next) turn.hired turn.broker.ledger := by
  unfold wakeUp at h
  split at h
  · exact leave_event ht h
  · rename_i hc
    simp only [Bool.or_eq_true, not_or, Bool.not_eq_true] at hc
    split at h
    · obtain rfl := Option.some.inj h
      exact .sleepOn ht hc.1 hc.2
    · split at h
      · obtain rfl := Option.some.inj h
        exact .sleepOn ht hc.1 hc.2
      · split at h
        · exact leave_event ht h
        · obtain rfl := Option.some.inj h
          exact .sleepOn ht hc.1 hc.2

/-- The steps before the lock change nothing. -/
theorem outside_event {u : UnitId} {m : Option MethodId} {s : RequestStep}
    (hd : s.duty? = some (.outside u m))
    (h : run me ch b s = some turn) :
    Event b.ledger s.duty? (duties turn.next) turn.hired turn.broker.ledger := by
  cases s with
  | enabled q =>
    rw [run] at h
    split at h
    · exact .of_answer h rfl
    · exact .of_go h rfl rfl
  | accepted q =>
    rw [run] at h
    split at h
    · exact .of_go h rfl rfl
    · exact .of_answer h rfl
  | eligible q =>
    rw [run] at h
    split at h
    · exact .of_fault h
    · rename_i x hx
      split at h
      · exact .of_answer h rfl
      · split at h
        · exact .of_answer h rfl
        · split at h
          · exact .of_answer h rfl
          · obtain rfl := Option.some.inj h
            exact .name (by simpa using Table.lt_size_of_getElem? hx)
  | existing q =>
    rw [run] at h
    split at h
    · exact .of_fault h
    · split at h
      · exact .of_answer h rfl
      · exact .of_go h rfl rfl
  | policy q =>
    rw [run] at h
    split at h
    · exact .of_go h rfl rfl
    · exact .of_fault h
  | allowed q =>
    rw [run] at h
    split at h
    · exact .of_fault h
    · split at h
      · exact .of_answer h (b.ledger_modifyMethod (fun x => Method.queued_prohibit x _ _) _)
      · exact .of_answer h rfl
      · exact .of_go h rfl rfl
  | native q =>
    rw [run] at h
    split at h
    · exact .of_fault h
    · split at h
      · split at h
        · exact .of_answer h rfl
        · exact .of_go h rfl rfl
      · exact .of_go h rfl rfl
  | link q =>
    rw [run] at h
    split at h
    · exact .of_fault h
    · split at h
      · exact .of_go h (b.ledger_modifyMethod (fun x => Method.queued_linkNative x) _) rfl
      · exact .of_answer h (b.ledger_modifyMethod (fun x => Method.queued_prohibit x _ _) _)
  | mode q =>
    rw [run] at h
    split at h
    · exact .of_fault h
    · exact .of_go h rfl rfl
  | lock q =>
    rw [run] at h
    split at h
    · exact .of_fault h
    · rename_i unit hunit
      split at h
      · rename_i hfree
        obtain rfl := Option.some.inj h
        have hstock : b.ledger.stocks[q.unit]? = some unit.queue.stock := by simp [hunit]
        exact Event.cast (.enter hstock (by simp [hfree])) (b.ledger_take _ _)
      · exact absurd h (by simp)
  | _ => cases hd

/-- Under the lock a request claims its method and gets a task, or leaves the lock. -/
theorem desk_event {u : UnitId} {m : MethodId} {stage : Stage} {s : RequestStep}
    (hd : s.duty? = some (.desk u m stage)) (hready : Duty.Ready b.ledger (.desk u m stage))
    (h : run me ch b s = some turn) :
    Event b.ledger s.duty? (duties turn.next) turn.hired turn.broker.ledger := by
  have known {m : MethodId} (hm : m < b.ledger.claims.size) (hnone : b.methods[m]? = none) :
      False := by
    rw [Table.getElem?_eq_none_iff] at hnone
    rw [Broker.size_claims] at hm
    exact Nat.not_lt.2 hnone hm
  have hunlock (q : Inquiry) : (unlock b q).ledger = b.ledger.lock q.unit false :=
    b.ledger_giveBack q.unit
  cases s with
  | stillEnabled q =>
    cases hd
    rw [run] at h
    split at h
    · exact .of_unlock h (hunlock q) nofun
    · rename_i hopen
      obtain rfl := Option.some.inj h
      exact .pass (by simpa using hopen)
  | stillMissing q =>
    cases hd
    rw [run] at h
    split at h
    · rename_i hnone
      exact (known hready.2 hnone).elim
    · split at h
      · exact .of_unlock h (hunlock q) nofun
      · exact .of_go h rfl rfl
  | stillAllowed q =>
    cases hd
    rw [run] at h
    split at h
    · rename_i hnone
      exact (known hready.2 hnone).elim
    · split at h
      · exact .of_unlock h
          (((unlock b q).ledger_modifyMethod (fun x => x.queued_prohibit _ _) _).trans (hunlock q)) nofun
      · exact .of_unlock h (hunlock q) nofun
      · exact .of_go h rfl rfl
  | claim q =>
    cases hd
    rw [run] at h
    split at h
    · rename_i hnone
      exact (known hready.2 hnone).elim
    · rename_i x hx
      split at h
      · exact .of_unlock h (hunlock q) nofun
      · rename_i hqueued
        obtain rfl := Option.some.inj h
        exact Event.cast (.claim (by simp [hx, hqueued])) (b.ledger_modifyMethod_queued _ _)
  | number q =>
    cases hd
    rw [run] at h
    split at h
    · rename_i hnone
      exact (known hready.2 hnone).elim
    · simp only at h
      split at h
      · exact .of_go h rfl rfl
      · exact .of_go h rfl rfl
  | exclude q id => exact .of_go h (b.ledger_modifyMethod (fun x => x.queued_prohibit _ _) _) rfl
  | unclaim q e =>
    obtain rfl := Option.some.inj h
    refine Event.cast .unclaim (((unlock b q).ledger_modifyMethod_queued _ _).trans ?_)
    rw [hunlock q]
  | allocate q id =>
    rw [run] at h
    split at h
    · exact .of_go h rfl rfl
    · rename_i pool hpool
      obtain rfl := Option.some.inj h
      exact .allocate hpool q.request id q.blocking b.clock
  | _ => cases hd

/-- A request brings its task to the queue. -/
theorem bring_event {u : UnitId} {m : MethodId} {s : RequestStep}
    (hd : s.duty? = some (.bring u m t)) (hsound : b.ledger.Sound)
    (hready : Duty.Ready b.ledger (.bring u m t)) (h : run me ch b s = some turn) :
    Event b.ledger s.duty? (duties turn.next) turn.hired turn.broker.ledger := by
  obtain ⟨hu, -, x, hx, -, hslot⟩ := hready
  rw [Broker.size_stocks] at hu
  obtain ⟨unit, hunit⟩ := Table.exists_getElem? hu
  cases s with
  | stamp q t =>
    cases hd
    rw [run, hunit] at h
    obtain rfl := Option.some.inj h
    exact Event.cast (.stamp _) (Broker.ledger_modifyMethod_queued _ _ _)
  | append q t =>
    cases hd
    rw [run, hunit, show b.tasks[t]? = some x from hx] at h
    simp only [hslot, Option.isSome_none, Bool.false_eq_true, if_false] at h
    have hstock : b.ledger.stocks[q.unit]? = some unit.queue.stock := by simp [hunit]
    have hgains : unit.queue.stock.list.Gains t (unit.queue.list.push t).2 :=
      (hsound.list hstock).push t
    have hevent := Event.append (m := q.request.method) hx hstock hgains (unit.queue.list.push t).1
    have hledger := congrArg
      (Ledger.modifyTask · t fun x => { x with slot := some (unit.queue.list.push t).1 })
      (b.ledger_modifyQueue_const q.unit (unit.queue.push t).2.giveBack)
    split at h
    · rename_i hblocking
      obtain rfl := Option.some.inj h
      rw [hblocking] at hevent
      exact hevent.cast hledger
    · rename_i hblocking
      obtain rfl := Option.some.inj h
      rw [if_neg hblocking] at hevent
      exact hevent.cast hledger
  | _ => cases hd

/-- A requester begins to wait, or finds that it need not or must not. -/
theorem attend_event {u : UnitId} {s : RequestStep} (hd : s.duty? = some (.attend u t))
    (hready : Duty.Ready b.ledger (.attend u t)) (h : run me ch b s = some turn) :
    Event b.ledger s.duty? (duties turn.next) turn.hired turn.broker.ledger := by
  obtain ⟨hu, ht⟩ := hready
  rw [Broker.size_stocks] at hu
  obtain ⟨unit, hunit⟩ := Table.exists_getElem? hu
  obtain ⟨x, hx⟩ := Table.exists_getElem? ht
  cases s with
  | attend q t =>
    cases hd
    rw [run, hunit, show b.tasks[t]? = some x from hx] at h
    simp only at h
    split at h
    · exact turnBack_event hx h
    · rename_i hopen
      simp only [Bool.or_eq_true, not_or, Bool.not_eq_true] at hopen
      obtain rfl := Option.some.inj h
      exact .fallAsleep hx hopen.1 hopen.2
  | _ => cases hd

/-- A requester wakes up. -/
theorem asleep_event {bell : Nat} {s : RequestStep} (hd : s.duty? = some (.sleep t bell))
    (hready : Duty.Ready b.ledger (.sleep t bell)) (h : run me ch b s = some turn) :
    Event b.ledger s.duty? (duties turn.next) turn.hired turn.broker.ledger := by
  obtain ⟨x, hx⟩ := Table.exists_getElem? hready
  cases s with
  | asleep q t bell watch =>
    cases hd
    rw [run, show b.tasks[t]? = some x from hx] at h
    simp only at h
    split at h
    · exact wakeUp_event hx h
    · exact absurd h (by simp)
  | _ => cases hd

/-- What a step of a request does. -/
theorem event {s : RequestStep} (hsound : b.ledger.Sound)
    (hready : ∀ d ∈ s.duty?, Duty.Ready b.ledger d) (h : run me ch b s = some turn) :
    Event b.ledger s.duty? (duties turn.next) turn.hired turn.broker.ledger := by
  cases hd : s.duty? with
  | none =>
    cases s with
    | enter r =>
      rw [run] at h
      split at h
      · obtain rfl := Option.some.inj h
        exact .plain none
      · split at h
        · obtain rfl := Option.some.inj h
          exact .plain none
        · exact .of_go h rfl rfl
    | backend q =>
      rw [run] at h
      split at h
      · exact .of_go h rfl rfl
      · rename_i unit hunit
        split at h
        · obtain rfl := Option.some.inj h
          exact .plain none
        · obtain rfl := Option.some.inj h
          exact .arrive (by simpa using Table.lt_size_of_getElem? hunit)
    | conclude q id result =>
      rw [run] at h
      split at h
      · exact .of_go h rfl rfl
      · obtain rfl := Option.some.inj h
        exact .plain none
    | _ => cases hd
  | some d =>
    have hr := hready d hd
    rw [← hd]
    cases d with
    | outside u m => exact outside_event hd h
    | desk u m stage => exact desk_event hd hr h
    | bring u m t => exact bring_event hd hsound hr h
    | attend u t => exact attend_event hd hr h
    | sleep t bell => exact asleep_event hd hr h
    | free t =>
      cases s with
      | collect q t =>
        cases hd
        obtain ⟨x, hx, -⟩ := hr
        rw [run, show b.tasks[t]? = some x from hx] at h
        exact .of_go h rfl rfl
      | _ => cases hd
    | _ => cases s <;> cases hd

end JitBroker.RequestStep
