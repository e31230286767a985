import JitBroker.Proofs.Protocol
import JitBroker.Proofs.Setting

/-!
# Tasks and their units

A request finds the unit of its tier when it begins, and everything after that goes by the unit: the
lock, the queue, and the workers that take the task. As the tiers of units never change, a task
stays with the unit of its tier, wherever it goes (`Suited`). Likewise only the requester of a task
that is blocking ever waits for it.

* `Action.run_inquiries`: the unit that a request has found stays the unit of its tier;
* `Suited.shift`: every event leaves tasks with units of their tiers;
* `System.Reachable.tiered`: so they are, in every state.
-/

namespace JitBroker

/-- The tier of a unit. -/
def Broker.tierOf (b : Broker) (u : UnitId) : Option Tier := b.units[u]?.map (·.config.level)

theorem Broker.tierOf_congr {b b' : Broker} (h : b'.unitConfigs = b.unitConfigs) :
    b'.tierOf = b.tierOf := by
  funext u
  have hu := congrArg (fun configs => configs[u]?.map TierConfig.level) h
  simpa [unitConfigs, tierOf, Option.map_map, Function.comp_def] using hu

/-- The unit that serves a tier has this tier. -/
theorem Broker.tierOf_unitOf {b : Broker} {tier : Tier} {u : UnitId} (h : b.unitOf? tier = some u) :
    b.tierOf u = some tier := by
  obtain ⟨hu, heq, -⟩ := List.findIdx?_eq_some_iff_getElem.1 h
  have hunit := List.getElem?_eq_getElem hu
  rw [Table.toList_getElem?] at hunit
  rw [tierOf, hunit]
  exact congrArg some (by simpa using heq)

/-! ### Inquiries -/

/-- What a step of a request has found out. -/
def RequestStep.inquiry? : RequestStep → Option Inquiry
  | .enter _ => none
  | .backend q | .enabled q | .accepted q | .eligible q | .existing q | .policy q | .allowed q
  | .native q | .link q | .mode q | .lock q | .stillEnabled q | .stillMissing q | .stillAllowed q
  | .claim q | .number q | .exclude q _ | .unclaim q _ | .allocate q _ | .stamp q _ | .append q _
  | .attend q _ | .asleep q _ _ _ | .collect q _ | .conclude q _ _ => some q

/-- What an action has found out about a request. -/
def Action.inquiry? : Action → Option Inquiry
  | .request s => s.inquiry?
  | _ => none

/-- The unit that was found for a request is the one of its tier. -/
def Inquiry.Suits (tierOf : UnitId → Option Tier) (q : Inquiry) : Prop :=
  tierOf q.unit = some q.request.tier

/-- A turn that brings no request which has found its unit, but for suitable ones. -/
def Turn.Inquires (tierOf : UnitId → Option Tier) (turn : Turn) : Prop :=
  ∀ a ∈ turn.next, ∀ q ∈ a.inquiry?, q.Suits tierOf

variable {tierOf : UnitId → Option Tier} {me : Caller} {ch : Choices} {b b' : Broker} {turn : Turn}

namespace Turn.Inquires

theorem of_some {turn' : Turn} (h : some turn' = some turn) (ht : turn'.Inquires tierOf) :
    turn.Inquires tierOf := by
  obtain rfl := Option.some.inj h
  exact ht

/-- Actions without an inquiry are no requests that have found their unit. -/
theorem of_none {next : List Action} (h : ∀ a ∈ next, a.inquiry? = none) {b : Broker}
    {reply : Option Reply} {hired : Option WorkerId} :
    Inquires tierOf { broker := b, next := next, reply := reply, hired := hired } := by
  intro a ha q hq
  rw [h a ha] at hq
  cases hq

theorem of_fault (h : Turn.fault b = some turn) : turn.Inquires tierOf :=
  .of_some h (.of_none fun a ha => by rw [List.mem_singleton.1 ha]; rfl)

theorem of_answer {r : Reply} (h : Turn.answer b r = some turn) : turn.Inquires tierOf :=
  .of_some h (.of_none fun _ ha => absurd ha List.not_mem_nil)

end Turn.Inquires

theorem inquiry_call (c : Call) : ∀ a ∈ c.agenda, a.inquiry? = none := by
  cases c <;> simp [Call.agenda, Action.inquiry?, RequestStep.inquiry?]

theorem inquiry_stale (ts : List TaskId) : ∀ a ∈ ts.flatMap Action.stale, a.inquiry? = none := by
  intro a ha
  obtain ⟨t, -, ha⟩ := List.mem_flatMap.1 ha
  obtain ⟨s, -, rfl⟩ := List.mem_map.1 ha
  rfl

namespace RequestStep

variable {q : Inquiry} {s : RequestStep} {t : TaskId} {x : Task}

/-- A request goes on with the unit that it has found. -/
theorem next_inquires {s' : RequestStep} (h : next b s' = some turn) (hs : s'.inquiry? = some q)
    (hq : q.Suits tierOf) : turn.Inquires tierOf := by
  refine .of_some h fun a ha q' hq' => ?_
  rw [List.mem_singleton.1 ha] at hq'
  exact Option.some.inj (hs.symm.trans hq') ▸ hq

theorem leave_inquires {gaveUp : Bool} (hq : q.Suits tierOf)
    (h : leave b q t x gaveUp = some turn) : turn.Inquires tierOf := by
  unfold leave at h
  split at h
  all_goals
    refine .of_some h ?_
    simp [Turn.Inquires, Action.inquiry?, inquiry?, hq]

theorem wakeUp_inquires {watch : Option Watch} (hq : q.Suits tierOf)
    (h : wakeUp b ch q t x watch = some turn) : turn.Inquires tierOf := by
  unfold wakeUp at h
  repeat' split at h
  all_goals first
    | exact leave_inquires hq h
    | exact .of_some h (by simp [Turn.Inquires, Action.inquiry?, inquiry?, hq])

theorem inquires (hq : ∀ q ∈ s.inquiry?, q.Suits b.tierOf) (h : s.run me ch b = some turn) :
    turn.Inquires b.tierOf := by
  cases s with
  | enter r =>
    rw [run] at h
    split at h
    · exact .of_answer h
    · split at h
      · exact .of_answer h
      · rename_i u hu
        exact next_inquires h rfl (Broker.tierOf_unitOf hu)
  | enabled q =>
    have hq := hq _ rfl
    rw [run] at h
    split at h
    · exact .of_answer h
    · exact .of_some h (by simp [Turn.Inquires, Action.inquiry?, inquiry?, hq])
  | _ =>
    have hq := hq _ rfl
    rw [run] at h
    (try simp only at h)
    repeat' split at h
    all_goals first
      | exact next_inquires h rfl hq
      | exact .of_answer h
      | exact .of_fault h
      | exact wakeUp_inquires hq h
      | exact leave_inquires hq h
      | exact .of_some h (by simp [Turn.Inquires, Action.inquiry?, inquiry?, hq])
      | cases h

end RequestStep

theorem TaskStep.inquires {s : TaskStep} (h : s.run b = some turn) : turn.Inquires tierOf := by
  cases s <;> rw [run] at h <;> (try simp only at h) <;> repeat' split at h
  all_goals exact .of_some h (.of_none (by simp [Action.inquiry?]))

theorem GateStep.inquires {s : GateStep} (h : s.run b = some turn) : turn.Inquires tierOf := by
  cases s <;> rw [run] at h <;> repeat' split at h
  all_goals first
    | exact .of_some h (.of_none (by simp [Action.inquiry?]))
    | cases h

theorem CrewStep.inquires {s : CrewStep} (h : s.run me ch b = some turn) :
    turn.Inquires tierOf := by
  rcases s with u | ⟨u, n⟩ | ⟨u, n, k⟩ | ⟨u, n⟩ | ⟨u, n⟩ | (_ | ⟨u, us⟩) | ⟨u, _ | n, us⟩ | _ <;>
    rw [run] at h <;> (try simp only at h) <;> repeat' split at h
  all_goals first
    | exact .of_some h (.of_none (by simp [Action.inquiry?]))
    | cases h

theorem ControlStep.inquires {s : ControlStep} (h : s.run me b = some turn) :
    turn.Inquires tierOf := by
  have control (ss : List ControlStep) : ∀ a ∈ ss.map Action.control, a.inquiry? = none := by
    intro a ha
    obtain ⟨s, -, rfl⟩ := List.mem_map.1 ha
    rfl
  cases s with
  | drain u =>
    rw [run] at h
    repeat' split at h
    all_goals first
      | exact .of_some h (.of_none (inquiry_stale _))
      | exact .of_some h (.of_none (by simp [Action.inquiry?]))
      | cases h
  | nudge w =>
    rw [run] at h
    split at h
    all_goals exact .of_some h (.of_none (by simp [Action.inquiry?]))
  | again ds summary =>
    cases ds with
    | nil => exact .of_some h (.of_none (by simp))
    | cons d ds =>
      rw [run] at h
      repeat' split at h
      all_goals exact .of_some h (.of_none (by simp [Action.inquiry?, RequestStep.inquiry?]))
  | detach d =>
    rw [run] at h
    split at h
    · refine .of_some h (.of_none fun a ha => ?_)
      simp only [List.mem_append, List.mem_cons, List.mem_map, List.not_mem_nil, or_false] at ha
      obtain ((rfl | rfl) | ⟨u, -, rfl⟩) | rfl := ha <;> rfl
    · exact .of_some h (.of_none (by simp))
  | _ =>
    rw [run] at h
    (try simp only at h)
    repeat' split at h
    all_goals first
      | exact .of_some h (.of_none (control _))
      | exact .of_some h (.of_none (by simp [Action.inquiry?]))
      | cases h

namespace WorkerStep

variable {w : WorkerId} {worker : Worker} {unit : TierUnit} {s : WorkerStep}

theorem obey_inquires {c : CompileRun} {task : Task} {move : BackendMove}
    (h : obey b w c task unit move = some turn) : turn.Inquires tierOf := by
  cases move with
  | install total instructions =>
    rw [obey] at h
    split at h
    all_goals exact .of_some h (.of_none (by simp [Action.inquiry?]))
  | call k =>
    refine .of_some h (.of_none fun a ha => ?_)
    rcases List.mem_append.1 ha with ha | ha
    · exact inquiry_call k a ha
    · rw [List.mem_singleton.1 ha]
      rfl
  | finish =>
    rw [obey] at h
    split at h
    all_goals exact .of_some h (.of_none (by simp [Action.inquiry?]))
  | _ => exact .of_some h (.of_none (by simp [Action.inquiry?]))

theorem inquires (h : s.run me ch b w worker unit = some turn) : turn.Inquires tierOf := by
  have behind {as : List Action} {x : WorkerStep} (has : ∀ a ∈ as, a.inquiry? = none) :
      ∀ a ∈ as ++ [Action.worker w x], a.inquiry? = none := by
    intro a ha
    rcases List.mem_append.1 ha with ha | ha
    · exact has a ha
    · rw [List.mem_singleton.1 ha]
      rfl
  cases s with
  | compile c =>
    rw [run] at h
    split at h
    · exact .of_some h (.of_none (by simp [Action.inquiry?]))
    · cases h
    · exact obey_inquires h
  | choose =>
    rw [run] at h
    repeat' split at h
    all_goals first
      | exact .of_some h (.of_none (behind (inquiry_stale _)))
      | exact .of_some h (.of_none (by simp [Action.inquiry?]))
  | judge c => exact .of_some h (.of_none (behind (by simp [Action.inquiry?])))
  | settle =>
    refine .of_some h (.of_none (behind ?_))
    split <;> simp [Action.inquiry?]
  | _ =>
    rw [run] at h
    (try simp only at h)
    repeat' split at h
    all_goals first
      | exact .of_some h (.of_none (by simp [Action.inquiry?]))
      | cases h

end WorkerStep

/-- A request that has found its unit goes on with the unit of its tier. -/
theorem Action.run_inquiries {a : Action} (hq : ∀ q ∈ a.inquiry?, q.Suits b.tierOf)
    (h : a.run me ch b = some turn) : turn.Inquires b.tierOf := by
  cases a with
  | request s => exact RequestStep.inquires hq h
  | task s => exact TaskStep.inquires h
  | control s => exact ControlStep.inquires h
  | gate s => exact GateStep.inquires h
  | worker w s =>
    rw [run] at h
    repeat' split at h
    · exact .of_some h (.of_none (by simp [inquiry?]))
    · exact .of_some h (.of_none (by simp [inquiry?]))
    · exact WorkerStep.inquires h
  | crew s => exact CrewStep.inquires h
  | answer r => exact .of_some h (.of_none (by simp))
  | fault => cases h

/-! ### Tasks -/

/-- What a duty has to do with a task suits the task: its tier is the one of the unit, or its
requester waits. -/
def Duty.Suits (tierOf : UnitId → Option Tier) (l : Ledger) : Duty → Prop
  | .bring u _ t => ∃ x, l.tasks[t]? = some x ∧ tierOf u = some x.tier
  | .attend _ t | .sleep t _ => ∃ x, l.tasks[t]? = some x ∧ x.blocking = true
  | .post w a => ∀ t ∈ a.task?, ∃ x p, l.tasks[t]? = some x ∧ l.posts[w]? = some p ∧
      tierOf p.unit = some x.tier
  | _ => True

/-- Tasks are with units of their tiers, and requesters wait for blocking tasks only. -/
structure Suited (tierOf : UnitId → Option Tier) (l : Ledger) (ds : Multiset Duty) : Prop where
  /-- The tasks in a queue. -/
  queued : ∀ {u : UnitId} {st : Stock}, l.stocks[u]? = some st → ∀ t ∈ st.list.toList,
    ∃ x, l.tasks[t]? = some x ∧ tierOf u = some x.tier
  /-- The tasks that threads have to do with. -/
  duty : ∀ d ∈ ds, d.Suits tierOf l

variable {l l' : Ledger} {ds ds' : Multiset Duty} {d : Option Duty} {new : List Duty}
  {hired : Option WorkerId}

theorem Ledger.Extends.tier (h : l.Extends l') {t : TaskId} {tier : Option Tier}
    (hx : ∃ x, l.tasks[t]? = some x ∧ tier = some x.tier) :
    ∃ x, l'.tasks[t]? = some x ∧ tier = some x.tier := by
  obtain ⟨x, hx, htier⟩ := hx
  obtain ⟨x', hx', hev⟩ := h.task hx
  exact ⟨x', hx', htier.trans (congrArg some hev.tier.symm)⟩

theorem Ledger.Extends.blocking (h : l.Extends l') {t : TaskId}
    (hx : ∃ x, l.tasks[t]? = some x ∧ x.blocking = true) :
    ∃ x, l'.tasks[t]? = some x ∧ x.blocking = true := by
  obtain ⟨x, hx, hb⟩ := hx
  obtain ⟨x', hx', hev⟩ := h.task hx
  exact ⟨x', hx', hev.blocking.trans hb⟩

theorem Ledger.Extends.post_tier (h : l.Extends l') {t : TaskId} {w : WorkerId}
    (hx : ∃ x p, l.tasks[t]? = some x ∧ l.posts[w]? = some p ∧ tierOf p.unit = some x.tier) :
    ∃ x p, l'.tasks[t]? = some x ∧ l'.posts[w]? = some p ∧ tierOf p.unit = some x.tier := by
  obtain ⟨x, p, hx, hp, htier⟩ := hx
  obtain ⟨x', hx', hev⟩ := h.task hx
  obtain ⟨p', hp', hunit⟩ := h.post hp
  exact ⟨x', p', hx', hp', by rw [hunit, hev.tier, htier]⟩

theorem Duty.Suits.mono (h : l.Extends l') {d : Duty} (hd : d.Suits tierOf l) : d.Suits tierOf l' := by
  cases d with
  | bring u m t => exact h.tier hd
  | attend u t => exact h.blocking hd
  | sleep t bell => exact h.blocking hd
  | post w a => exact fun t ht => h.post_tier (hd t ht)
  | _ => trivial

theorem Duty.suits_discard (ts : List TaskId) : ∀ d ∈ ts.flatMap discard, d.Suits tierOf l := by
  intro d hd
  obtain ⟨t, -, rfl | rfl | rfl⟩ := mem_discard.1 hd <;> trivial

namespace Event

/-- The duties that an event brings suit their tasks, if a new task suits its unit. -/
theorem suits (h : Event l d new hired l') (hs : Suited tierOf l ds) (hd : ∀ d' ∈ d, d' ∈ ds)
    (hnew : ∀ u m x, d = some (.desk u m .claimed) → l'.tasks[l.tasks.size]? = some x →
      tierOf u = some x.tier) : ∀ d' ∈ new, d'.Suits tierOf l' := by
  have hext := h.extends
  have old {d' : Duty} (hd' : d' ∈ d) : d'.Suits tierOf l' := (hs.duty _ (hd d' hd')).mono hext
  -- A worker that goes on with the task that it had.
  have on {w : WorkerId} {a a' : Phase} (heq : d = some (.post w a)) (ha : a'.task? = a.task?) :
      (Duty.post w a').Suits tierOf l' := fun t ht => old heq t (ha ▸ ht)
  have free {w : WorkerId} {a : Phase} (ha : a.task? = none) : (Duty.post w a).Suits tierOf l' := by
    intro t ht
    rw [ha] at ht
    cases ht
  cases h with
  | plain d | know d => exact fun d' hd' => old (Option.mem_toList.1 hd')
  | @allocate u pool hpool r id blocking now =>
    refine List.forall_mem_singleton.2 ⟨_, Table.getElem?_add_self _ _, ?_⟩
    exact hnew u r.method _ rfl (Table.getElem?_add_self _ _)
  | stamp depth =>
    have h := old rfl
    exact List.forall_mem_singleton.2 h
  | @append u m t x st list hx hst hlist slot =>
    split
    · rename_i hb
      exact List.forall_mem_singleton.2 (hext.blocking ⟨x, hx, hb⟩)
    · exact List.forall_mem_nil _
  | fallAsleep _ _ _ | sleepOn _ _ _ =>
    have h := old rfl
    exact List.forall_mem_singleton.2 h
  | drain _ _ _ _ _ => exact Duty.suits_discard _
  | @fetch w p st ts t list tasks hp hst hlist htasks =>
    refine List.forall_mem_append.2 ⟨Duty.suits_discard _, List.forall_mem_singleton.2 ?_⟩
    intro t' ht'
    obtain rfl := Option.some.inj ht'
    obtain ⟨x, hx, htier⟩ := hs.queued hst t
      (hlist.perm.symm.subset (List.mem_append_left _ (List.mem_append_right _ List.mem_cons_self)))
    exact hext.post_tier ⟨x, p, hx, hp, htier⟩
  | clean _ _ _ _ ha =>
    refine List.forall_mem_append.2 ⟨Duty.suits_discard _, List.forall_mem_singleton.2 ?_⟩
    rcases ha with ⟨rfl, -⟩ | ⟨rfl, -⟩ <;> exact free rfl
  | disable _ | rouse | nudge _ =>
    intro d' hd'
    simp only [List.mem_append, List.mem_map, List.mem_singleton] at hd'
    grind [Duty.Suits]
  | judge ha =>
    rcases ha with rfl | rfl <;> exact List.forall_mem_singleton.2 (on rfl rfl)
  | take | compile _ | giveUp _ | drop | release _ =>
    exact List.forall_mem_singleton.2 (on rfl rfl)
  | publish result =>
    exact List.forall_mem_cons.2 ⟨trivial, List.forall_mem_singleton.2 (free rfl)⟩
  | lookOut _ _ ha' =>
    rcases ha' with rfl | rfl <;> exact List.forall_mem_singleton.2 (free rfl)
  | lookIn _ _ _ | stay _ | retire _ _ | desert => exact List.forall_mem_singleton.2 (free rfl)
  | arrive _ | name _ | enter _ _ | pass _ | claim _ | findComplete _ _ | wakeComplete _ _
  | close _ _ _ => exact List.forall_mem_singleton.2 trivial
  | _ => exact List.forall_mem_nil _

/-- A task that comes to a queue was brought to it, and suits its unit. -/
theorem queued_suits (h : Event l d new hired l') (hs : Suited tierOf l ds) (hd : ∀ d' ∈ d, d' ∈ ds)
    {u : UnitId} {st : Stock} (hst : l'.stocks[u]? = some st) :
    ∀ t ∈ st.list.toList, ∃ x, l'.tasks[t]? = some x ∧ tierOf u = some x.tier := by
  have hext := h.extends
  -- A queue in which there are only tasks that were there before.
  have old {st₀ : Stock} (hst₀ : l.stocks[u]? = some st₀) (hsub : st.list.toList ⊆ st₀.list.toList) :
      ∀ t ∈ st.list.toList, ∃ x, l'.tasks[t]? = some x ∧ tierOf u = some x.tier :=
    fun t ht => hext.tier (hs.queued hst₀ t (hsub ht))
  have locked {u' : UnitId} {v : Bool} (hstocks : l'.stocks = (l.lock u' v).stocks) :
      ∀ t ∈ st.list.toList, ∃ x, l'.tasks[t]? = some x ∧ tierOf u = some x.tier := by
    rw [hstocks] at hst
    obtain ⟨st₀, hst₀, ⟨-, rfl⟩ | ⟨-, rfl⟩⟩ := Table.exists_of_modify hst
    · exact old hst₀ (List.Subset.refl _)
    · exact old hst₀ (List.Subset.refl _)
  have shed {u' : UnitId} {st' : Stock} {ts : List TaskId} {list : TaskList} {added : Nat}
      {v : Bool} (hst' : l.stocks[u']? = some st') (hlist : st'.list.Sheds ts list)
      (hstocks : l'.stocks = (l.setStock u' ⟨list, added, v⟩).stocks) :
      ∀ t ∈ st.list.toList, ∃ x, l'.tasks[t]? = some x ∧ tierOf u = some x.tier := by
    rw [hstocks] at hst
    obtain ⟨st₀, hst₀, ⟨-, rfl⟩ | ⟨rfl, rfl⟩⟩ := Table.exists_of_modify hst
    · exact old hst₀ (List.Subset.refl _)
    · obtain rfl := Option.some.inj (hst'.symm.trans hst₀)
      exact old hst' fun t ht => hlist.perm.symm.subset (List.mem_append_right _ ht)
  cases h with
  | enter _ _ | refuse _ | unclaim | lookIn _ _ _ | lookOut _ _ _ => exact locked rfl
  | drain hst' _ hlist _ _ | fetch _ hst' hlist _ | clean _ hst' hlist _ _ =>
    exact shed hst' hlist rfl
  | @append u' m t x st' list hx hst' hlist slot =>
    obtain ⟨st₀, hst₀, ⟨-, rfl⟩ | ⟨rfl, rfl⟩⟩ := Table.exists_of_modify hst
    · exact old hst₀ (List.Subset.refl _)
    · intro t' ht'
      rw [hlist.toList_eq, List.mem_append, List.mem_singleton] at ht'
      rcases ht' with ht' | rfl
      · exact hext.tier (hs.queued hst' t' ht')
      · exact hext.tier (hs.duty _ (hd _ rfl))
  | _ => exact old hst (List.Subset.refl _)

end Event

/-- Every event leaves tasks with units of their tiers, if a new task comes from a request at the
tier of its unit. -/
theorem Suited.shift (hs : Suited tierOf l ds) (h : Shift l ds d new hired l' ds')
    (hnew : ∀ u m x, d = some (.desk u m .claimed) → l'.tasks[l.tasks.size]? = some x →
      tierOf u = some x.tier) : Suited tierOf l' ds' where
  queued hst := h.event.queued_suits hs h.mem hst
  duty d' hd' := by
    rcases h.of_mem hd' with hd' | hd' | ⟨w, -, rfl⟩
    · exact (hs.duty d' hd').mono h.event.extends
    · exact h.event.suits hs h.mem hnew d' hd'
    · exact fun t ht => absurd ht (by simp [Phase.task?])

/-- A new task is at the tier of the request that it is for. -/
theorem RequestStep.tier_of_new {s : RequestStep} {u : UnitId} {m : MethodId} {x : Task}
    (hd : s.duty? = some (.desk u m .claimed)) (hx : turn.broker.tasks[b.tasks.size]? = some x)
    (h : s.run me ch b = some turn) : ∃ q ∈ s.inquiry?, q.unit = u ∧ q.request.tier = x.tier := by
  have old (htasks : turn.broker.tasks = b.tasks) : False := by
    rw [htasks, (Table.getElem?_eq_none_iff _ _).2 (Nat.le_refl _)] at hx
    cases hx
  cases s with
  | allocate q id =>
    obtain ⟨rfl, -⟩ := Duty.desk.inj (Option.some.inj hd)
    rw [run] at h
    split at h
    · obtain rfl := Option.some.inj h
      exact (old rfl).elim
    · obtain rfl := Option.some.inj h
      obtain rfl := Option.some.inj ((Table.getElem?_add_self _ _).symm.trans hx)
      exact ⟨q, rfl, rfl, rfl⟩
  | number q =>
    rw [run] at h
    split at h
    · obtain rfl := Option.some.inj h
      exact (old rfl).elim
    · simp only at h
      split at h
      all_goals
        obtain rfl := Option.some.inj h
        exact (old rfl).elim
  | exclude q id | unclaim q e =>
    obtain rfl := Option.some.inj h
    exact (old rfl).elim
  | _ => cases hd

theorem Action.tier_of_new {a : Action} {u : UnitId} {m : MethodId} {x : Task}
    (hd : a.duty? = some (.desk u m .claimed)) (hx : turn.broker.tasks[b.tasks.size]? = some x)
    (h : a.run me ch b = some turn) : ∃ q ∈ a.inquiry?, q.unit = u ∧ q.request.tier = x.tier := by
  cases a with
  | request s => exact RequestStep.tier_of_new hd hx h
  | task s =>
    cases s with
    | complete t who => cases who <;> cases hd
    | _ => cases hd
  | control s => cases s <;> cases hd
  | _ => cases hd

namespace System

variable {s s' first : System} {i : ThreadId}

/-- Requests and tasks go by the units of their tiers. -/
structure Tiered (s : System) : Prop where
  /-- The requests that have found their units. -/
  inquiry : ∀ a ∈ s.pending, ∀ q ∈ a.inquiry?, q.Suits s.broker.tierOf
  /-- The tasks. -/
  task : Suited s.broker.tierOf s.ledger s.duties

namespace Tiered

/-- Every step leaves tasks with units of their tiers. -/
theorem step (h : s.Tiered) (hs : s.Lawful) (hstep : s.step i ch = some s') : s'.Tiered := by
  obtain ⟨t, a, rest, turn, ht, ha, hrun, rfl, hshift⟩ := hs.shift hstep
  have hmem : a ∈ s.pending := mem_pending.2 ⟨i, t, ht, ha ▸ List.mem_cons_self⟩
  have htier : (s.turned i turn).broker.tierOf = s.broker.tierOf :=
    Broker.tierOf_congr (Action.run_regular hrun).units
  have hnext := Action.run_inquiries (h.inquiry a hmem) hrun
  refine ⟨fun a' ha' q hq => ?_, ?_⟩
  · rw [htier]
    rcases mem_pending_turned ht ha ha' with ha' | ha'
    · exact h.inquiry a' ha' q hq
    · rcases List.mem_append.1 ha' with ha' | ha'
      · exact hnext a' ha' q hq
      · obtain ⟨w, -, rfl⟩ := List.mem_map.1 ha'
        cases hq
  · rw [htier]
    refine h.task.shift hshift fun u m x hd hx => ?_
    obtain ⟨q, hq, rfl, htier⟩ := Action.tier_of_new hd hx hrun
    exact (h.inquiry a hmem q hq).trans (congrArg some htier)

theorem call (h : s.Tiered) (c : Call) (n : Nat) : (s.call c n).Tiered := by
  refine ⟨fun a ha q hq => ?_, h.task.shift (s.shift_call c n) fun _ _ _ hd => by cases hd⟩
  rcases mem_pending_call.1 ha with ha | ha
  · exact h.inquiry a ha q hq
  · rw [inquiry_call c a ha] at hq
    cases hq

theorem operate (h : s.Tiered) (o : Operation) : (s.operate o).Tiered := by
  have htier : (s.operate o).broker.tierOf = s.broker.tierOf :=
    Broker.tierOf_congr (s.broker.operate_steady o).units
  refine ⟨fun a ha q hq => ?_, ?_⟩
  · rw [htier]
    exact h.inquiry a ha q hq
  · rw [htier]
    exact h.task.shift (s.shift_operate o) fun _ _ _ hd => by cases hd

end Tiered

theorem tiered_launch {b : Broker} (hb : b.Fresh) : (launch b).Tiered := by
  refine ⟨fun a ha q hq => ?_, fun hst t ht => ?_, by simp⟩
  · rw [mem_pending_launch ha] at hq
    cases hq
  · rw [(hb.stock hst).1, TaskList.Holds.empty.toList_eq] at ht
    exact absurd ht List.not_mem_nil

/-- In every state that a system can get into, tasks are with units of their tiers. -/
theorem Reachable.tiered {b : Broker} (hb : b.Fresh) (h : Reachable (launch b) s) : s.Tiered := by
  have hfirst : (launch b).Tiered := tiered_launch hb
  exact h.invariant hfirst (fun hr hs hstep => hs.step (hr.lawful hb) hstep)
    (fun c n _ hs => hs.call c n) fun o _ hs => hs.operate o

end System

end JitBroker
