import JitBroker.Proofs.Numbers.Window
import JitBroker.Proofs.Request.Submit

/-!
# Requests that are refused

A request that is refused may have drawn a number, let a broker go on that was stopped for want of
space, and marked or linked its own method (`Broker.Spared`). Beside that it leaves no trace.

* If nobody interferes with it, the broker after its answer is spared as a whole: the queues, the
  tasks and their account, the claims and the code of all methods, the code cache, the events and the
  directives are as before (`Broker.spared_answer`).
* If others move in between, the same holds of each of its own steps, but for the lock of its queue
  and the claim on its method. What it takes of these it gives back when it is refused: it claims its
  method only if nobody has, and from then on it either gets a task, or gives back both in the very
  step that refuses it (`RequestStep.Treads`).
-/

namespace JitBroker

/-! ### What may change -/

/-- The method later, when it was ruled out at more tiers, or linked. -/
structure Method.Marked (x x' : Method) : Prop where
  /-- Nothing else has changed. -/
  only : x' = { x with
    notCompilable := x'.notCompilable
    notOsrCompilable := x'.notOsrCompilable
    linked := x'.linked }
  /-- No mark is taken back. -/
  marks : ∀ osr tier, x.isProhibited osr tier = true → x'.isProhibited osr tier = true
  /-- It stays linked. -/
  linked : x.linked = true → x'.linked = true

/-- The broker later, when only one method was marked or linked, a number drawn, and a broker that was
stopped for want of space let go on. -/
structure Broker.Spared (b : Broker) (k : MethodId) (b' : Broker) : Prop where
  /-- Nothing else has changed. -/
  only : b' = { b with
    methods := b'.methods
    ids := b'.ids
    jobs := b'.jobs
    stats := { b.stats with restarted := b'.stats.restarted } }
  /-- Other methods are as they were. -/
  others : ∀ j, j ≠ k → b'.methods[j]? = b.methods[j]?
  /-- The method was marked or linked. -/
  method : ∀ x, b.methods[k]? = some x → ∃ x', b'.methods[k]? = some x' ∧ x.Marked x'
  /-- It has not become known only now. -/
  unknown : b.methods[k]? = none → b'.methods[k]? = none
  /-- One number was drawn, or none. -/
  ids : b'.ids = b.ids ∨ ∃ kind, b'.ids = (b.ids.draw kind).2
  /-- The broker goes on, or its jobs are as they were. -/
  jobs : b'.jobs = b.jobs ∧ b'.stats.restarted = b.stats.restarted ∨
    b.jobs = .stoppedForCache ∧ b'.jobs = .run ∧
      b'.stats.restarted = b.stats.restarted + 1

/-- The broker later, when all that has to do with tasks and code is as it was. -/
structure Broker.Untouched (b b' : Broker) : Prop where
  /-- The queues and their counters, with all else that belongs to a unit. -/
  units : b'.units = b.units
  /-- The tasks. -/
  tasks : b'.tasks = b.tasks
  /-- The account of the tasks. -/
  pool : b'.pool = b.pool
  /-- The claims. -/
  queued : ∀ j : MethodId, b'.methods[j]?.map (·.queued) = b.methods[j]?.map (·.queued)
  /-- The code of each method. -/
  codes : ∀ j, b'.codesOf j = b.codesOf j
  /-- The code cache. -/
  cache : b'.cache = b.cache
  /-- The events. -/
  events : b'.stats.events = b.stats.events
  /-- The directives. -/
  directives : b'.directives = b.directives

namespace Method.Marked

theorem refl (x : Method) : x.Marked x := ⟨rfl, fun _ _ => id, id⟩

theorem trans {x y z : Method} (h : x.Marked y) (h' : y.Marked z) : x.Marked z := by
  refine ⟨?_, fun osr tier => h'.marks osr tier ∘ h.marks osr tier, h'.linked ∘ h.linked⟩
  rw [h'.only, h.only]

theorem prohibit (x : Method) (osr : Bool) (tier : Tier) : x.Marked (x.prohibit osr tier) := by
  unfold Method.prohibit
  cases osr
  · refine ⟨rfl, fun osr' tier' h => ?_, id⟩
    cases osr' <;> simp_all [isProhibited, TierSet.has_mark]
  · refine ⟨rfl, fun osr' tier' h => ?_, id⟩
    cases osr' <;> simp_all [isProhibited, TierSet.has_mark]

theorem linkNative (x : Method) : x.Marked x.linkNative.2 := by
  unfold Method.linkNative
  split
  · exact ⟨rfl, fun _ _ => id, fun _ => rfl⟩
  · exact .refl x

end Method.Marked

namespace Broker

variable {b b₁ b' : Broker} {k : MethodId} {me : Caller} {unit : TierUnit} {m : Method}
  {r : Request} {o : Outcome} {e : BrokerError}

namespace Spared

theorem refl (b : Broker) (k : MethodId) : b.Spared k b :=
  ⟨rfl, fun _ _ => rfl, fun x hx => ⟨x, hx, .refl x⟩, id, .inl rfl, .inl ⟨rfl, rfl⟩⟩

/-- A method was marked or linked. -/
theorem modifyMethod (b : Broker) (k : MethodId) {f : Method → Method}
    (hf : ∀ x : Method, x.Marked (f x)) :
    b.Spared k (b.modifyMethod k f) where
  only := rfl
  others j hj := Table.getElem?_modify_of_ne (Ne.symm hj) f
  method x hx := ⟨f x, Table.getElem?_modify_self hx f, hf x⟩
  unknown hnone := by rw [Broker.modifyMethod, Table.getElem?_modify, if_pos rfl, hnone]; rfl
  ids := .inl rfl
  jobs := .inl ⟨rfl, rfl⟩

/-- A number was drawn. -/
theorem drawId (b : Broker) (k : MethodId) (kind : IdKind) : b.Spared k (b.drawId kind).2 where
  only := rfl
  others _ _ := rfl
  method x hx := ⟨x, hx, .refl x⟩
  unknown := id
  ids := .inr ⟨kind, rfl⟩
  jobs := .inl ⟨rfl, rfl⟩

/-- A broker that was stopped for want of space may have gone on. -/
theorem restart (b : Broker) (k : MethodId) (unit : TierUnit) : b.Spared k (b.restart unit) := by
  unfold Broker.restart
  split
  · rename_i h
    exact ⟨rfl, fun _ _ => rfl, fun x hx => ⟨x, hx, .refl x⟩, id, .inl rfl, .inr ⟨h.1, rfl, rfl⟩⟩
  · exact .refl b k

/-- One after the other, if not both draw a number. -/
theorem trans (h : b.Spared k b₁) (h' : b₁.Spared k b') (hids : b₁.ids = b.ids ∨ b'.ids = b₁.ids) :
    b.Spared k b' where
  only := by
    rw [h'.only, h.only]
  others j hj := (h'.others j hj).trans (h.others j hj)
  method x hx := by
    obtain ⟨x₁, hx₁, hmarked⟩ := h.method x hx
    obtain ⟨x', hx', hmarked'⟩ := h'.method x₁ hx₁
    exact ⟨x', hx', hmarked.trans hmarked'⟩
  unknown := h'.unknown ∘ h.unknown
  ids := by
    rcases hids with heq | heq
    · exact heq ▸ h'.ids
    · exact heq ▸ h.ids
  jobs := by
    rcases h.jobs with ⟨hjobs, hcount⟩ | ⟨hold, hjobs, hcount⟩
    · rw [← hjobs, ← hcount]
      exact h'.jobs
    · rcases h'.jobs with ⟨hjobs', hcount'⟩ | ⟨hstopped, -⟩
      · exact .inr ⟨hold, hjobs'.trans hjobs, hcount'.trans hcount⟩
      · rw [hjobs] at hstopped
        cases hstopped

/-- What was marked or linked has the claim and the code that it had. -/
theorem method_same {β : Type} (h : b.Spared k b') {f : Method → β}
    (hf : ∀ {x x' : Method}, x.Marked x' → f x' = f x) (j : MethodId) :
    b'.methods[j]?.map f = b.methods[j]?.map f := by
  by_cases hj : j = k
  · subst hj
    cases hx : b.methods[j]? with
    | none => rw [h.unknown hx]
    | some x =>
      obtain ⟨x', hx', hmarked⟩ := h.method x hx
      rw [hx', Option.map_some, Option.map_some, hf hmarked]
  · rw [h.others j hj]

/-- All that has to do with tasks and code is as it was. -/
theorem untouched (h : b.Spared k b') : b.Untouched b' where
  units := by rw [h.only]
  tasks := by rw [h.only]
  pool := by rw [h.only]
  queued := h.method_same fun hmarked => by rw [hmarked.only]
  codes j := congrArg (·.getD []) <| h.method_same (f := Method.codes)
    (fun hmarked => by rw [hmarked.only]; rfl) j
  cache := by rw [h.only]
  events := by rw [h.only]
  directives := by rw [h.only]

end Spared

/-! ### Answers at once -/

theorem refuse_eq (h : b.refuse e = some (o, b')) : b' = b :=
  (Prod.mk.inj (Option.some.inj h)).2.symm

theorem spared_numbered (h : b.numbered? m r = some (o, b')) : b.Spared r.method b' := by
  rcases numbered_cases h with ⟨-, -, -, rfl⟩ | ⟨-, -, rfl⟩
  · exact .drawId b _ _
  · exact (Spared.drawId b _ _).trans (.modifyMethod _ _ fun x => .prohibit x _ _) (.inr rfl)

theorem spared_atDesk (h : b.atDesk? unit m r = some (o, b')) : b.Spared r.method b' := by
  rw [atDesk?] at h
  split at h
  · split at h
    · exact refuse_eq h ▸ .refl b _
    · exact spared_numbered h
  · cases h

theorem spared_allowed (h : b.allowed? me unit m r = some (o, b')) : b.Spared r.method b' := by
  rw [allowed?] at h
  split at h
  · split at h
    · exact refuse_eq h ▸ .refl b _
    · split at h
      · exact (Spared.modifyMethod b _ .linkNative).trans (spared_atDesk h) (.inl rfl)
      · exact refuse_eq h ▸ .modifyMethod b _ fun x => .prohibit x _ _
  · exact spared_atDesk h

theorem spared_policy (h : b.policy? me unit m r = some (o, b')) : b.Spared r.method b' := by
  rw [policy?] at h
  split at h
  · exact refuse_eq h ▸ .modifyMethod b _ fun x => .prohibit x _ _
  · exact refuse_eq h ▸ .refl b _
  · exact spared_allowed h

theorem spared_accepted (h : b.accepted? me unit m r = some (o, b')) : b.Spared r.method b' := by
  rw [accepted?] at h
  split at h
  · exact refuse_eq h ▸ .refl b _
  · split at h
    · obtain ⟨-, rfl⟩ := Prod.mk.inj (Option.some.inj h)
      exact .refl b _
    · exact spared_policy h

theorem ids_restart (b : Broker) (unit : TierUnit) : (b.restart unit).ids = b.ids := by
  unfold restart
  split <;> rfl

theorem spared_enabled (h : b.enabled? me unit r = some (o, b')) : b.Spared r.method b' := by
  rw [enabled?] at h
  split at h
  · exact refuse_eq h ▸ .refl b _
  · split at h
    · exact refuse_eq h ▸ .refl b _
    · split at h
      · exact refuse_eq h ▸ .restart b _ unit
      · split at h
        · exact (Spared.restart b _ unit).trans (spared_accepted h) (.inl (b.ids_restart unit))
        · cases h

/-- A request that is answered at once spares the broker. -/
theorem spared_answer (h : b.answer? me r = some (o, b')) : b.Spared r.method b' := by
  rw [answer?] at h
  split at h
  · exact refuse_eq h ▸ .refl b _
  · split at h
    · exact refuse_eq h ▸ .refl b _
    · exact spared_enabled h

end Broker

/-! ### Requests beside which others move -/

/-- What a request has taken so far. -/
inductive Standing where
  /-- Nothing. -/
  | outside
  /-- Nothing, but it has let the broker go on, and is to count that. -/
  | resumed
  /-- The lock of its queue. -/
  | desk (u : UnitId)
  /-- The claim on its method as well. -/
  | claimed (u : UnitId)
  /-- It has got a task, or has asked for a method that nobody knows. -/
  | gone
  deriving DecidableEq

namespace RequestStep

/-- The request that a step belongs to. -/
def request : RequestStep → Request
  | .enter r => r
  | .backend q | .enabled q | .accepted q | .eligible q | .existing q | .policy q | .allowed q
  | .native q | .link q | .mode q | .lock q | .stillEnabled q | .stillMissing q | .stillAllowed q
  | .claim q | .number q | .exclude q _ | .unclaim q _ | .allocate q _ | .stamp q _ | .append q _
  | .attend q _ | .asleep q _ _ _ | .collect q _ | .conclude q _ _ => q.request

/-- What a request has taken that is to take a step. -/
def standing : RequestStep → Standing
  | .enter _ | .backend _ | .enabled _ | .accepted _ | .eligible _ | .existing _ | .policy _
  | .allowed _ | .native _ | .link _ | .mode _ | .lock _ => .outside
  | .stillEnabled q | .stillMissing q | .stillAllowed q | .claim q => .desk q.unit
  | .number q | .exclude q _ | .unclaim q _ | .allocate q _ => .claimed q.unit
  | .stamp _ _ | .append _ _ | .attend _ _ | .asleep _ _ _ _ | .collect _ _ | .conclude _ _ _ => .gone

end RequestStep

/-- What a thread has before it that is at a request, and what the request has taken. -/
inductive Request.Before (r : Request) : List Action → Standing → Prop where
  /-- A step of the request. -/
  | step (s : RequestStep) (hs : s.request = r) : Before r [.request s] s.standing
  /-- To look whether the broker is to go on. -/
  | restart (u : UnitId) (q : Inquiry) (hq : q.request = r) :
    Before r [.control (.restart u), .request (.accepted q)] .outside
  /-- To look whether there is room. -/
  | room (u : UnitId) (q : Inquiry) (hq : q.request = r) :
    Before r [.control (.room u), .request (.accepted q)] .outside
  /-- To let the broker go on. -/
  | resume (q : Inquiry) (hq : q.request = r) :
    Before r [.control .resume, .request (.accepted q)] .outside
  /-- To count that it goes on. -/
  | count (q : Inquiry) (hq : q.request = r) :
    Before r [.control .countRestart, .request (.accepted q)] .resumed
  /-- To free its task. -/
  | free (t : TaskId) (q : Inquiry) (hq : q.request = r) (id : UInt32) (result : TaskResult) :
    Before r [.task (.free t .requester), .request (.conclude q id result)] .gone
  /-- It is lost. -/
  | lost (post : List Action) : Before r (.fault :: post) .gone

/-- What a step of a request of a thread does to the broker, and what the request has taken before and
after it. -/
inductive Treads (r : Request) (i : ThreadId) (b : Broker) : Standing → Broker → Standing → Prop where
  /-- It spares the broker. -/
  | spares {st : Standing} {b' : Broker} (h : b.Spared r.method b') : Treads r i b st b' st
  /-- It lets the broker go on. -/
  | resumes (h : b.jobs = .stoppedForCache) : Treads r i b .outside { b with jobs := .run } .resumed
  /-- It counts that the broker goes on. -/
  | counts : Treads r i b .resumed
    { b with stats := { b.stats with restarted := b.stats.restarted + 1 } } .outside
  /-- It takes the lock of its queue, which is free. -/
  | takes {u : UnitId} {unit : TierUnit} (hu : b.units[u]? = some unit)
    (hfree : unit.queue.isFree = true) :
    Treads r i b .outside (b.modifyQueue u (·.take i)) (.desk u)
  /-- It claims its method, which nobody has claimed. -/
  | claims {u : UnitId} {x : Method} (hx : b.methods[r.method]? = some x)
    (hfree : x.queued = false) :
    Treads r i b (.desk u) (b.modifyMethod r.method fun x => { x with queued := true }) (.claimed u)
  /-- It gives the lock back. -/
  | leaves {u : UnitId} {b' : Broker} (h : b.Spared r.method b') :
    Treads r i b (.desk u) (b'.modifyQueue u CompileQueue.giveBack) .outside
  /-- It gives the lock and the claim back. -/
  | yields {u : UnitId} : Treads r i b (.claimed u)
    ((b.modifyQueue u CompileQueue.giveBack).modifyMethod r.method
      fun x => { x with queued := false }) .outside
  /-- It gets its task. -/
  | gets {u : UnitId} {b' : Broker} : Treads r i b (.claimed u) b' .gone
  /-- It is lost. -/
  | lost {st : Standing} : Treads r i b st b .gone
  /-- It has its task. -/
  | serves {b' : Broker} : Treads r i b .gone b' .gone

/-- What the steps of a request do, one after the other: each finds a broker, and leaves another one. -/
inductive Walks (r : Request) (i : ThreadId) : Standing → List (Broker × Broker) → Standing → Prop where
  /-- There is no step. -/
  | nil (st : Standing) : Walks r i st [] st
  /-- There is a step, and more after it. -/
  | cons {st st₁ st₂ : Standing} {b b₁ : Broker} {steps : List (Broker × Broker)}
    (h : Treads r i b st b₁ st₁) (hs : Walks r i st₁ steps st₂) :
    Walks r i st ((b, b₁) :: steps) st₂

/-- A step more. -/
theorem Walks.concat {r : Request} {i : ThreadId} {st st₁ st₂ : Standing} {b b₁ : Broker}
    {steps : List (Broker × Broker)} (hs : Walks r i st steps st₁) (h : Treads r i b st₁ b₁ st₂) :
    Walks r i st (steps ++ [(b, b₁)]) st₂ := by
  induction hs with
  | nil _ => exact .cons h (.nil _)
  | cons h₁ _ ih => exact .cons h₁ (ih h)

/-- Whoever is at a request has something before it. -/
theorem Request.Before.exists_cons {r : Request} {pre : List Action} {st : Standing}
    (h : r.Before pre st) : ∃ a post, pre = a :: post := by
  cases h <;> exact ⟨_, _, rfl⟩

/-- What becomes of a request by a step. -/
inductive Request.Leads (r : Request) (i : ThreadId) (b : Broker) (st : Standing) (turn : Turn)
    (post : List Action) : Prop where
  /-- It goes on. -/
  | on {st' : Standing} (h : r.Before (turn.next ++ post) st') (ht : Treads r i b st turn.broker st')
  /-- It is answered. -/
  | answered {o : Outcome} (hnext : turn.next ++ post = []) (hreply : turn.reply = some (.outcome o))
    (ht : Treads r i b st turn.broker .outside)
  /-- It is answered after it has got a task. -/
  | served {o : Outcome} (hnext : turn.next ++ post = []) (hreply : turn.reply = some (.outcome o))
    (ho : ∀ e, o = .rejected e → e = .unavailable .disabledWhileWaiting)

namespace Request.Leads

variable {r : Request} {i : ThreadId} {b b' : Broker} {st : Standing} {turn : Turn}
  {s : RequestStep} {e : BrokerError}

theorem of_next (h : RequestStep.next b' s = some turn) (hs : s.request = r)
    (ht : Treads r i b st b' s.standing) : r.Leads i b st turn [] := by
  obtain rfl := Option.some.inj h
  exact .on (.step s hs) ht

theorem of_answer {o : Outcome} (h : Turn.answer b' (.outcome o) = some turn)
    (ht : Treads r i b st b' .outside) : r.Leads i b st turn [] := by
  obtain rfl := Option.some.inj h
  exact .answered rfl rfl ht

theorem of_fault {post : List Action} (h : Turn.fault b = some turn) :
    r.Leads i b st turn post := by
  obtain rfl := Option.some.inj h
  exact .on (.lost post) .lost

/-- Whoever has a task is refused only if compilation is disabled while it waits. -/
theorem of_served {o : Outcome} (h : Turn.answer b' (.outcome o) = some turn)
    (ho : ∀ e, o = .rejected e → e = .unavailable .disabledWhileWaiting) :
    r.Leads i b st turn [] := by
  obtain rfl := Option.some.inj h
  exact .served rfl rfl ho

end Request.Leads

namespace RequestStep

variable {me : Caller} {ch : Choices} {b : Broker} {turn : Turn} {q : Inquiry} {t : TaskId}

/-- A requester that stops to wait is refused only if compilation is disabled. -/
theorem leave_leads {i : ThreadId} {b' : Broker} {task : Task} {gaveUp : Bool}
    (h : leave b' q t task gaveUp = some turn) : q.request.Leads i b .gone turn [] := by
  rw [leave] at h
  split at h
  · exact .of_next h rfl .serves
  · refine .of_served h fun e he => ?_
    split at he <;> cases he
    rfl

theorem wakeUp_leads {i : ThreadId} {task : Task} {watch : Option Watch}
    (h : wakeUp b ch q t task watch = some turn) : q.request.Leads i b .gone turn [] := by
  unfold wakeUp at h
  repeat' split at h
  all_goals first
    | exact leave_leads h
    | exact .of_next h rfl .serves

theorem answer_ne_rejected (m : Method) (r : Request) (id : UInt32) (result : TaskResult)
    (e : BrokerError) : answer m r id result ≠ .rejected e := by
  unfold answer
  repeat' split
  all_goals simp

/-- What a step of a request does. -/
theorem run_leads {s : RequestStep} (h : s.run me ch b = some turn) :
    s.request.Leads me.thread b s.standing turn [] := by
  cases s with
  | enter r =>
    rw [run] at h
    split at h
    · exact .of_answer h (.spares (.refl b _))
    · split at h
      · exact .of_answer h (.spares (.refl b _))
      · exact .of_next h rfl (.spares (.refl b _))
  | backend q =>
    rw [run] at h
    split at h
    · exact .of_fault h
    · split at h
      · exact .of_answer h (.spares (.refl b _))
      · exact .of_next h rfl (.spares (.refl b _))
  | enabled q =>
    rw [run] at h
    split at h
    · exact .of_answer h (.spares (.refl b _))
    · obtain rfl := Option.some.inj h
      exact .on (.restart q.unit q rfl) (.spares (.refl b _))
  | accepted q =>
    rw [run] at h
    split at h
    · exact .of_next h rfl (.spares (.refl b _))
    · exact .of_answer h (.spares (.refl b _))
  | eligible q =>
    rw [run] at h
    repeat' split at h
    · exact .of_fault h
    all_goals first
      | exact .of_answer h (.spares (.refl b _))
      | exact .of_next h rfl (.spares (.refl b _))
  | existing q =>
    rw [run] at h
    split at h
    · exact .of_fault h
    · split at h
      · exact .of_answer h (.spares (.refl b _))
      · exact .of_next h rfl (.spares (.refl b _))
  | policy q =>
    rw [run] at h
    split at h
    · exact .of_next h rfl (.spares (.refl b _))
    · exact .of_fault h
  | allowed q =>
    rw [run] at h
    repeat' split at h
    · exact .of_fault h
    · exact .of_answer h (.spares (.modifyMethod b _ fun x => .prohibit x _ _))
    · exact .of_answer h (.spares (.refl b _))
    · exact .of_next h rfl (.spares (.refl b _))
  | native q =>
    rw [run] at h
    repeat' split at h
    · exact .of_fault h
    · exact .of_answer h (.spares (.refl b _))
    all_goals exact .of_next h rfl (.spares (.refl b _))
  | link q =>
    rw [run] at h
    repeat' split at h
    · exact .of_fault h
    · exact .of_next h rfl (.spares (.modifyMethod b _ .linkNative))
    · exact .of_answer h (.spares (.modifyMethod b _ fun x => .prohibit x _ _))
  | mode q =>
    rw [run] at h
    split at h
    · exact .of_fault h
    · exact .of_next h rfl (.spares (.refl b _))
  | lock q =>
    rw [run] at h
    repeat' split at h
    · exact .of_fault h
    · exact .of_next h rfl (.takes ‹_› ‹_›)
    · cases h
  | stillEnabled q =>
    rw [run] at h
    split at h
    · exact .of_answer h (.leaves (.refl b _))
    · exact .of_next h rfl (.spares (.refl b _))
  | stillMissing q =>
    rw [run] at h
    repeat' split at h
    · exact .of_fault h
    · exact .of_answer h (.leaves (.refl b _))
    · exact .of_next h rfl (.spares (.refl b _))
  | stillAllowed q =>
    rw [run] at h
    repeat' split at h
    · exact .of_fault h
    · exact .of_answer h (.leaves (.modifyMethod b _ fun x => .prohibit x _ _))
    · exact .of_answer h (.leaves (.refl b _))
    · exact .of_next h rfl (.spares (.refl b _))
  | claim q =>
    rw [run] at h
    repeat' split at h
    · exact .of_fault h
    · exact .of_answer h (.leaves (.refl b _))
    · exact .of_next h rfl (.claims ‹_› (Bool.eq_false_of_not_eq_true ‹_›))
  | number q =>
    rw [run] at h
    split at h
    · exact .of_fault h
    · dsimp only at h
      split at h
      all_goals exact .of_next h rfl (.spares (.drawId b _ _))
  | exclude q id =>
    exact .of_next h rfl (.spares (.modifyMethod b _ fun x => .prohibit x _ _))
  | unclaim q e => exact .of_answer h .yields
  | allocate q id =>
    rw [run] at h
    split at h
    · exact .of_next h rfl (.spares (.refl b _))
    · exact .of_next h rfl .gets
  | stamp q t =>
    rw [run] at h
    split at h
    · exact .of_fault h
    · exact .of_next h rfl .serves
  | append q t =>
    rw [run] at h
    repeat' split at h
    · exact .of_fault h
    · exact .of_next h rfl .serves
    · exact .of_served h fun e he => by cases he
    · exact .of_fault h
  | attend q t =>
    rw [run] at h
    split at h
    · dsimp only at h
      split at h
      · exact leave_leads h
      · exact .of_next h rfl .serves
    · exact .of_fault h
  | asleep q t bell watch =>
    rw [run] at h
    repeat' split at h
    · exact .of_fault h
    · exact wakeUp_leads h
    · cases h
  | collect q t =>
    rw [run] at h
    split at h
    · exact .of_fault h
    · obtain rfl := Option.some.inj h
      exact .on (.free t q rfl _ _) .serves
  | conclude q id result =>
    rw [run] at h
    split at h
    · exact .of_fault h
    · exact .of_served h fun e he => absurd he (answer_ne_rejected _ _ _ _ e)

end RequestStep

/-- What a step does of a thread that is at a request. -/
theorem Action.run_leads {me : Caller} {ch : Choices} {b : Broker} {turn : Turn} {r : Request}
    {a : Action} {post : List Action} {st : Standing} (hbefore : r.Before (a :: post) st)
    (h : a.run me ch b = some turn) : r.Leads me.thread b st turn post := by
  cases hbefore with
  | step s hs => exact hs ▸ RequestStep.run_leads h
  | restart u q hq =>
    rw [run, ControlStep.run] at h
    split at h
    all_goals obtain rfl := Option.some.inj h
    · exact .on (.room u q hq) (.spares (.refl b _))
    · exact .on (.step (.accepted q) hq) (.spares (.refl b _))
  | room u q hq =>
    rw [run, ControlStep.run] at h
    split at h
    · exact .of_fault h
    · split at h
      all_goals obtain rfl := Option.some.inj h
      · exact .on (.step (.accepted q) hq) (.spares (.refl b _))
      · exact .on (.resume q hq) (.spares (.refl b _))
  | resume q hq =>
    rw [run, ControlStep.run] at h
    split at h
    all_goals obtain rfl := Option.some.inj h
    · exact .on (.count q hq) (.resumes ‹_›)
    · exact .on (.step (.accepted q) hq) (.spares (.refl b _))
  | count q hq =>
    obtain rfl := Option.some.inj h
    exact .on (.step (.accepted q) hq) .counts
  | free t q hq id result =>
    rw [run, TaskStep.run] at h
    repeat' split at h
    · exact .of_fault h
    · exact .of_fault h
    · obtain rfl := Option.some.inj h
      exact .on (.step (.conclude q id result) hq) .serves
  | lost post => cases h

namespace System

variable {s : System} {i : ThreadId} {th th' : Thread} {r : Request} {pre rest : List Action}
  {st : Standing} {e : BrokerError}

/-- The broker before and after a move, if it is a step of a thread. -/
def own (i : ThreadId) (s : System) (m : Move) : Option (Broker × Broker) :=
  (s.ranBy i m).map fun _ => (s.broker, (s.move m).broker)

/-- Whether a thread has more actions before it than so many, up to the last move of a run. -/
def busy (i : ThreadId) (n : Nat) : System → List Move → Bool
  | _, [] => true
  | s, m :: ms => s.threads[i]?.any (n < ·.agenda.length) && (s.move m).busy i n ms

/-- A request of a thread comes to its answer in the last move of a run: its steps lead to some
standing, in which the thread runs the last action that it has for the request. -/
inductive Concludes (s : System) (i : ThreadId) (r : Request) (rest : List Action) (st : Standing) :
    List Move → Thread → Prop where
  /-- Such a run. -/
  | intro (before : List Move) {m : Move} {ch : Choices} {th : Thread} {a : Action}
    {post : List Action} {turn : Turn} {st' : Standing}
    (hwalks : Walks r i st (s.gather (own i) before) st') (hbefore : r.Before (a :: post) st')
    (hruns : (before.foldl move s).Runs m i ch th a (post ++ rest) turn)
    (hnext : turn.next ++ post = []) : Concludes s i r rest st (before ++ [m]) (th.after turn)

/-- Once a thread has come down to what it had to do besides, the run is over. -/
theorem eq_nil_of_busy (hth : s.threads[i]? = some th) (ha : th.agenda = rest) {ms : List Move}
    (hbusy : s.busy i rest.length ms = true) : ms = [] := by
  cases ms with
  | nil => rfl
  | cons m ms => simp [busy, hth, ha] at hbusy

/-- A step of the request stands before the others. -/
theorem Concludes.cons {m : Move} {ms : List Move} {b₁ : Broker} {st' : Standing}
    (hown : s.own i m = some (s.broker, b₁)) (ht : Treads r i s.broker st b₁ st')
    (h : (s.move m).Concludes i r rest st' ms th') : s.Concludes i r rest st (m :: ms) th' := by
  obtain ⟨before, hwalks, hbefore, hruns, hnext⟩ := h
  refine .intro (m :: before) ?_ hbefore hruns hnext
  rw [gather, hown]
  exact .cons ht hwalks

/-- A move of another thread does not count. -/
theorem Concludes.skip {m : Move} {ms : List Move} (hran : s.ranBy i m = none)
    (h : (s.move m).Concludes i r rest st ms th') : s.Concludes i r rest st (m :: ms) th' := by
  obtain ⟨before, hwalks, hbefore, hruns, hnext⟩ := h
  refine .intro (m :: before) ?_ hbefore hruns hnext
  rwa [gather, own, hran]

/-- Whatever else happens, a run in which a thread comes to the end of its request ends with the
answer. -/
theorem concludes_of_busy (hth : s.threads[i]? = some th) (ha : th.agenda = pre ++ rest)
    (hbefore : r.Before pre st) {ms : List Move} (hbusy : s.busy i rest.length ms = true)
    (hend : (ms.foldl move s).threads[i]? = some th') (hrest : th'.agenda = rest) :
    s.Concludes i r rest st ms th' := by
  obtain ⟨a, post, rfl⟩ := hbefore.exists_cons
  induction ms generalizing s th a post st with
  | nil =>
    obtain rfl := Option.some.inj (hth.symm.trans hend)
    have hlength := congrArg List.length (ha.symm.trans hrest)
    rw [List.length_append, List.length_cons] at hlength
    omega
  | cons m ms ih =>
    have hbusy' : (s.move m).busy i rest.length ms = true := (Bool.and_eq_true_iff.1 hbusy).2
    cases hran : s.ranBy i m with
    | none => exact .skip hran (ih (thread_of_ranBy hth hran) hbusy' hend a post ha hbefore)
    | some a' =>
      obtain ⟨ch, rest', turn, hruns⟩ := exists_runs_of_ranBy hran hth
      obtain ⟨rfl, rfl⟩ := List.cons.inj (hruns.agenda.symm.trans ha)
      have hafter := hruns.thread_after
      have hagenda : (th.after turn).agenda = turn.next ++ post ++ rest := by
        simp [Thread.after, ha]
      have hlast (hnext : turn.next ++ post = []) : s.Concludes i r rest st (m :: ms) th' := by
        obtain rfl := eq_nil_of_busy hafter (by rw [hagenda, hnext, List.nil_append]) hbusy'
        obtain rfl := Option.some.inj (hafter.symm.trans hend)
        exact .intro [] (.nil st) hbefore hruns hnext
      cases Action.run_leads hbefore hruns.run with
      | on hbefore' ht =>
        obtain ⟨a', post', heq⟩ := hbefore'.exists_cons
        rw [heq] at hagenda hbefore'
        refine .cons ?_ ht (ih hafter hbusy' hend a' post' hagenda hbefore')
        rw [own, hran, hruns.turned, broker_turned]
        rfl
      | answered hnext _ _ => exact hlast hnext
      | served hnext _ _ => exact hlast hnext

/-- The steps of a request that is refused without having got a task lead from one standing to the
next, until it has nothing. -/
theorem Concludes.walks {ms : List Move} (h : s.Concludes i r rest st ms th')
    (hreply : th'.reply = some (.outcome (.rejected e)))
    (he : e ≠ .unavailable .disabledWhileWaiting) :
    Walks r i st (s.gather (own i) ms) .outside := by
  obtain ⟨before, hwalks, hbefore, hruns, hnext⟩ := h
  rw [gather_concat, own, hruns.ranBy_self, hruns.turned, broker_turned]
  cases Action.run_leads hbefore hruns.run with
  | on hbefore' _ =>
    obtain ⟨a', post', heq⟩ := hbefore'.exists_cons
    rw [hnext] at heq
    cases heq
  | answered _ _ ht => exact hwalks.concat ht
  | served _ hreply' ho =>
    rw [Thread.after, hreply'] at hreply
    exact absurd (ho e (Reply.outcome.inj (Option.some.inj hreply))) he

/-- Whatever the state is, a request leaves no trace if it is refused without having got a task.

* If nobody moves meanwhile, it comes to the answer and to the broker that `Broker.answer?` tells. That
  one is spared, so that nothing has changed that has to do with tasks and code.
* However others move meanwhile, each of its own steps spares the broker that it finds, but for the
  lock of its queue, the claim on its method, and a broker that goes on; and since it begins and ends
  with nothing, it has given back what it has taken. -/
theorem refused_of_run (hth : s.threads[i]? = some th)
    (ha : th.agenda = .request (.enter r) :: rest) :
    (∀ e b', s.broker.answer? (th.caller i) r = some (.rejected e, b') →
      RunsTo i s (s.withThread i b' rest (some (.outcome (.rejected e)))) ∧
        s.broker.Spared r.method b' ∧ s.broker.Untouched b') ∧
      ∀ ms th' e, s.busy i rest.length ms = true → (ms.foldl move s).threads[i]? = some th' →
        th'.agenda = rest → th'.reply = some (.outcome (.rejected e)) →
        e ≠ .unavailable .disabledWhileWaiting →
        Walks r i .outside (s.gather (own i) ms) .outside := by
  refine ⟨fun e b' h => ?_, fun ms th' e hbusy hend hrest hreply he => ?_⟩
  · have hspared := Broker.spared_answer h
    exact ⟨runsTo_answer hth ha h, hspared, hspared.untouched⟩
  · have hconcludes := concludes_of_busy hth (show th.agenda = [.request (.enter r)] ++ rest from ha)
      (.step (.enter r) rfl) hbusy hend hrest
    exact hconcludes.walks hreply he

/-- A request whose number, the first one, is outside of the window. -/
def narrowAsked : List Move :=
  soloStart ++ [.call (.request { method := 0, tier := 1, reason := .normal }) 0]

/-- While it has the lock, another one comes that has to wait for the lock. -/
def narrowMeanwhile : List Move :=
  times 2 14 ++ soloRequest 3 0 ++ times 2 5

/-- It is refused once it has claimed its method, and has given the claim back then, whether it is alone
or not. -/
theorem refused_of_narrowAsked :
    (∃ b', RunsTo 2 (narrowAsked.foldl move (launch .narrow))
        ((narrowAsked.foldl move (launch .narrow)).withThread 2 b' []
          (some (.outcome (.rejected (.prohibited (.outsideRange 1)))))) ∧
      (narrowAsked.foldl move (launch .narrow)).broker.Spared 0 b' ∧
      (narrowAsked.foldl move (launch .narrow)).broker.Untouched b') ∧
    Walks { method := 0, tier := 1, reason := .normal } 2 .outside
      ((narrowAsked.foldl move (launch .narrow)).gather (own 2) narrowMeanwhile) .outside := by
  have hsize : (soloStart.foldl move (launch .narrow)).threads.size = 2 := by decide +kernel
  have hthread : (narrowAsked.foldl move (launch .narrow)).threads[2]? =
      some { agenda := [.request (.enter { method := 0, tier := 1, reason := .normal })] } := by
    rw [narrowAsked, List.foldl_append]
    exact hsize ▸ Table.getElem?_add_self _ _
  obtain ⟨halone, hwalks⟩ := refused_of_run hthread rfl
  have hanswer : ((narrowAsked.foldl move (launch .narrow)).broker.answer?
      ({ agenda := [] : Thread }.caller 2) { method := 0, tier := 1, reason := .normal }).map (·.1) =
        some (.rejected (.prohibited (.outsideRange 1))) := by decide +kernel
  obtain ⟨⟨o, b'⟩, hb', rfl⟩ := Option.map_eq_some_iff.1 hanswer
  have hend : (narrowMeanwhile.foldl move (narrowAsked.foldl move (launch .narrow))).threads[2]?.map
      (fun th => (th.agenda.isEmpty, th.reply)) =
        some (true, some (.outcome (.rejected (.prohibited (.outsideRange 1))))) := by decide +kernel
  obtain ⟨th', hth', hafter⟩ := Option.map_eq_some_iff.1 hend
  obtain ⟨hempty, hreply⟩ := Prod.mk.inj hafter
  exact ⟨⟨b', halone _ b' hb'⟩, hwalks narrowMeanwhile th' _ (by decide +kernel) hth'
    (List.isEmpty_iff.1 hempty) hreply (by decide)⟩

end System

end JitBroker
