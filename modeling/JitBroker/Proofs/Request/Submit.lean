import JitBroker.Proofs.Code.Decompiled

/-!
# Requests that are answered at once

A request that needs no task is answered by its own thread, in a dozen steps or less. If nobody else
moves in between, these come to `Broker.answer?`, which looks at one broker only: the second look
under the lock of the queue finds what the first one has found (`System.runsTo_answer`).

There is no answer at once for a request that gets a task, or that finds the lock of its queue taken.
-/

namespace JitBroker

/-- Why the back-end of a unit has failed to start, if it has. -/
def InitState.failure? : InitState → Option String
  | .failed message => some message
  | _ => none

namespace Broker

/-- The answer to a request that is turned away. -/
def refuse (b : Broker) (e : BrokerError) : Option (Outcome × Broker) := some (.rejected e, b)

/-- Why no code of a method can be asked for, if it cannot. -/
def unfit? (b : Broker) (m : Method) : Option BrokerError :=
  if m.isAbstract then some (.prohibited .abstractMethod)
  else if m.isIntrinsic then some (.prohibited .intrinsic)
  else if !b.isInitialized m then some (.unavailable (.classNotInitialized m.className))
  else none

/-- The answer to a request that has claimed its method, after it has given the claim back. -/
def numbered? (b : Broker) (m : Method) (r : Request) : Option (Outcome × Broker) :=
  let (id, b) := b.drawId (m.idKind r.bci)
  if b.config.allowsId id then
    if b.pool.allocate?.isNone then b.refuse (.outOfResources (.taskLimit b.pool.capacity)) else none
  else
    (b.modifyMethod r.method (·.prohibit r.isOsr r.tier)).refuse (.prohibited (.outsideRange id))

/-- The answer to a request that comes to the lock of its queue. -/
def atDesk? (b : Broker) (unit : TierUnit) (m : Method) (r : Request) : Option (Outcome × Broker) :=
  if unit.queue.isFree then
    if m.queued then b.refuse (.alreadyInProgress m.fullName) else b.numbered? m r
  else none

/-- The answer to a request that is allowed, but for the native entry of its method. -/
def allowed? (b : Broker) (me : Caller) (unit : TierUnit) (m : Method) (r : Request) :
    Option (Outcome × Broker) :=
  if m.isNative && !m.linked then
    if me.onCompiler then b.refuse (.unavailable .nativeLookupOnCompiler)
    else if m.linkNative.1 then
      (b.modifyMethod r.method fun m => m.linkNative.2).atDesk? unit m.linkNative.2 r
    else
      (b.modifyMethod r.method (·.prohibit false r.tier)).refuse (.prohibited .nativeLookup)
  else b.atDesk? unit m r

/-- The answer to a request for which there is no code. -/
def policy? (b : Broker) (me : Caller) (unit : TierUnit) (m : Method) (r : Request) :
    Option (Outcome × Broker) :=
  match m.objection? r (b.directiveFor m unit.kind) with
  | some .excluded =>
    (b.modifyMethod r.method (·.prohibit r.isOsr r.tier)).refuse (.prohibited .excluded)
  | some cause => b.refuse (.prohibited cause)
  | none => b.allowed? me unit m r

/-- The answer to a request for code of a method, while jobs are taken. -/
def accepted? (b : Broker) (me : Caller) (unit : TierUnit) (m : Method) (r : Request) :
    Option (Outcome × Broker) :=
  match b.unfit? m with
  | some e => b.refuse e
  | none =>
    match m.compiledCode? r.bci r.tier with
    | some code => some (.installed code, b)
    | none => b.policy? me unit m r

/-- The answer to a request that finds its unit. -/
def enabled? (b : Broker) (me : Caller) (unit : TierUnit) (r : Request) :
    Option (Outcome × Broker) :=
  match unit.init.failure? with
  | some message => b.refuse (.backendInitFailure (.failed message))
  | none =>
    if b.disabled then b.refuse (.unavailable .disabled)
    else if !(b.restart unit).accepting then (b.restart unit).refuse (.unavailable .stopped)
    else
      match (b.restart unit).methods[r.method]? with
      | some m => (b.restart unit).accepted? me unit m r
      | none => none

/-- The answer at once to a request that nobody interferes with, and the broker after it. -/
def answer? (b : Broker) (me : Caller) (r : Request) : Option (Outcome × Broker) :=
  if !b.initialized then b.refuse (.unavailable .notInitialized)
  else
    match (b.unitOf? r.tier).bind (b.units[·]?) with
    | none => b.refuse (.unavailable (.tierNotEnabled r.tier))
    | some unit => b.enabled? me unit r

end Broker

/-! ### What does not change -/

namespace Broker

variable (b : Broker) (unit : TierUnit)

theorem units_restart : (b.restart unit).units = b.units := by
  unfold restart
  split <;> rfl

theorem disabled_restart : (b.restart unit).disabled = b.disabled := by
  unfold restart
  split <;> rfl

end Broker

namespace Method

variable (m : Method)

@[simp] theorem compiledCode_linkNative (bci : Int) (tier : Tier) :
    m.linkNative.2.compiledCode? bci tier = m.compiledCode? bci tier := by
  unfold linkNative
  split <;> rfl

@[simp] theorem objection_linkNative (r : Request) (d : Directive) :
    m.linkNative.2.objection? r d = m.objection? r d := by
  unfold linkNative
  split <;> rfl

end Method

namespace Table

/-- Changes of a record that come to the same do the same. -/
theorem modify_congr {α : Type} {t : Table α} {i : Nat} {x : α} (h : t[i]? = some x) {f g : α → α}
    (hfg : f x = g x) : t.modify i f = t.modify i g := by
  refine ext_getElem? fun j => ?_
  rw [getElem?_modify, getElem?_modify]
  split
  · rename_i hij
    subst hij
    rw [h, Option.map_some, Option.map_some, hfg]
  · rfl

end Table

namespace Broker

variable {b : Broker} {u : UnitId} {unit : TierUnit} {m : Method} {k : MethodId}

/-- To take a lock and to give it back changes nothing. -/
theorem giveBack_take (hu : b.units[u]? = some unit) (hfree : unit.queue.isFree = true)
    (i : ThreadId) :
    (b.modifyQueue u (·.take i)).modifyQueue u CompileQueue.giveBack = b := by
  have hlock : unit.queue.lock = none := by simpa [CompileQueue.isFree] using hfree
  have hunits : (b.units.modify u fun x => { x with queue := x.queue.take i }).modify u
      (fun x => { x with queue := x.queue.giveBack }) = b.units := by
    rw [Table.modify_modify]
    refine (Table.modify_congr hu ?_).trans (Table.modify_eq_self (f := id) fun _ => rfl)
    obtain ⟨config, kind, queue, init, stats, crew⟩ := unit
    obtain ⟨name, tier, selector, list, peak, added, removed, bell, lock⟩ := queue
    obtain rfl : lock = none := hlock
    rfl
  exact congrArg (fun units => { b with units := units }) hunits

/-- To claim a method and to give the claim back changes nothing. -/
theorem unclaim_claim (hm : b.methods[k]? = some m) (hfree : m.queued = false) :
    (b.methods.modify k fun x => { x with queued := true }).modify k
      (fun x => { x with queued := false }) = b.methods := by
  rw [Table.modify_modify]
  refine (Table.modify_congr hm ?_).trans (Table.modify_eq_self (f := id) fun _ => rfl)
  change ({ m with queued := false } : Method) = m
  rw [← hfree]

/-- Neither does it if the method is ruled out at a tier in between. -/
theorem unclaim_prohibit_claim (hm : b.methods[k]? = some m) (hfree : m.queued = false) (osr : Bool)
    (tier : Tier) :
    ((b.methods.modify k fun x => { x with queued := true }).modify k (·.prohibit osr tier)).modify k
      (fun x => { x with queued := false }) = b.methods.modify k (·.prohibit osr tier) := by
  rw [Table.modify_modify, Table.modify_modify]
  refine Table.modify_congr hm ?_
  rw [Method.prohibit, Method.prohibit, ← hfree]
  split <;> rfl

/-- The cases of a request that is turned away after it has claimed its method. -/
theorem numbered_cases {r : Request} {o : Outcome} {b' : Broker}
    (h : b.numbered? m r = some (o, b')) :
    (b.config.allowsId (b.drawId (m.idKind r.bci)).1 = true ∧ b.pool.allocate? = none ∧
      o = .rejected (.outOfResources (.taskLimit b.pool.capacity)) ∧
      b' = (b.drawId (m.idKind r.bci)).2) ∨
    (b.config.allowsId (b.drawId (m.idKind r.bci)).1 = false ∧
      o = .rejected (.prohibited (.outsideRange (b.drawId (m.idKind r.bci)).1)) ∧
      b' = (b.drawId (m.idKind r.bci)).2.modifyMethod r.method (·.prohibit r.isOsr r.tier)) := by
  by_cases hallows : b.config.allowsId (b.drawId (m.idKind r.bci)).1 = true
  · have h := (if_pos hallows).symm.trans h
    cases hpool : b.pool.allocate? with
    | some pool => cases (if_neg (by simp [hpool])).symm.trans h
    | none =>
      obtain ⟨rfl, rfl⟩ := Prod.mk.inj (Option.some.inj ((if_pos (by simp [hpool])).symm.trans h))
      exact .inl ⟨hallows, rfl, rfl, rfl⟩
  · obtain ⟨rfl, rfl⟩ := Prod.mk.inj (Option.some.inj ((if_neg hallows).symm.trans h))
    exact .inr ⟨Bool.eq_false_of_not_eq_true hallows, rfl, rfl⟩

/-- A request that is turned away after it has claimed its method leaves nothing behind of lock and
claim. -/
theorem numbered_claimed {r : Request} {o : Outcome} {b' : Broker} (hu : b.units[u]? = some unit)
    (hfree : unit.queue.isFree = true) (hm : b.methods[r.method]? = some m)
    (hqueued : m.queued = false) (h : b.numbered? m r = some (o, b')) (i : ThreadId) :
    ∃ b₁, ((b.modifyQueue u (·.take i)).modifyMethod r.method
        fun x => { x with queued := true }).numbered? { m with queued := true } r = some (o, b₁) ∧
      (b₁.modifyQueue u CompileQueue.giveBack).modifyMethod r.method
        (fun x => { x with queued := false }) = b' := by
  have hunits := congrArg Broker.units (giveBack_take hu hfree i)
  let with_ (units : Table TierUnit) (methods : Table Method) : Broker :=
    { b with units := units, methods := methods, ids := (b.ids.draw (m.idKind r.bci)).2 }
  rcases numbered_cases h with ⟨hallows, hpool, rfl, rfl⟩ | ⟨hallows, rfl, rfl⟩
  · refine ⟨_, (if_pos hallows).trans (if_pos ?_), ?_⟩
    · exact Option.isNone_iff_eq_none.2 hpool
    · exact congrArg₂ with_ hunits (unclaim_claim hm hqueued)
  · refine ⟨_, if_neg (Bool.eq_false_iff.1 hallows), ?_⟩
    exact congrArg₂ with_ hunits (unclaim_prohibit_claim hm hqueued _ _)

end Broker

namespace System

variable {s s' : System} {i : ThreadId} {t : Thread} {a : Action} {rest : List Action}
  {b b' : Broker} {r : Option Reply} {q : Inquiry} {unit : TierUnit} {m : Method} {o : Outcome}

/-- A step of a thread that has this left behind. -/
theorem RunsTo.stepOf {next : List Action} {reply : Option Reply}
    (ht : s.threads[i]? = some t)
    (hrun : a.run { t.caller i with reply := r } {} b =
      some { broker := b', next := next, reply := reply })
    (h : RunsTo i (s.withThread i b' (next ++ rest) (reply.or r)) s') :
    RunsTo i (s.withThread i b (a :: rest) r) s' := by
  refine .head ?_ h
  have hthread : (s.withThread i b (a :: rest) r).threads[i]? =
      some { t with agenda := a :: rest, reply := r } := Table.getElem?_modify_self ht _
  have hstep := step_eq_some_iff.2 ⟨_, a, rest, _, hthread, rfl, hrun, rfl⟩
  rw [System.move, hstep]
  exact congrArg (mk b') (Table.modify_modify s.threads i _ _)

/-- A step that answers the request. -/
theorem RunsTo.answers (ht : s.threads[i]? = some t)
    (hrun : a.run { t.caller i with reply := r } {} b =
      some { broker := b', reply := some (.outcome o) }) :
    RunsTo i (s.withThread i b (a :: rest) r) (s.withThread i b' rest (some (.outcome o))) :=
  .stepOf ht hrun (.refl i _)

/-- A request that has claimed its method, and gives back claim and lock. -/
theorem RunsTo.numbered (ht : s.threads[i]? = some t)
    (hm : b.methods[q.request.method]? = some m) (h : b.numbered? m q.request = some (o, b')) :
    RunsTo i (s.withThread i b (.request (.number q) :: rest) r)
      (s.withThread i ((RequestStep.unlock b' q).modifyMethod q.request.method
        fun m => { m with queued := false }) rest (some (.outcome o))) := by
  rcases Broker.numbered_cases h with ⟨hallows, hpool, rfl, rfl⟩ | ⟨hallows, rfl, rfl⟩
  · refine .stepOf ht (by
      simp only [Action.run, RequestStep.run, hm]
      exact if_pos hallows) ?_
    have hfull : (Action.request (.allocate q (b.drawId (m.idKind q.request.bci)).1)).run
        { t.caller i with reply := r } {} (b.drawId (m.idKind q.request.bci)).2 =
          Turn.go (b.drawId (m.idKind q.request.bci)).2
            [.request (.unclaim q (.outOfResources (.taskLimit b.pool.capacity)))] := by
      simp only [Action.run, RequestStep.run, Broker.drawId, hpool]
      rfl
    exact .stepOf ht hfull (.answers ht rfl)
  · refine .stepOf ht (by
      simp only [Action.run, RequestStep.run, hm]
      exact if_neg (Bool.eq_false_iff.1 hallows)) ?_
    exact .stepOf ht rfl (.answers ht rfl)

/-- A request that comes to the lock of its queue. Under the lock it finds what it has found before. -/
theorem RunsTo.atDesk (ht : s.threads[i]? = some t) (hu : b.units[q.unit]? = some unit)
    (hm : b.methods[q.request.method]? = some m) (hdisabled : b.disabled = false)
    (hcode : m.compiledCode? q.request.bci q.request.tier = none)
    (hallowed : m.objection? q.request q.directive = none)
    (h : b.atDesk? unit m q.request = some (o, b')) :
    RunsTo i (s.withThread i b (.request (.lock q) :: rest) r)
      (s.withThread i b' rest (some (.outcome o))) := by
  rw [Broker.atDesk?] at h
  cases hfree : unit.queue.isFree with
  | false => simp [hfree] at h
  | true =>
    rw [hfree, if_pos rfl] at h
    have hback := Broker.giveBack_take hu hfree i
    -- Nobody else moves, so the second look finds what the first one has found.
    refine .stepOf ht (by simp only [Action.run, RequestStep.run, hu, hfree, if_true]; rfl) ?_
    have henabled : (Action.request (.stillEnabled q)).run { t.caller i with reply := r } {}
        (b.modifyQueue q.unit (·.take i)) =
          Turn.go (b.modifyQueue q.unit (·.take i)) [.request (.stillMissing q)] :=
      if_neg (by simp [Broker.modifyQueue, Broker.modifyUnit, hdisabled])
    refine .stepOf ht henabled ?_
    have hm₁ : (b.modifyQueue q.unit (·.take i)).methods[q.request.method]? = some m := hm
    refine .stepOf ht (by simp only [Action.run, RequestStep.run, hm₁, hcode]; rfl) ?_
    refine .stepOf ht (by simp only [Action.run, RequestStep.run, hm₁, hallowed]; rfl) ?_
    cases hqueued : m.queued with
    | true =>
      rw [hqueued, if_pos rfl] at h
      obtain ⟨rfl, rfl⟩ := Prod.mk.inj (Option.some.inj h)
      refine .answers ht ?_
      simp only [Action.run, RequestStep.run, hm₁, hqueued, if_true, RequestStep.unlock, hback]
      rfl
    | false =>
      rw [hqueued, if_neg Bool.false_ne_true] at h
      refine .stepOf ht (by
        simp only [Action.run, RequestStep.run, hm₁, hqueued, Bool.false_eq_true, if_false]; rfl) ?_
      obtain ⟨b₁, h₁, rfl⟩ := Broker.numbered_claimed hu hfree hm hqueued h i
      exact .numbered ht (Table.getElem?_modify_self hm₁ _) h₁

/-- A request that is allowed, and that goes on to the lock unless the native entry of its method
cannot be looked up. -/
theorem RunsTo.allowed (ht : s.threads[i]? = some t) (hu : b.units[q.unit]? = some unit)
    (hm : b.methods[q.request.method]? = some m) (hdisabled : b.disabled = false)
    (hcode : m.compiledCode? q.request.bci q.request.tier = none)
    (hallowed : m.objection? q.request q.directive = none)
    (h : b.allowed? (t.caller i) unit m q.request = some (o, b')) :
    RunsTo i (s.withThread i b (.request (.native q) :: rest) r)
      (s.withThread i b' rest (some (.outcome o))) := by
  rw [Broker.allowed?] at h
  by_cases hnative : (m.isNative && !m.linked) = true
  case neg =>
    rw [if_neg hnative] at h
    refine .stepOf ht (by simp only [Action.run, RequestStep.run, hm, if_neg hnative]; rfl) ?_
    refine .stepOf ht (by simp only [Action.run, RequestStep.run, hu]; rfl) ?_
    exact .atDesk ht hu hm hdisabled hcode hallowed h
  case pos =>
    rw [if_pos hnative] at h
    by_cases hcompiler : (t.caller i).onCompiler = true
    case pos =>
      rw [if_pos hcompiler] at h
      obtain ⟨rfl, rfl⟩ := Prod.mk.inj (Option.some.inj h)
      exact .answers ht (by
        simp only [Action.run, RequestStep.run, hm, if_pos hnative, if_pos hcompiler]; rfl)
    case neg =>
      rw [if_neg hcompiler] at h
      refine .stepOf ht (by
        simp only [Action.run, RequestStep.run, hm, if_pos hnative, if_neg hcompiler]; rfl) ?_
      by_cases hlink : m.linkNative.1 = true
      case neg =>
        rw [if_neg hlink] at h
        obtain ⟨rfl, rfl⟩ := Prod.mk.inj (Option.some.inj h)
        exact .answers ht (by simp only [Action.run, RequestStep.run, hm, if_neg hlink]; rfl)
      case pos =>
        rw [if_pos hlink] at h
        refine .stepOf ht (by simp only [Action.run, RequestStep.run, hm, if_pos hlink]; rfl) ?_
        have hu' : (b.modifyMethod q.request.method fun m => m.linkNative.2).units[q.unit]? =
            some unit := hu
        refine .stepOf ht (by simp only [Action.run, RequestStep.run, hu']; rfl) ?_
        exact .atDesk ht hu' (Table.getElem?_modify_self hm _) hdisabled
          ((m.compiledCode_linkNative _ _).trans hcode)
          ((m.objection_linkNative _ _).trans hallowed) h

/-- A request that comes to the checks of directive and marks. -/
theorem RunsTo.policy (ht : s.threads[i]? = some t) (hu : b.units[q.unit]? = some unit)
    (hm : b.methods[q.request.method]? = some m) (hdisabled : b.disabled = false)
    (hcode : m.compiledCode? q.request.bci q.request.tier = none)
    (h : b.policy? (t.caller i) unit m q.request = some (o, b')) :
    RunsTo i (s.withThread i b (.request (.policy q) :: rest) r)
      (s.withThread i b' rest (some (.outcome o))) := by
  rw [Broker.policy?] at h
  refine .stepOf ht (by simp only [Action.run, RequestStep.run, hm, hu]; rfl) ?_
  cases hobjection : m.objection? q.request (b.directiveFor m unit.kind) with
  | none =>
    rw [hobjection] at h
    refine .stepOf ht (by simp only [Action.run, RequestStep.run, hm, hobjection]; rfl) ?_
    exact .allowed ht hu hm hdisabled hcode hobjection h
  | some cause =>
    rw [hobjection] at h
    refine .answers ht ?_
    simp only [Action.run, RequestStep.run, hm, hobjection]
    cases cause <;> obtain ⟨rfl, rfl⟩ := Prod.mk.inj (Option.some.inj h) <;> rfl

/-- A request for code of a method, while jobs are taken. -/
theorem RunsTo.accepted (ht : s.threads[i]? = some t) (hu : b.units[q.unit]? = some unit)
    (hm : b.methods[q.request.method]? = some m) (hdisabled : b.disabled = false)
    (h : b.accepted? (t.caller i) unit m q.request = some (o, b')) :
    RunsTo i (s.withThread i b (.request (.eligible q) :: rest) r)
      (s.withThread i b' rest (some (.outcome o))) := by
  rw [Broker.accepted?, Broker.unfit?] at h
  by_cases habstract : m.isAbstract = true
  case pos =>
    rw [if_pos habstract] at h
    obtain ⟨rfl, rfl⟩ := Prod.mk.inj (Option.some.inj h)
    exact .answers ht (by simp only [Action.run, RequestStep.run, hm, if_pos habstract]; rfl)
  rw [if_neg habstract] at h
  by_cases hintrinsic : m.isIntrinsic = true
  case pos =>
    rw [if_pos hintrinsic] at h
    obtain ⟨rfl, rfl⟩ := Prod.mk.inj (Option.some.inj h)
    exact .answers ht (by
      simp only [Action.run, RequestStep.run, hm, if_neg habstract, if_pos hintrinsic]; rfl)
  rw [if_neg hintrinsic] at h
  by_cases hinit : (!b.isInitialized m) = true
  case pos =>
    rw [if_pos hinit] at h
    obtain ⟨rfl, rfl⟩ := Prod.mk.inj (Option.some.inj h)
    exact .answers ht (by
      simp only [Action.run, RequestStep.run, hm, if_neg habstract, if_neg hintrinsic, if_pos hinit]
      rfl)
  rw [if_neg hinit] at h
  refine .stepOf ht (by
    simp only [Action.run, RequestStep.run, hm, if_neg habstract, if_neg hintrinsic, if_neg hinit]
    rfl) ?_
  cases hcode : m.compiledCode? q.request.bci q.request.tier with
  | some code =>
    simp only [hcode] at h
    obtain ⟨rfl, rfl⟩ := Prod.mk.inj (Option.some.inj h)
    exact .answers ht (by simp only [Action.run, RequestStep.run, hm, hcode]; rfl)
  | none =>
    simp only [hcode] at h
    refine .stepOf ht (by simp only [Action.run, RequestStep.run, hm, hcode]; rfl) ?_
    exact .policy ht hu hm hdisabled hcode h

/-- A request that finds its unit. -/
theorem RunsTo.enabled (ht : s.threads[i]? = some t) (hu : b.units[q.unit]? = some unit)
    (h : b.enabled? (t.caller i) unit q.request = some (o, b')) :
    RunsTo i (s.withThread i b (.request (.backend q) :: rest) r)
      (s.withThread i b' rest (some (.outcome o))) := by
  rw [Broker.enabled?] at h
  have hbackend {me : Caller} : (Action.request (.backend q)).run me {} b =
      match unit.init.failure? with
      | some message => RequestStep.reject b (.backendInitFailure (.failed message))
      | none => RequestStep.next b (.enabled q) := by
    simp only [Action.run, RequestStep.run, hu]
    cases unit.init <;> rfl
  cases hfailed : unit.init.failure? with
  | some message =>
    rw [hfailed] at h hbackend
    obtain ⟨rfl, rfl⟩ := Prod.mk.inj (Option.some.inj h)
    exact .answers ht hbackend
  | none =>
    rw [hfailed] at h hbackend
    refine .stepOf ht hbackend ?_
    cases hdisabled : b.disabled with
    | true =>
      simp only [hdisabled, if_true] at h
      obtain ⟨rfl, rfl⟩ := Prod.mk.inj (Option.some.inj h)
      exact .answers ht (by simp only [Action.run, RequestStep.run, hdisabled, if_true]; rfl)
    | false =>
      simp only [hdisabled, Bool.false_eq_true, if_false] at h
      refine .stepOf ht (by
        simp only [Action.run, RequestStep.run, hdisabled, Bool.false_eq_true, if_false]; rfl) ?_
      refine .restart ht hu ?_
      cases haccepting : (b.restart unit).accepting with
      | false =>
        simp only [haccepting, Bool.not_false, if_true] at h
        obtain ⟨rfl, rfl⟩ := Prod.mk.inj (Option.some.inj h)
        exact .answers ht (by
          simp only [Action.run, RequestStep.run, haccepting, Bool.false_eq_true, if_false]; rfl)
      | true =>
        simp only [haccepting, Bool.not_true, Bool.false_eq_true, if_false] at h
        refine .stepOf ht (by simp only [Action.run, RequestStep.run, haccepting, if_true]; rfl) ?_
        cases hm : (b.restart unit).methods[q.request.method]? with
        | none =>
          rw [hm] at h
          cases h
        | some m =>
          simp only [hm] at h
          exact .accepted ht (by rwa [b.units_restart]) hm (by rwa [b.disabled_restart]) h

/-- A request that nobody interferes with comes to its answer, if it has one at once. -/
theorem runsTo_answer {req : Request} (ht : s.threads[i]? = some t)
    (ha : t.agenda = .request (.enter req) :: rest)
    (h : s.broker.answer? (t.caller i) req = some (o, b')) :
    RunsTo i s (s.withThread i b' rest (some (.outcome o))) := by
  suffices RunsTo i (s.withThread i s.broker (.request (.enter req) :: rest) t.reply)
      (s.withThread i b' rest (some (.outcome o))) by
    rwa [← ha, withThread_self ht] at this
  rw [Broker.answer?] at h
  by_cases hstarted : (!s.broker.initialized) = true
  case pos =>
    rw [if_pos hstarted] at h
    obtain ⟨rfl, rfl⟩ := Prod.mk.inj (Option.some.inj h)
    exact .answers ht (by simp only [Action.run, RequestStep.run, if_pos hstarted]; rfl)
  rw [if_neg hstarted] at h
  cases hu : s.broker.unitOf? req.tier with
  | none =>
    rw [hu] at h
    obtain ⟨rfl, rfl⟩ := Prod.mk.inj (Option.some.inj h)
    exact .answers ht (by simp only [Action.run, RequestStep.run, if_neg hstarted, hu]; rfl)
  | some u =>
    obtain ⟨unit, hunit⟩ := Table.exists_getElem? (Broker.lt_of_unitOf hu)
    simp only [hu, Option.bind_some, hunit] at h
    refine .stepOf ht (by simp only [Action.run, RequestStep.run, if_neg hstarted, hu]; rfl) ?_
    exact .enabled ht hunit h

end System

end JitBroker
