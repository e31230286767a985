import JitBroker.Proofs.Code.Filing
import JitBroker.Proofs.Fittings

/-!
# Who rules out compiles

A method carries two sets of tiers, one for the standard entry and one for OSR entries, and a
compile at a tier in the set of its kind of entry is ruled out. The sets are written from several
places: by requests, by workers whose compile has failed, and from outside. Each of these writes is
a *ban*, of one tier for one kind of entry of one method, or of all tiers of one method.

* `Action.ban?`: the ban of a step, if it has one;
* `System.Lawful.banned_foldl`: after a run of any moves, what is ruled out for a method is what was
  before, and what the bans in the run cover, and nothing else. So bans never overlap, and are never
  lifted.
-/

namespace JitBroker

/-! ### Bans -/

/-- What is ruled out at once. -/
inductive Ban where
  /-- One tier of a method, for OSR entries or for the standard entry. -/
  | tier (m : MethodId) (osr : Bool) (tier : Tier)
  /-- All tiers of a method. -/
  | all (m : MethodId)
  deriving DecidableEq

/-- Whether a ban rules out a tier of a method, for OSR entries or for the standard entry. There is
nothing to rule out in tiers that have no bit. -/
def Ban.covers (m : MethodId) (osr : Bool) (tier : Tier) : Ban → Bool
  | .tier m' osr' tier' => m == m' && osr == osr' && tier == tier' && decide (tier < tierLimit)
  | .all m' => m == m' && decide (tier < tierLimit)

/-- The method that a ban is about. -/
def Ban.method : Ban → MethodId
  | .tier m _ _ | .all m => m

theorem Ban.covers_of_ne {ban : Ban} {m : MethodId} (h : m ≠ ban.method) (osr : Bool) (tier : Tier) :
    ban.covers m osr tier = false := by
  cases ban <;> simp_all [covers, method]

/-- The ban of a request for its own tier and kind of entry. -/
def Request.ban (r : Request) : Ban := .tier r.method r.isOsr r.tier

/-- The ban for a task that ends with a scope. -/
def Task.ban? (task : Task) : Option FailureScope → Option Ban
  | some .notAtTier => some (.tier task.method task.isOsr task.tier)
  | some .never => some (.all task.method)
  | _ => none

theorem Task.method_of_ban (task : Task) (scope : Option FailureScope) {ban : Ban}
    (h : task.ban? scope = some ban) : ban.method = task.method := by
  unfold ban? at h
  split at h <;> cases h <;> rfl

/-- The ban of an operation. -/
def Operation.ban? : Operation → Option Ban
  | .prohibit m osr tier => some (.tier m osr tier)
  | .prohibitAll m => some (.all m)
  | _ => none

/-- The ban of a finished compile. -/
def Finished.ban? (f : Finished) (b : Broker) : Option Ban :=
  if f.result.failure.isSome then b.tasks[f.task]?.bind (·.ban? f.scope) else none

/-- The ban of an action. -/
def Action.ban? (b : Broker) (ch : Choices) : Action → Option Ban
  | .request (.allowed q) | .request (.stillAllowed q) =>
    if q.directive.exclude then some q.request.ban else none
  | .request (.link q) =>
    if b.methods[q.request.method]?.all (·.linkNative.1) then none
    else some (.tier q.request.method false q.request.tier)
  | .request (.exclude q _) => some q.request.ban
  | .worker _ (.rule f) => f.ban? b
  | .worker _ (.compile _) =>
    match ch.move with
    | some (.operate o) => o.ban?
    | _ => none
  | _ => none

/-- What is ruled out for the methods of the first broker is ruled out in the second one, and so is
what the bans cover, and nothing else. -/
def Broker.Banned (b : Broker) (bans : List Ban) (b' : Broker) : Prop :=
  ∀ ⦃m : MethodId⦄ ⦃x : Method⦄, b.methods[m]? = some x → ∃ x', b'.methods[m]? = some x' ∧
    ∀ osr tier, x'.isProhibited osr tier = (x.isProhibited osr tier || bans.any (·.covers m osr tier))

namespace Method

variable (m : Method)

/-- A mark is set for its own tier and kind of entry, and no other. -/
theorem prohibit_isProhibited (osr : Bool) (tier : Tier) (osr' : Bool) (tier' : Tier) :
    (m.prohibit osr tier).isProhibited osr' tier' = (m.isProhibited osr' tier' ||
      (osr' == osr && tier' == tier && decide (tier' < tierLimit))) := by
  have hmark (s : TierSet) : (s.mark tier).has tier' =
      (s.has tier' || (tier' == tier && decide (tier' < tierLimit))) := by
    rw [TierSet.has_mark, Bool.beq_comm, beq_eq_decide]
  cases osr <;> cases osr' <;> simp [prohibit, isProhibited, hmark]

/-- All marks of tiers that have a bit are set. -/
theorem prohibitAll_isProhibited (osr : Bool) (tier : Tier) :
    m.prohibitAll.isProhibited osr tier = (m.isProhibited osr tier || decide (tier < tierLimit)) := by
  have hlt (s : TierSet) (h : s.has tier = true) : tier < tierLimit := by
    rw [TierSet.has_eq_getLsbD] at h
    exact UInt8.lt_iff_toNat_lt.2 (BitVec.lt_of_getLsbD h)
  cases osr <;> simp only [prohibitAll, isProhibited, TierSet.has_all, if_true,
    Bool.false_eq_true, if_false]
  all_goals
    rw [Bool.eq_iff_iff, Bool.or_eq_true, decide_eq_true_iff]
    exact ⟨.inr, fun h => h.elim (hlt _) id⟩

theorem isProhibited_linkNative (osr : Bool) (tier : Tier) :
    m.linkNative.2.isProhibited osr tier = m.isProhibited osr tier := by
  unfold linkNative
  split <;> rfl

theorem isProhibited_install (c : InstalledCode) (osr : Bool) (tier : Tier) :
    (m.install c).isProhibited osr tier = m.isProhibited osr tier := by
  unfold install
  split <;> rfl

theorem isProhibited_detach (bci : Int) (t : Tier) (osr : Bool) (tier : Tier) :
    (m.detach bci t).2.isProhibited osr tier = m.isProhibited osr tier := by
  unfold detach
  repeat' split
  all_goals rfl

end Method

namespace Broker.Banned

variable {b b' b'' : Broker} {bans bans' : List Ban} {k : MethodId}

theorem of_methods (h : b'.methods = b.methods) : b.Banned [] b' := by
  intro m x hx
  exact ⟨x, h ▸ hx, fun osr tier => by simp⟩

theorem refl (b : Broker) : b.Banned [] b := .of_methods rfl

/-- Other methods than the one that bans are about have the marks that they had. -/
theorem any_covers_of_ne (h : ∀ ban ∈ bans, ban.method = k) {m : MethodId} (hm : m ≠ k) (osr : Bool)
    (tier : Tier) : bans.any (·.covers m osr tier) = false :=
  List.any_eq_false.2 fun ban hban => by
    rw [Ban.covers_of_ne (h ban hban ▸ hm)]
    exact Bool.false_ne_true

/-- There is nothing to rule out for a method that is not known. -/
theorem of_unknown (hk : b.methods[k]? = none) (h : ∀ ban ∈ bans, ban.method = k) :
    b.Banned bans b := by
  intro m x hx
  refine ⟨x, hx, fun osr tier => ?_⟩
  have hm : m ≠ k := by
    rintro rfl
    cases hk.symm.trans hx
  rw [any_covers_of_ne h hm, Bool.or_false]

/-- One method is marked. -/
theorem of_mark {f : Method → Method} (hb' : b'.methods = b.methods.modify k f)
    (hf : ∀ (x : Method) osr tier, (f x).isProhibited osr tier =
      (x.isProhibited osr tier || bans.any (·.covers k osr tier)))
    (h : ∀ ban ∈ bans, ban.method = k) : b.Banned bans b' := by
  intro m x hx
  rw [hb']
  by_cases hm : k = m
  · subst hm
    exact ⟨f x, Table.getElem?_modify_self hx f, hf x⟩
  · refine ⟨x, (Table.getElem?_modify_of_ne hm f).trans hx, fun osr tier => ?_⟩
    rw [any_covers_of_ne h (Ne.symm hm), Bool.or_false]

/-- A method is changed but for its marks. -/
theorem of_modify {f : Method → Method} (h : b'.methods = b.methods.modify k f)
    (hf : ∀ (x : Method) osr tier, (f x).isProhibited osr tier = x.isProhibited osr tier) :
    b.Banned [] b' :=
  of_mark h (fun x osr tier => by simp [hf]) nofun

/-- One tier is ruled out. -/
theorem of_prohibit {osr : Bool} {tier : Tier}
    (h : b'.methods = b.methods.modify k (·.prohibit osr tier)) : b.Banned [.tier k osr tier] b' := by
  refine of_mark h (fun x osr' tier' => ?_) (by simp [Ban.method])
  simp [x.prohibit_isProhibited, Ban.covers]

/-- All tiers are ruled out. -/
theorem of_prohibitAll (h : b'.methods = b.methods.modify k Method.prohibitAll) :
    b.Banned [.all k] b' := by
  refine of_mark h (fun x osr' tier' => ?_) (by simp [Ban.method])
  simp [x.prohibitAll_isProhibited, Ban.covers]

/-- A method becomes known. -/
theorem of_add {x : Method} (h : b'.methods = b.methods.add x) : b.Banned [] b' := by
  intro m y hy
  refine ⟨y, ?_, fun osr tier => by simp⟩
  rw [h, Table.getElem?_add, if_neg (Table.lt_size_of_getElem? hy).ne]
  exact hy

theorem of_some {turn turn' : Turn} (h : some turn' = some turn)
    (hb : b.Banned bans turn'.broker) : b.Banned bans turn.broker := by
  obtain rfl := Option.some.inj h
  exact hb

/-- Bans add up. -/
theorem trans (h : b.Banned bans b') (h' : b'.Banned bans' b'') : b.Banned (bans ++ bans') b'' := by
  intro m x hx
  obtain ⟨x', hx', hbans⟩ := h hx
  obtain ⟨x'', hx'', hbans'⟩ := h' hx'
  refine ⟨x'', hx'', fun osr tier => ?_⟩
  rw [hbans', hbans, List.any_append, Bool.or_assoc]

end Broker.Banned

/-! ### Every action -/

variable {me : Caller} {ch : Choices} {b b' : Broker} {turn : Turn}

theorem Broker.operate_banned (b : Broker) (o : Operation) :
    b.Banned o.ban?.toList (b.operate o) := by
  cases o with
  | addMethod m => exact .of_add rfl
  | redefine m | breakpoints m present => exact .of_modify rfl fun x _ _ => rfl
  | prohibit m osr tier => exact .of_prohibit rfl
  | prohibitAll m => exact .of_prohibitAll rfl
  | link m => exact .of_modify rfl Method.isProhibited_linkNative
  | close m region => exact .of_modify rfl fun x _ _ => rfl
  | pushDirectives sets =>
    rw [operate]
    split <;> exact .refl b
  | unpause =>
    rw [operate]
    split <;> exact .refl b
  | _ => exact .refl b

/-- A finished compile rules out what its failure says. -/
theorem Broker.banned_afterFailure {task : Task} (scope : Option FailureScope)
    (h : b'.methods = b.methods.modify task.method
      (·.afterFailure task.isOsr task.tier scope)) : b.Banned (task.ban? scope).toList b' := by
  rcases scope with - | (- | - | -)
  · exact .of_modify h fun x _ _ => rfl
  · exact .of_modify h fun x _ _ => rfl
  · exact .of_prohibit h
  · exact .of_prohibitAll h

namespace RequestStep

variable {s : RequestStep} {q : Inquiry} {t : TaskId} {x : Task}

theorem leave_banned {gaveUp : Bool} (h : leave b' q t x gaveUp = some turn)
    (hb : b'.methods = b.methods) : b.Banned [] turn.broker := by
  unfold leave at h
  split at h <;> exact .of_some h (.of_methods hb)

theorem wakeUp_banned {watch : Option Watch} (h : wakeUp b ch q t x watch = some turn) :
    b.Banned [] turn.broker := by
  unfold wakeUp at h
  repeat' split at h
  all_goals first
    | exact leave_banned h rfl
    | exact .of_some h (.refl b)

/-- What holds against a request is that it is excluded only if its directive excludes it. -/
theorem objection_eq_excluded_iff {m : Method} {r : Request} {d : Directive} :
    m.objection? r d = some .excluded ↔ d.exclude = true := by
  unfold Method.objection?
  repeat' split
  all_goals simp_all

theorem exclude_of_objection {m : Method} {r : Request} {d : Directive} {o : Option Prohibition}
    (h : m.objection? r d = o) (ho : o ≠ some .excluded) : ¬ d.exclude = true := fun hd =>
  ho (h.symm.trans (objection_eq_excluded_iff.2 hd))

/-- A request rules out what it is excluded from, or cannot be linked for, or has no number for. -/
theorem banned (h : s.run me ch b = some turn) :
    b.Banned ((Action.request s).ban? b ch).toList turn.broker := by
  cases s with
  | allowed q =>
    rw [run] at h
    rw [Action.ban?]
    split at h
    · exact .of_some h (.of_unknown ‹_› (by split <;> simp [Request.ban, Ban.method]))
    · split at h
      · rw [if_pos (objection_eq_excluded_iff.1 ‹_›)]
        exact .of_some h (.of_prohibit rfl)
      · rw [if_neg (exclude_of_objection ‹_› (by simpa using ‹_›))]
        exact .of_some h (.refl b)
      · rw [if_neg (exclude_of_objection ‹_› (by simp))]
        exact .of_some h (.refl b)
  | stillAllowed q =>
    rw [run] at h
    rw [Action.ban?]
    split at h
    · exact .of_some h (.of_unknown ‹_› (by split <;> simp [Request.ban, Ban.method]))
    · split at h
      · rw [if_pos (objection_eq_excluded_iff.1 ‹_›)]
        exact .of_some h (.of_prohibit rfl)
      · rw [if_neg (exclude_of_objection ‹_› (by simpa using ‹_›))]
        exact .of_some h (.of_methods rfl)
      · rw [if_neg (exclude_of_objection ‹_› (by simp))]
        exact .of_some h (.refl b)
  | link q =>
    rw [run] at h
    rw [Action.ban?]
    split at h
    · rename_i hm
      rw [hm]
      exact .of_some h (.refl b)
    · rename_i m hm
      rw [hm]
      split at h
      · rw [if_pos (by simpa using ‹_›)]
        exact .of_some h (.of_modify rfl Method.isProhibited_linkNative)
      · rw [if_neg (by simpa using eq_false_of_ne_true ‹_›)]
        exact .of_some h (.of_prohibit rfl)
  | exclude q id => exact .of_some h (.of_prohibit rfl)
  | attend q t =>
    rw [run] at h
    split at h
    · dsimp only at h
      split at h
      · exact leave_banned h rfl
      · exact .of_some h (.of_methods rfl)
    · exact .of_some h (.refl b)
  | asleep q t bell watch =>
    rw [run] at h
    repeat' split at h
    · exact .of_some h (.refl b)
    · exact wakeUp_banned h
    · cases h
  | _ =>
    rw [run] at h
    (try simp only at h)
    repeat' split at h
    all_goals first
      | exact .of_some h (.of_methods rfl)
      | exact .of_some h (.of_modify rfl fun x _ _ => rfl)
      | cases h

end RequestStep

theorem TaskStep.banned {s : TaskStep} (h : s.run b = some turn) : b.Banned [] turn.broker := by
  cases s <;> rw [run] at h <;> (try simp only at h) <;> repeat' split at h
  all_goals first
    | exact .of_some h (.of_methods rfl)
    | exact .of_some h (.of_modify rfl fun x _ _ => rfl)

theorem GateStep.banned {s : GateStep} (h : s.run b = some turn) : b.Banned [] turn.broker := by
  cases s <;> rw [run] at h <;> repeat' split at h
  all_goals first
    | exact .of_some h (.of_methods rfl)
    | cases h

theorem CrewStep.banned {s : CrewStep} (h : s.run me ch b = some turn) :
    b.Banned [] turn.broker := by
  rcases s with u | ⟨u, n⟩ | ⟨u, n, k⟩ | ⟨u, n⟩ | ⟨u, n⟩ | (_ | ⟨u, us⟩) | ⟨u, _ | n, us⟩ | _ <;>
    rw [run] at h <;> (try simp only at h) <;> repeat' split at h
  all_goals first
    | exact .of_some h (.of_methods rfl)
    | cases h

/-- What controls the broker rules out nothing. -/
theorem ControlStep.banned {s : ControlStep} (h : s.run me b = some turn) :
    b.Banned [] turn.broker := by
  cases s with
  | detach d =>
    have hd : b.Banned [] (b.detach d).2 := by
      unfold Broker.detach
      split
      · exact .of_modify rfl fun x => x.isProhibited_detach d.bci d.tier
      · exact .refl b
    rw [run] at h
    split at h <;> rename_i heq <;> rw [heq] at hd <;> exact .of_some h hd
  | drain u =>
    rw [run] at h
    repeat' split at h
    all_goals first
      | exact .of_some h (.of_methods (Broker.drain_methods ‹_›))
      | exact .of_some h (.refl b)
      | cases h
  | accept on =>
    refine .of_some h ?_
    simp only [Broker.accept, Broker.moveJobs]
    repeat' split
    all_goals exact .of_methods rfl
  | again ds summary =>
    cases ds <;> rw [run] at h <;> repeat' split at h
    all_goals exact .of_some h (.refl b)
  | _ =>
    rw [run] at h
    repeat' split at h
    all_goals first
      | exact .of_some h (.of_methods rfl)
      | cases h

namespace WorkerStep

variable {w : WorkerId} {worker : Worker} {unit : TierUnit} {s : WorkerStep} {c : CompileRun}
  {task : Task} {move : BackendMove}

/-- A back-end rules out what it does from inside. -/
theorem obey_banned (hmove : ch.move = some move) (h : obey b w c task unit move = some turn) :
    b.Banned ((Action.worker w (.compile c)).ban? b ch).toList turn.broker := by
  rw [Action.ban?, hmove]
  cases move with
  | operate o => exact .of_some h (b.operate_banned o)
  | _ =>
    rw [obey] at h
    repeat' split at h
    all_goals exact .of_some h (.of_methods rfl)

/-- A worker rules out what the failure of its compile says. -/
theorem banned (hknown : ∀ t ∈ s.phase.task?, t < b.tasks.size)
    (h : s.run me ch b w worker unit = some turn) :
    b.Banned ((Action.worker w s).ban? b ch).toList turn.broker := by
  cases s with
  | compile c =>
    obtain ⟨task, ht⟩ := Table.exists_getElem? (hknown c.task rfl)
    rw [run, ht] at h
    cases hmove : ch.move with
    | none => simp [hmove] at h
    | some move =>
      simp only [hmove] at h
      exact obey_banned hmove h
  | choose =>
    rw [run] at h
    repeat' split at h
    all_goals first
      | exact .of_some h (.of_methods rfl)
      | (have hb := Broker.select_methods ‹_›
         exact .of_some h (.of_methods hb))
  | attach c code =>
    rw [run] at h
    split at h
    · exact .of_some h (.refl b)
    · exact .of_some h (.of_modify rfl fun x => x.isProhibited_install code)
  | rule f =>
    obtain ⟨task, ht⟩ := Table.exists_getElem? (hknown f.task rfl)
    rw [run, ht] at h
    rw [Action.ban?, Finished.ban?, ht, Option.bind_some]
    simp only at h
    split at h
    · refine .of_some h (.of_unknown ‹_› fun ban hban => task.method_of_ban f.scope ?_)
      split at hban
      · exact Option.mem_toList.1 hban
      · cases hban
    · split at h
      · rw [if_pos ‹_›]
        exact .of_some h (Broker.banned_afterFailure f.scope rfl)
      · rw [if_neg ‹_›]
        exact .of_some h (.of_methods rfl)
  | begin c | close f =>
    rw [run] at h
    repeat' split at h
    all_goals exact .of_some h (.of_methods rfl)
  | _ =>
    rw [run] at h
    repeat' split at h
    all_goals first
      | exact .of_some h (.of_methods rfl)
      | exact .of_some h (.of_modify rfl fun x _ _ => rfl)
      | cases h

end WorkerStep

/-- Whatever a thread does, it rules out what its ban covers. -/
theorem Action.run_banned {a : Action} (hsound : b.ledger.Sound)
    (hready : ∀ d ∈ a.duty?, Duty.Ready b.ledger d) (h : a.run me ch b = some turn) :
    b.Banned (a.ban? b ch).toList turn.broker := by
  cases a with
  | request s => exact RequestStep.banned h
  | task s => exact TaskStep.banned h
  | control s => exact ControlStep.banned h
  | gate s => exact GateStep.banned h
  | worker w s =>
    have hready := hready _ rfl
    obtain ⟨worker, unit, -, -, h⟩ := worker_run hsound hready.1 h
    exact WorkerStep.banned hready.2 h
  | crew s => exact CrewStep.banned h
  | answer r => exact .of_some h (.refl b)
  | fault => cases h

/-! ### Every run -/

namespace System

variable {s : System}

/-- The ban of a move. -/
def ban? (s : System) : Move → Option Ban
  | .operate o => o.ban?
  | .call _ _ => none
  | .step i ch => (s.ran (.step i ch)).bind (·.ban? s.broker ch)

/-- A move rules out what its ban covers. -/
theorem Lawful.banned_move (hs : s.Lawful) (m : Move) :
    s.broker.Banned (s.ban? m).toList (s.move m).broker := by
  cases m with
  | operate o => exact s.broker.operate_banned o
  | call c n => exact .refl _
  | step i ch =>
    cases hran : s.ran (.step i ch) with
    | none =>
      rw [move_step_of_ran hran, ban?, hran]
      exact .refl _
    | some a =>
      obtain ⟨i', ch', th, rest, turn, h⟩ := exists_runs hran
      obtain ⟨rfl, rfl⟩ := Move.step.inj h.move
      rw [h.turned, broker_turned, ban?, hran]
      exact Action.run_banned hs.sound
        (fun d hd => hs.ready d (mem_duties.2 ⟨a, h.mem_pending, hd⟩)) h.run

/-- After a run, what is ruled out is what was before, and what the bans in it cover. -/
theorem Lawful.banned_foldl (hs : s.Lawful) (ms : List Move) :
    s.broker.Banned (s.gather ban? ms) (ms.foldl System.move s).broker := by
  induction ms generalizing s with
  | nil => exact .refl _
  | cons m ms ih => exact (hs.banned_move m).trans (ih (hs.move m))

end System

/-- Whether a compile of a method is ruled out. -/
def Broker.isProhibited (b : Broker) (m : MethodId) (osr : Bool) (tier : Tier) : Bool :=
  b.methods[m]?.any (·.isProhibited osr tier)

/-- What is ruled out stays so. -/
theorem Broker.Banned.isProhibited {bans : List Ban} (h : b.Banned bans b') {m : MethodId}
    {osr : Bool} {tier : Tier} (hm : b.isProhibited m osr tier = true) :
    b'.isProhibited m osr tier = true := by
  rw [Broker.isProhibited, Option.any_eq_true] at hm
  obtain ⟨x, hx, hmark⟩ := hm
  obtain ⟨x', hx', hbans⟩ := h hx
  rw [Broker.isProhibited, hx', Option.any_some, hbans, hmark, Bool.true_or]

/-- What a ban covers is ruled out. -/
theorem Broker.Banned.isProhibited_of_covers (h : b.Banned bans b') {m : MethodId} {x : Method}
    (hx : b.methods[m]? = some x) {ban : Ban} (hban : ban ∈ bans) {osr : Bool} {tier : Tier}
    (hcovers : ban.covers m osr tier = true) : b'.isProhibited m osr tier = true := by
  obtain ⟨x', hx', hbans⟩ := h hx
  have hany : bans.any (·.covers m osr tier) = true := List.any_eq_true.2 ⟨ban, hban, hcovers⟩
  rw [Broker.isProhibited, hx', Option.any_some, hbans, hany, Bool.or_true]

end JitBroker
