import JitBroker.Proofs.Protocol

/-!
# What becomes of the code of a method

Almost every step leaves the code of all methods alone. The others attach a code, detach one, or
close one (`Method.Revision`); that there are no more is `Action.run_revised`, and `System.revised`
for every move. An invariant of methods that these preserve holds in every run.

The first such invariant is where code is kept (`Method.Filed`): standard code in the slot, OSR code
in the list. So to look for code with an entry, it is enough to look in the one place for it.
-/

namespace JitBroker

/-! ### Revisions -/

namespace Method

/-- What a step makes of a method, as far as its code goes. -/
inductive Revision (m : Method) : Method → Prop where
  /-- The code stays. -/
  | same {m' : Method} (hcode : m'.code = m.code) (hosr : m'.osrCodes = m.osrCodes) : Revision m m'
  /-- Code is attached. -/
  | install (c : InstalledCode) : Revision m (m.install c)
  /-- Code is detached. -/
  | detach (bci : Int) (t : Tier) : Revision m (m.detach bci t).2
  /-- Code is closed. -/
  | close (region : Nat) : Revision m (m.closeCode region)

theorem Revision.refl (m : Method) : m.Revision m := .same rfl rfl

theorem revision_prohibit (m : Method) (osr : Bool) (t : Tier) : m.Revision (m.prohibit osr t) := by
  unfold prohibit
  split <;> exact .same rfl rfl

theorem revision_linkNative (m : Method) : m.Revision m.linkNative.2 := by
  unfold linkNative
  split <;> exact .same rfl rfl

theorem revision_afterFailure (m : Method) (osr : Bool) (t : Tier) (scope : Option FailureScope) :
    m.Revision (m.afterFailure osr t scope) := by
  unfold afterFailure
  split
  · exact m.revision_prohibit osr t
  · exact .same rfl rfl
  · exact .same rfl rfl

end Method

/-- Each method of the second broker is a revision of one of the first, or a new one without code. -/
def Broker.Revised (b b' : Broker) : Prop :=
  ∀ ⦃k : MethodId⦄ ⦃m' : Method⦄, b'.methods[k]? = some m' →
    (∃ m, b.methods[k]? = some m ∧ m.Revision m') ∨ m'.codes = []

namespace Broker

variable {b b' : Broker}

theorem Revised.of_methods (h : b'.methods = b.methods) : b.Revised b' := by
  intro k m' hm'
  rw [h] at hm'
  exact .inl ⟨m', hm', .refl m'⟩

theorem Revised.refl (b : Broker) : b.Revised b := .of_methods rfl

/-- One method is revised. -/
theorem Revised.of_modify {k : MethodId} {f : Method → Method}
    (h : b'.methods = b.methods.modify k f) (hf : ∀ x : Method, x.Revision (f x)) : b.Revised b' := by
  intro j m' hm'
  rw [h] at hm'
  obtain ⟨m, hm, ⟨-, rfl⟩ | ⟨-, rfl⟩⟩ := Table.exists_of_modify hm'
  · exact .inl ⟨m', hm, .refl m'⟩
  · exact .inl ⟨m, hm, hf m⟩

/-- A method becomes known. -/
theorem Revised.of_add {x : Method} (h : b'.methods = b.methods.add x) (hx : x.codes = []) :
    b.Revised b' := by
  intro k m' hm'
  rw [h, Table.getElem?_add] at hm'
  split at hm'
  · exact .inr (Option.some.inj hm' ▸ hx)
  · exact .inl ⟨m', hm', .refl m'⟩

theorem Revised.of_some {turn turn' : Turn} (h : some turn' = some turn)
    (hb : b.Revised turn'.broker) : b.Revised turn.broker := by
  obtain rfl := Option.some.inj h
  exact hb

theorem drain_methods {u : UnitId} {q : CompileQueue} {ts : List TaskId}
    (h : b.drain? u q = some (ts, b')) : b'.methods = b.methods := by
  simp only [drain?, Option.bind_eq_bind, Option.bind_eq_some_iff, Option.pure_def,
    Option.some.injEq, Prod.mk.injEq] at h
  obtain ⟨⟨ts, q'⟩, -, rfl, rfl⟩ := h
  have heq := (Withdrawn.foldl (f := fun b t =>
      b.modifyTask t fun x => { x with stale := true, slot := none })
    (fun b t => ⟨rfl, .ofStale b.tasks t (·.unloaded)⟩) ts (b.modifyQueue u fun _ => q'.ring)).1
  exact (congrArg methods heq :)

theorem select_methods {u : UnitId} {q : CompileQueue} {chosen : Option TaskId}
    {stale : List TaskId} (h : b.select? u q = some (chosen, stale, b')) :
    b'.methods = b.methods := by
  simp only [select?, Option.bind_eq_bind, Option.bind_eq_some_iff, Option.pure_def,
    Option.some.injEq, Prod.mk.injEq] at h
  obtain ⟨⟨stale, q₁⟩, -, ⟨ts, q₂⟩, -, -, rfl, rfl⟩ := h
  have hstale := (Withdrawn.foldl setStale_withdrawn stale (b.modifyQueue u fun _ => q₂)).1
  have htake (ts : List TaskId) (b : Broker) :
      (ts.foldl (fun b t => b.modifyTask t fun x => { x with slot := none }) b).methods =
        b.methods := by
    induction ts generalizing b with
    | nil => rfl
    | cons t ts ih => exact ih _
  exact (htake ts _).trans (congrArg methods hstale :)

theorem detach_revised (b : Broker) (d : Decompilation) : b.Revised (b.detach d).2 := by
  unfold detach
  split
  · exact .of_modify rfl fun x => .detach d.bci d.tier
  · exact .refl b

/-- What is done from outside revises methods, or makes one known. -/
theorem operate_revised (b : Broker) (o : Operation) : b.Revised (b.operate o) := by
  cases o with
  | addMethod m => exact .of_add rfl rfl
  | redefine m | breakpoints m present | prohibitAll m =>
    exact .of_modify rfl fun x => .same rfl rfl
  | link m => exact .of_modify rfl Method.revision_linkNative
  | prohibit m osr tier => exact .of_modify rfl fun x => x.revision_prohibit osr tier
  | close m region => exact .of_modify rfl fun x => .close region
  | pushDirectives sets =>
    rw [operate]
    split <;> exact .refl b
  | unpause =>
    rw [operate]
    split <;> exact .refl b
  | _ => exact .refl b

end Broker

variable {me : Caller} {ch : Choices} {b b' : Broker} {turn : Turn}

namespace RequestStep

variable {s : RequestStep} {q : Inquiry} {t : TaskId} {x : Task}

theorem leave_methods {gaveUp : Bool} (h : leave b' q t x gaveUp = some turn)
    (hb : b'.methods = b.methods) : b.Revised turn.broker := by
  unfold leave at h
  split at h <;> exact .of_some h (.of_methods hb)

theorem wakeUp_revised {watch : Option Watch} (h : wakeUp b ch q t x watch = some turn) :
    b.Revised turn.broker := by
  unfold wakeUp at h
  repeat' split at h
  all_goals first
    | exact leave_methods h rfl
    | exact .of_some h (.refl b)

/-- A request revises a method by looking up its native entry, or by a mark. -/
theorem revised (h : s.run me ch b = some turn) : b.Revised turn.broker := by
  cases s <;> rw [run] at h <;> (try simp only at h) <;> repeat' split at h
  all_goals first
    | exact .of_some h (.of_methods rfl)
    | exact .of_some h (.of_modify rfl fun x => .same rfl rfl)
    | exact .of_some h (.of_modify rfl Method.revision_linkNative)
    | exact .of_some h (.of_modify rfl fun x => x.revision_prohibit _ _)
    | exact wakeUp_revised h
    | exact leave_methods h rfl
    | cases h

end RequestStep

theorem TaskStep.revised {s : TaskStep} (h : s.run b = some turn) : b.Revised turn.broker := by
  cases s <;> rw [run] at h <;> (try simp only at h) <;> repeat' split at h
  all_goals first
    | exact .of_some h (.of_methods rfl)
    | exact .of_some h (.of_modify rfl fun x => .same rfl rfl)

theorem GateStep.revised {s : GateStep} (h : s.run b = some turn) : b.Revised turn.broker := by
  cases s <;> rw [run] at h <;> repeat' split at h
  all_goals first
    | exact .of_some h (.of_methods rfl)
    | cases h

theorem CrewStep.revised {s : CrewStep} (h : s.run me ch b = some turn) : b.Revised turn.broker := by
  rcases s with u | ⟨u, n⟩ | ⟨u, n, k⟩ | ⟨u, n⟩ | ⟨u, n⟩ | (_ | ⟨u, us⟩) | ⟨u, _ | n, us⟩ | _ <;>
    rw [run] at h <;> (try simp only at h) <;> repeat' split at h
  all_goals first
    | exact .of_some h (.of_methods rfl)
    | cases h

/-- Only decompiling revises a method, among what controls the broker. -/
theorem ControlStep.revised {s : ControlStep} (h : s.run me b = some turn) :
    b.Revised turn.broker := by
  cases s with
  | detach d =>
    have hd := b.detach_revised d
    rw [run] at h
    split at h <;> rename_i heq <;> rw [heq] at hd <;> exact .of_some h hd
  | drain u =>
    rw [run] at h
    repeat' split at h
    all_goals first
      | exact .of_some h (.of_methods (Broker.drain_methods ‹_›))
      | exact .of_some h (.refl b)
      | cases h
  | accept on =>
    refine .of_some h ?_
    simp only [Broker.accept, Broker.moveJobs]
    repeat' split
    all_goals exact .of_methods rfl
  | again ds summary =>
    cases ds <;> rw [run] at h <;> repeat' split at h
    all_goals exact .of_some h (.refl b)
  | _ =>
    rw [run] at h
    repeat' split at h
    all_goals first
      | exact .of_some h (.of_methods rfl)
      | cases h

namespace WorkerStep

variable {w : WorkerId} {worker : Worker} {unit : TierUnit} {s : WorkerStep} {c : CompileRun}
  {task : Task} {move : BackendMove}

theorem obey_revised (h : obey b w c task unit move = some turn) : b.Revised turn.broker := by
  cases move with
  | operate o => exact .of_some h (b.operate_revised o)
  | _ =>
    rw [obey] at h
    repeat' split at h
    all_goals exact .of_some h (.of_methods rfl)

/-- Workers attach code, mark methods, and give claims back. -/
theorem revised (h : s.run me ch b w worker unit = some turn) : b.Revised turn.broker := by
  cases s with
  | compile c =>
    rw [run] at h
    split at h
    · exact .of_some h (.refl b)
    · cases h
    · exact obey_revised h
  | choose =>
    rw [run] at h
    repeat' split at h
    all_goals first
      | exact .of_some h (.of_methods rfl)
      | (have hb := Broker.select_methods ‹_›
         exact .of_some h (.of_methods hb))
  | attach c code =>
    rw [run] at h
    split at h
    · exact .of_some h (.refl b)
    · exact .of_some h (.of_modify rfl fun x => .install code)
  | begin c | close f =>
    rw [run] at h
    repeat' split at h
    all_goals exact .of_some h (.of_methods rfl)
  | _ =>
    rw [run] at h
    (try simp only at h)
    repeat' split at h
    all_goals first
      | exact .of_some h (.of_methods rfl)
      | exact .of_some h (.of_modify rfl fun x => .same rfl rfl)
      | exact .of_some h (.of_modify rfl fun x => x.revision_afterFailure _ _ _)
      | cases h

end WorkerStep

/-- Whatever a thread does, it revises methods. -/
theorem Action.run_revised {a : Action} (h : a.run me ch b = some turn) : b.Revised turn.broker := by
  cases a with
  | request s => exact RequestStep.revised h
  | task s => exact TaskStep.revised h
  | control s => exact ControlStep.revised h
  | gate s => exact GateStep.revised h
  | worker w s =>
    rw [run] at h
    split at h
    · exact .of_some h (.refl b)
    · split at h
      · exact .of_some h (.refl b)
      · exact WorkerStep.revised h
  | crew s => exact CrewStep.revised h
  | answer r => exact .of_some h (.refl b)
  | fault => cases h

/-! ### Where code is kept -/

namespace Method

/-- Standard code is in the slot, and OSR code in the list. -/
structure Filed (m : Method) : Prop where
  /-- The code in the slot is entered at the start. -/
  code : ∀ c ∈ m.code, c.isOsr = false
  /-- The codes in the list are not. -/
  osrCodes : ∀ c ∈ m.osrCodes, c.isOsr = true

theorem filed_of_codes_eq_nil {m : Method} (h : m.codes = []) : m.Filed := by
  rw [codes, List.append_eq_nil_iff, Option.toList_eq_nil_iff] at h
  constructor
  · simp [h.1]
  · simp [h.2]

/-- A revision keeps code where it belongs. -/
theorem Filed.revision {m m' : Method} (h : m.Filed) (hr : m.Revision m') : m'.Filed := by
  cases hr with
  | same hcode hosr => exact ⟨hcode ▸ h.code, hosr ▸ h.osrCodes⟩
  | install c =>
    unfold install
    split
    case isTrue hc =>
      refine ⟨h.code, fun x hx => ?_⟩
      rcases List.mem_append.1 hx with hx | hx
      · exact h.osrCodes x hx
      · rwa [List.mem_singleton.1 hx]
    case isFalse hc =>
      refine ⟨fun x hx => ?_, h.osrCodes⟩
      obtain rfl := Option.some.inj hx
      exact Bool.not_eq_true _ ▸ hc
  | detach bci t =>
    unfold detach
    repeat' split
    · exact ⟨by simp, h.osrCodes⟩
    · exact h
    · exact h
    · exact ⟨h.code, fun x hx => h.osrCodes x (List.mem_of_mem_eraseP hx)⟩
    · exact h
  | close region =>
    have kind (c : InstalledCode) : (if c.region.id = region then c.close else c).isOsr = c.isOsr := by
      split <;> rfl
    constructor
    · intro x hx
      obtain ⟨c, hc, rfl⟩ := Option.map_eq_some_iff.1 hx
      exact (kind c).trans (h.code c hc)
    · intro x hx
      obtain ⟨c, hc, rfl⟩ := List.mem_map.1 hx
      exact (kind c).trans (h.osrCodes c hc)

end Method

namespace System

variable {s : System}

/-- Every move revises methods. -/
theorem revised (s : System) (m : Move) : s.broker.Revised (s.move m).broker := by
  cases m with
  | call c n => exact .refl _
  | operate o => exact s.broker.operate_revised o
  | step i ch =>
    cases hstep : s.step i ch with
    | none => simpa [System.move, hstep] using Broker.Revised.refl s.broker
    | some s' =>
      obtain ⟨t, a, rest, turn, -, -, hrun, rfl⟩ := step_eq_some_iff.1 hstep
      simpa [System.move, hstep] using Action.run_revised hrun

/-- Each method has its code where it belongs. -/
def Filed (s : System) : Prop := ∀ ⦃k : MethodId⦄ ⦃m : Method⦄, s.broker.methods[k]? = some m → m.Filed

/-- Every move keeps the code of each method where it belongs. -/
theorem Filed.move (h : s.Filed) (mv : Move) : (s.move mv).Filed := by
  intro k m' hm'
  rcases s.revised mv hm' with ⟨m, hm, hr⟩ | hnew
  · exact (h hm).revision hr
  · exact Method.filed_of_codes_eq_nil hnew

theorem Filed.foldl (h : s.Filed) (moves : List Move) : (moves.foldl System.move s).Filed := by
  induction moves generalizing s with
  | nil => exact h
  | cons mv moves ih => exact ih (h.move mv)

/-- At the start there are no methods. -/
theorem filed_launch {b : Broker} {config : Config} {parts : Broker.Parts}
    (h : Broker.assemble config parts = .ok b) : (launch b).Filed := by
  obtain ⟨units, -, rfl⟩ := Broker.exists_of_assemble h
  intro k m hm
  simp [launch] at hm

end System

end JitBroker
