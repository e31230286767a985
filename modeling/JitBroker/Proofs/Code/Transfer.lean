import JitBroker.Proofs.Protocol

/-!
# How code moves

A region of the code cache is allocated by a compile, attached to a method as the place of a code,
detached from it again, and given back. After the first step and after the third one, a thread has
the region in hand (`Cargo`).

Few steps have to do with regions at all. Each of them is a `Transfer`: it takes the cache and the
regions attached to each method to others, uses up what its thread had in hand, and brings what its
thread has in hand afterwards. To attach code to a method may push other code out of its place: the
slot for standard code holds one code only (`Broker.replaced`).
-/

namespace JitBroker

/-- What a thread may have in hand. -/
inductive Cargo where
  /-- The region of code that is to be attached. -/
  | attach (r : Region)
  /-- The number of a region that is to be given back. -/
  | release (id : Nat)

/-- What a pending action has in hand. -/
def Action.cargo? : Action → Option Cargo
  | .worker _ (.attach _ code) => some (.attach code.region)
  | .control (.release _ id) => some (.release id)
  | _ => none

/-- What a list of actions has in hand. -/
def cargo (as : List Action) : List Cargo := as.filterMap Action.cargo?

@[simp] theorem cargo_nil : cargo [] = [] := rfl

@[simp] theorem cargo_append (as bs : List Action) : cargo (as ++ bs) = cargo as ++ cargo bs :=
  List.filterMap_append

theorem cargo_eq_nil {as : List Action} (h : ∀ a ∈ as, a.cargo? = none) : cargo as = [] :=
  List.filterMap_eq_nil_iff.2 h

theorem cargo_control {ss : List ControlStep} (h : ∀ s ∈ ss, ∀ d id, s ≠ .release d id) :
    cargo (ss.map .control) = [] := by
  refine cargo_eq_nil fun a ha => ?_
  obtain ⟨s, hs, rfl⟩ := List.mem_map.1 ha
  cases s with
  | release d id => exact absurd rfl (h _ hs d id)
  | _ => rfl

@[simp] theorem cargo_stale (ts : List TaskId) : cargo (ts.flatMap Action.stale) = [] := by
  refine cargo_eq_nil fun a ha => ?_
  obtain ⟨t, -, ha⟩ := List.mem_flatMap.1 ha
  obtain ⟨s, -, rfl⟩ := List.mem_map.1 ha
  rfl

@[simp] theorem cargo_call (c : Call) : cargo c.agenda = [] := by
  cases c <;> rfl

/-! ### Regions of methods -/

/-- The regions of the codes attached to a method. -/
def Method.regions (m : Method) : List Region := m.codes.map (·.region)

namespace Method

@[simp] theorem regions_fresh (m : Method) : m.fresh.regions = [] := rfl

@[simp] theorem regions_prohibit (m : Method) (osr : Bool) (tier : Tier) :
    (m.prohibit osr tier).regions = m.regions := by
  unfold prohibit
  split <;> rfl

@[simp] theorem regions_linkNative (m : Method) : m.linkNative.2.regions = m.regions := by
  unfold linkNative
  split <;> rfl

@[simp] theorem regions_afterFailure (m : Method) (osr : Bool) (tier : Tier)
    (scope : Option FailureScope) : (m.afterFailure osr tier scope).regions = m.regions := by
  unfold afterFailure
  split
  · exact m.regions_prohibit osr tier
  · rfl
  · rfl

/-- Closing code leaves it where it is. -/
@[simp] theorem regions_closeCode (m : Method) (region : Nat) :
    (m.closeCode region).regions = m.regions := by
  have hclose (c : InstalledCode) :
      (if c.region.id = region then c.close else c).region = c.region := by
    split <;> rfl
  have hcode : (m.code.map fun c => if c.region.id = region then c.close else c).toList.map
      (·.region) = m.code.toList.map (·.region) := by
    cases m.code with
    | none => rfl
    | some c => exact congrArg (fun r => [r]) (hclose c)
  simp only [regions, codes, closeCode, List.map_append, List.map_map, hcode]
  exact congrArg _ (List.map_congr_left fun c _ => hclose c)

/-- Attaching code adds its region, in the place of that of the code it replaces. -/
theorem regions_install (m : Method) (c : InstalledCode) :
    ((m.install c).regions ++ (if c.isOsr then [] else m.code.toList.map (·.region))).Perm
      (c.region :: m.regions) := by
  unfold install
  split
  · simp only [regions, codes, List.map_append, List.append_nil, ← List.append_assoc]
    exact List.perm_append_comm
  · simp only [regions, codes, List.map_append, Option.toList_some, List.map_cons, List.map_nil,
      List.cons_append]
    exact List.perm_append_comm.cons _

/-- Detaching code takes its region away. -/
theorem regions_detach {m m' : Method} {bci : Int} {tier : Tier} {c : InstalledCode}
    (h : m.detach bci tier = (some c, m')) : m.regions.Perm (c.region :: m'.regions) := by
  unfold detach at h
  split at h
  · split at h
    · rename_i code hcode
      split at h
      · cases h
        simp [hcode, regions, codes, InstalledCode.close]
      · cases h
    · cases h
  · split at h
    · rename_i code hfind
      cases h
      obtain ⟨hp, l, r, heq, hl⟩ := List.find?_eq_some_iff_append.1 hfind
      have hl (c : InstalledCode) (hc : c ∈ l) : ¬(c.entryBci == bci && c.tier == tier) = true :=
        (Bool.not_eq_true _).mpr ((Bool.not_eq_true' _).mp (hl c hc))
      have herase : m.osrCodes.eraseP (fun c => c.entryBci == bci && c.tier == tier) = l ++ r := by
        rw [heq, List.eraseP_append_right _ hl]
        exact congrArg (l ++ ·) (List.eraseP_cons_of_pos (p := fun c => _ && _) hp)
      simp only [regions, codes, InstalledCode.close, herase]
      simp only [heq, List.map_append, List.map_cons, ← List.append_assoc]
      exact List.perm_middle
    · cases h

theorem detach_none {m m' : Method} {bci : Int} {tier : Tier}
    (h : m.detach bci tier = (none, m')) : m' = m := by
  unfold detach at h
  split at h <;> split at h <;> try split at h
  all_goals cases h
  all_goals rfl

end Method

namespace Broker

/-- The regions attached to each method. -/
def attached (b : Broker) : Table (List Region) := b.methods.map Method.regions

theorem attached_modifyMethod (b : Broker) {f : Method → Method}
    (h : ∀ x, (f x).regions = x.regions) (m : MethodId) :
    (b.modifyMethod m f).attached = b.attached :=
  Table.map_modify_of_eq h b.methods m

theorem attached_modifyMethod_of_some {b : Broker} {k : MethodId} {m : Method}
    (hm : b.methods[k]? = some m) (f : Method → Method) :
    (b.modifyMethod k f).attached = b.attached.modify k fun _ => (f m).regions :=
  Table.map_modify_const hm f

theorem getElem?_attached {b : Broker} {k : MethodId} {m : Method} (hm : b.methods[k]? = some m) :
    b.attached[k]? = some m.regions := by
  rw [attached, Table.getElem?_map, hm]
  rfl

/-- Draining a queue leaves code alone. -/
theorem drain_keeps {b b' : Broker} {u : UnitId} {q : CompileQueue} {ts : List TaskId}
    (h : b.drain? u q = some (ts, b')) : b'.cache = b.cache ∧ b'.attached = b.attached := by
  simp only [drain?, Option.bind_eq_bind, Option.bind_eq_some_iff, Option.pure_def,
    Option.some.injEq, Prod.mk.injEq] at h
  obtain ⟨⟨ts, q'⟩, -, rfl, rfl⟩ := h
  have heq := (Withdrawn.foldl (f := fun b t =>
      b.modifyTask t fun x => { x with stale := true, slot := none })
    (fun b t => ⟨rfl, .ofStale b.tasks t (·.unloaded)⟩) ts (b.modifyQueue u fun _ => q'.ring)).1
  exact ⟨(congrArg cache heq :), (congrArg attached heq :)⟩

/-- So does choosing a task. -/
theorem select_keeps {b b' : Broker} {u : UnitId} {q : CompileQueue} {chosen : Option TaskId}
    {stale : List TaskId} (h : b.select? u q = some (chosen, stale, b')) :
    b'.cache = b.cache ∧ b'.attached = b.attached := by
  simp only [select?, Option.bind_eq_bind, Option.bind_eq_some_iff, Option.pure_def,
    Option.some.injEq, Prod.mk.injEq] at h
  obtain ⟨⟨stale, q₁⟩, -, ⟨ts, q₂⟩, -, -, rfl, rfl⟩ := h
  have hstale := (Withdrawn.foldl setStale_withdrawn stale (b.modifyQueue u fun _ => q₂)).1
  have htake (ts : List TaskId) (b : Broker) :
      (ts.foldl (fun b t => b.modifyTask t fun x => { x with slot := none }) b).cache = b.cache ∧
      (ts.foldl (fun b t => b.modifyTask t fun x => { x with slot := none }) b).attached =
        b.attached := by
    induction ts generalizing b with
    | nil => exact ⟨rfl, rfl⟩
    | cons t ts ih => exact ih _
  obtain ⟨hc, ha⟩ := htake ts (stale.foldl setStale (b.modifyQueue u fun _ => q₂))
  exact ⟨hc.trans (congrArg cache hstale :), ha.trans (congrArg attached hstale :)⟩

/-- The regions of the code that an action pushes out of its place. -/
def replaced (b : Broker) : Action → List Region
  | .worker _ (.attach c code) =>
    if code.isOsr then [] else
      match b.tasks[c.task]? with
      | some task =>
        match b.methods[task.method]? with
        | some m => m.code.toList.map (·.region)
        | none => []
      | none => []
  | _ => []

end Broker

/-! ### Transfers -/

/-- What a step does with regions: the cache and the regions attached to each method before, what
its thread had in hand and has in hand, the regions pushed out of their places, and the cache and
the attached regions after. -/
inductive Transfer (c : CodeCache) (ms : Table (List Region)) :
    Option Cargo → List Cargo → List Region → CodeCache → Table (List Region) → Prop where
  /-- Nothing happens to regions. -/
  | same {c' : CodeCache} (hregions : c'.regions = c.regions) (hnext : c'.nextId = c.nextId) :
    Transfer c ms none [] [] c' ms
  /-- A method becomes known. -/
  | know : Transfer c ms none [] [] c (ms.add [])
  /-- A region is allocated. -/
  | allocate {c' : CodeCache} {r : Region} (hid : r.id = c.nextId)
    (hregions : c'.regions = r :: c.regions) (hnext : c'.nextId = c.nextId + 1) :
    Transfer c ms none [.attach r] [] c' ms
  /-- A region is attached. -/
  | attach {m : MethodId} {r : Region} {rs rs' out : List Region} (hm : ms[m]? = some rs)
    (h : (rs' ++ out).Perm (r :: rs)) :
    Transfer c ms (some (.attach r)) [] out c (ms.modify m fun _ => rs')
  /-- A region is detached. -/
  | detach {m : MethodId} {r : Region} {rs rs' : List Region} (hm : ms[m]? = some rs)
    (h : rs.Perm (r :: rs')) : Transfer c ms none [.release r.id] [] c (ms.modify m fun _ => rs')
  /-- A region is given back. -/
  | release (id : Nat) : Transfer c ms (some (.release id)) [] [] (c.release id).2 ms

/-- A turn that has nothing to do with regions. -/
structure Turn.Keeps (b : Broker) (turn : Turn) : Prop where
  /-- The cache is the same. -/
  cache : turn.broker.cache = b.cache
  /-- The same regions are attached. -/
  attached : turn.broker.attached = b.attached
  /-- Nothing is in hand. -/
  cargo : JitBroker.cargo turn.next = []

namespace Turn.Keeps

variable {b b' : Broker} {turn : Turn} {as : List Action} {r : Reply}

theorem transfer (h : turn.Keeps b) :
    Transfer b.cache b.attached none (JitBroker.cargo turn.next) [] turn.broker.cache
      turn.broker.attached := by
  rw [h.attached, h.cargo, h.cache]
  exact .same rfl rfl

theorem of_some {turn' : Turn} (h : some turn' = some turn) (hk : turn'.Keeps b) : turn.Keeps b := by
  obtain rfl := Option.some.inj h
  exact hk

/-- A step that goes on after a change to a method that leaves its code alone. -/
theorem of_method {f : Method → Method} {m : MethodId} {r : Option Reply} (b' : Broker)
    (h : some { broker := b'.modifyMethod m f, next := as, reply := r } = some turn)
    (hf : ∀ x, (f x).regions = x.regions) (hc : b'.cache = b.cache)
    (ha : b'.attached = b.attached) (has : JitBroker.cargo as = []) : turn.Keeps b := by
  obtain rfl := Option.some.inj h
  exact ⟨hc, (b'.attached_modifyMethod hf m).trans ha, has⟩

end Turn.Keeps

namespace RequestStep

variable {me : Caller} {ch : Choices} {b b' : Broker} {turn : Turn} {s : RequestStep} {q : Inquiry}
  {t : TaskId} {x : Task}

theorem leave_keeps {gaveUp : Bool} (h : leave b' q t x gaveUp = some turn)
    (hc : b'.cache = b.cache) (ha : b'.attached = b.attached) : turn.Keeps b := by
  unfold leave at h
  split at h
  · exact .of_some h ⟨hc, ha, rfl⟩
  · exact .of_some h ⟨hc, ha, rfl⟩

theorem wakeUp_keeps {watch : Option Watch} (h : wakeUp b ch q t x watch = some turn) :
    turn.Keeps b := by
  unfold wakeUp at h
  repeat' split at h
  all_goals first
    | exact leave_keeps h rfl rfl
    | exact .of_some h ⟨rfl, rfl, rfl⟩

/-- Requests have nothing to do with regions. -/
theorem keeps (h : s.run me ch b = some turn) : turn.Keeps b := by
  cases s <;> rw [run] at h <;> (try simp only at h) <;> repeat' split at h
  all_goals first
    | exact .of_some h ⟨rfl, rfl, rfl⟩
    | exact .of_method _ h (by intro x; first | rfl | simp) rfl rfl rfl
    | exact wakeUp_keeps h
    | exact leave_keeps h rfl rfl
    | cases h

end RequestStep

variable {me : Caller} {ch : Choices} {b : Broker} {turn : Turn}

theorem TaskStep.keeps {s : TaskStep} (h : s.run b = some turn) : turn.Keeps b := by
  cases s <;> rw [run] at h <;> (try simp only at h) <;> repeat' split at h
  all_goals first
    | exact .of_some h ⟨rfl, rfl, rfl⟩
    | exact .of_method _ h (fun _ => by rfl) rfl rfl rfl

theorem GateStep.keeps {s : GateStep} (h : s.run b = some turn) : turn.Keeps b := by
  cases s <;> rw [run] at h <;> repeat' split at h
  all_goals first
    | exact .of_some h ⟨rfl, rfl, rfl⟩
    | cases h

theorem CrewStep.keeps {s : CrewStep} (h : s.run me ch b = some turn) : turn.Keeps b := by
  rcases s with u | ⟨u, n⟩ | ⟨u, n, k⟩ | ⟨u, n⟩ | ⟨u, n⟩ | (_ | ⟨u, us⟩) | ⟨u, _ | n, us⟩ | _ <;>
    rw [run] at h <;> (try simp only at h) <;> repeat' split at h
  all_goals first
    | exact .of_some h ⟨rfl, rfl, rfl⟩
    | cases h

namespace Broker

/-- What is done from outside leaves the cache and all attached regions alone. -/
theorem operate_transfer (b : Broker) (o : Operation) :
    Transfer b.cache b.attached none [] [] (b.operate o).cache (b.operate o).attached := by
  cases o with
  | addMethod m =>
    have h : (b.operate (.addMethod m)).attached = b.attached.add [] := Table.map_add _ _ _
    rw [h]
    exact .know
  | redefine m =>
    have h : (b.operate (.redefine m)).attached = b.attached :=
      b.attached_modifyMethod (fun _ => by rfl) m
    exact h ▸ .same rfl rfl
  | breakpoints m present =>
    have h : (b.operate (.breakpoints m present)).attached = b.attached :=
      b.attached_modifyMethod (fun _ => by rfl) m
    exact h ▸ .same rfl rfl
  | link m => exact (b.attached_modifyMethod Method.regions_linkNative m) ▸ .same rfl rfl
  | prohibit m osr tier =>
    exact (b.attached_modifyMethod (fun x => x.regions_prohibit osr tier) m) ▸ .same rfl rfl
  | prohibitAll m =>
    have h : (b.operate (.prohibitAll m)).attached = b.attached :=
      b.attached_modifyMethod (fun _ => by rfl) m
    exact h ▸ .same rfl rfl
  | close m region =>
    exact (b.attached_modifyMethod (fun x => x.regions_closeCode region) m) ▸ .same rfl rfl
  | pushDirectives sets =>
    rw [operate]
    split <;> exact .same rfl rfl
  | unpause =>
    rw [operate]
    split <;> exact .same rfl rfl
  | _ => exact .same rfl rfl

end Broker

namespace ControlStep

variable {s : ControlStep}

theorem detach_transfer {d : Decompilation} (h : run me b (.detach d) = some turn) :
    Transfer b.cache b.attached none (cargo turn.next) [] turn.broker.cache turn.broker.attached := by
  cases hm : b.methods[d.method]? with
  | none =>
    simp only [run, Broker.detach, hm] at h
    obtain rfl := Option.some.inj h
    exact .same rfl rfl
  | some m =>
    simp only [run, Broker.detach, hm] at h
    have hattached := Broker.attached_modifyMethod_of_some hm fun m => (m.detach d.bci d.tier).2
    cases hd : m.detach d.bci d.tier with
    | mk code m' =>
      simp only [hd] at h hattached
      cases code with
      | none =>
        obtain rfl := Option.some.inj h
        rw [Method.detach_none hd, Table.modify_const (Broker.getElem?_attached hm)] at hattached
        simp only [hattached]
        exact .same rfl rfl
      | some code =>
        have hcargo (u : Option UnitId) : cargo ([Action.control (.release d code.region.id),
            Action.control (.record d)] ++ u.toList.map (fun u => Action.control (.restart u))
              ++ [Action.answer (.flag true)]) = [.release code.region.id] := by
          cases u <;> rfl
        obtain rfl := Option.some.inj h
        simp only [hcargo, hattached]
        exact .detach (Broker.getElem?_attached hm) (Method.regions_detach hd)

/-- Only decompiling has to do with regions, among what controls the broker. -/
theorem transfer (h : s.run me b = some turn) :
    Transfer b.cache b.attached (Action.control s).cargo? (cargo turn.next) [] turn.broker.cache
      turn.broker.attached := by
  cases s with
  | detach d => exact detach_transfer h
  | release d id =>
    obtain rfl := Option.some.inj h
    exact .release id
  | again ds summary =>
    refine Turn.Keeps.transfer ?_
    cases ds with
    | nil => exact .of_some h ⟨rfl, rfl, rfl⟩
    | cons d ds =>
      rw [run] at h
      repeat' split at h
      all_goals exact .of_some h ⟨rfl, rfl, rfl⟩
  | drain u =>
    refine Turn.Keeps.transfer ?_
    rw [run] at h
    split at h
    · exact .of_some h ⟨rfl, rfl, rfl⟩
    · split at h
      · split at h
        · rename_i ts b' hdrain
          obtain ⟨hc, ha⟩ := Broker.drain_keeps hdrain
          exact .of_some h ⟨hc, ha, cargo_stale ts⟩
        · exact .of_some h ⟨rfl, rfl, rfl⟩
      · cases h
  | disable =>
    refine Turn.Keeps.transfer ?_
    rw [run] at h
    split at h
    · exact .of_some h ⟨rfl, rfl, rfl⟩
    · exact .of_some h ⟨rfl, rfl, cargo_control (by grind)⟩
  | accept on =>
    refine Turn.Keeps.transfer ?_
    obtain rfl := Option.some.inj h
    unfold Broker.accept Broker.moveJobs
    repeat' split
    all_goals exact ⟨rfl, rfl, rfl⟩
  | _ =>
    refine Turn.Keeps.transfer ?_
    rw [run] at h
    repeat' split at h
    all_goals first
      | exact .of_some h ⟨rfl, rfl, rfl⟩
      | exact .of_some h ⟨rfl, rfl, cargo_control (by grind)⟩
      | exact .of_some h ⟨rfl, rfl, cargo_eq_nil (by simp [Action.cargo?])⟩
      | cases h

end ControlStep

namespace WorkerStep

variable {w : WorkerId} {worker : Worker} {unit : TierUnit} {s : WorkerStep} {c : CompileRun}

/-- What a back-end does: it may allocate a region, and it may do something from outside. -/
theorem obey_transfer {task : Task} {move : BackendMove}
    (h : obey b w c task unit move = some turn) :
    Transfer b.cache b.attached none (cargo turn.next) [] turn.broker.cache
      turn.broker.attached := by
  cases move with
  | install total instructions =>
    rw [obey] at h
    simp only [CodeCache.allocate] at h
    split at h
    · rename_i region cache heq
      obtain rfl := Option.some.inj h
      split at heq
      · cases heq
        exact .allocate rfl rfl rfl
      · cases heq
    · rename_i full cache heq
      obtain rfl := Option.some.inj h
      split at heq
      · cases heq
      · cases heq
        exact .same rfl rfl
  | call call =>
    obtain rfl := Option.some.inj h
    simp only [cargo_append, cargo_call]
    exact .same rfl rfl
  | operate o =>
    obtain rfl := Option.some.inj h
    exact b.operate_transfer o
  | finish =>
    rw [obey] at h
    split at h
    · obtain rfl := Option.some.inj h
      exact .same rfl rfl
    · obtain rfl := Option.some.inj h
      exact .same rfl rfl
  | _ =>
    obtain rfl := Option.some.inj h
    exact .same rfl rfl

/-- Choosing a task has nothing to do with regions. -/
theorem choose_keeps (h : run me ch b w worker unit .choose = some turn) : turn.Keeps b := by
  rw [run] at h
  split at h
  · exact .of_some h ⟨rfl, rfl, rfl⟩
  · split at h
    · exact .of_some h ⟨rfl, rfl, rfl⟩
    · rename_i chosen stale b' hselect
      obtain ⟨hc, ha⟩ := Broker.select_keeps hselect
      split at h
      · split at h
        · exact .of_some h ⟨hc, ha, rfl⟩
        · exact .of_some h ⟨hc, ha, rfl⟩
      · refine .of_some h ⟨hc, ha, ?_⟩
        rw [cargo_append, cargo_stale]
        cases chosen <;> rfl

/-- Workers allocate and attach regions. -/
theorem transfer (hsound : b.ledger.Sound) (hready : Duty.Ready b.ledger (.post w s.phase))
    (h : s.run me ch b w worker unit = some turn) :
    Transfer b.cache b.attached (Action.worker w s).cargo? (cargo turn.next)
      (b.replaced (.worker w s)) turn.broker.cache turn.broker.attached := by
  cases s with
  | compile c =>
    rw [run] at h
    split at h
    · exact (Turn.Keeps.of_some h ⟨rfl, rfl, rfl⟩).transfer
    · cases h
    · exact obey_transfer h
  | attach c code =>
    obtain ⟨task, htask⟩ := Table.exists_getElem? (hready.2 c.task rfl)
    obtain ⟨m, hm⟩ := hsound.exists_method htask
    rw [run, show b.tasks[c.task]? = some task from htask] at h
    obtain rfl := Option.some.inj h
    have hreplaced : b.replaced (.worker w (.attach c code)) =
        if code.isOsr then [] else m.code.toList.map (·.region) := by
      simp only [Broker.replaced, show b.tasks[c.task]? = some task from htask, hm]
    have hattached := Broker.attached_modifyMethod_of_some hm (·.install code)
    simp only [hreplaced, hattached]
    exact .attach (Broker.getElem?_attached hm) (m.regions_install code)
  | choose => exact (choose_keeps h).transfer
  | judge c =>
    refine (Turn.Keeps.of_some h ⟨rfl, rfl, ?_⟩).transfer
    cases c.report.cacheFull <;> rfl
  | settle =>
    refine (Turn.Keeps.of_some h ⟨rfl, rfl, ?_⟩).transfer
    split <;> rfl
  | _ =>
    refine Turn.Keeps.transfer ?_
    rw [run] at h
    (try simp only at h)
    repeat' split at h
    all_goals first
      | exact .of_some h ⟨rfl, rfl, rfl⟩
      | exact .of_method _ h (by intro x; first | rfl | simp) rfl rfl rfl
      | cases h

end WorkerStep

/-- Whatever a thread does is a transfer. -/
theorem Action.transfer {a : Action} (hsound : b.ledger.Sound)
    (hready : ∀ d ∈ a.duty?, Duty.Ready b.ledger d) (h : a.run me ch b = some turn) :
    Transfer b.cache b.attached a.cargo? (JitBroker.cargo turn.next) (b.replaced a)
      turn.broker.cache turn.broker.attached := by
  cases a with
  | request s => exact (RequestStep.keeps h).transfer
  | task s => exact (TaskStep.keeps h).transfer
  | control s => exact ControlStep.transfer h
  | gate s => exact (GateStep.keeps h).transfer
  | worker w s =>
    have hready := hready _ rfl
    obtain ⟨worker, unit, -, -, h⟩ := worker_run hsound hready.1 h
    exact WorkerStep.transfer hsound hready h
  | crew s => exact (CrewStep.keeps h).transfer
  | answer r =>
    obtain rfl := Option.some.inj h
    exact .same rfl rfl
  | fault => exact absurd h (by simp [run])

end JitBroker
