import JitBroker.Proofs.Code.Transfer

/-!
# What a compile leaves behind

Code takes effect as soon as a back-end installs it. Whether the compile has failed is judged from
the reports afterwards: the first failure counts, whatever was installed before or after it. So
these two are independent, and a compile that is reported as failed may have left code behind.

The last run of a compile is followed from its first step to the point where its result is to be
written (`System.verdict_of_run`), while nobody else touches the code cache or the code of the
method (`System.alone`):

* if it is reported as a success, code was installed;
* whatever is reported, the live regions are those from before the run and those of the code that
  was installed in it, and the code installed last is attached to the method;
* so nothing is left behind if and only if no installation succeeded.
-/

namespace JitBroker

/-! ### Steps beside the compile -/

/-- Whether a move of a back-end is a report of its own, and no call of the broker. -/
def BackendMove.own : BackendMove → Bool
  | .call _ | .operate _ => false
  | _ => true

/-- Whether an action has nothing to do with code, nor have those that it brings. -/
def Action.aside : Action → Bool
  | .gate _ | .task _ | .fault => true
  | .control (.full _) | .control .react | .control .countStop | .control .disable
  | .control (.drain _) | .control (.ring _) | .control .rouse | .control (.nudge _) => true
  | _ => false

@[simp] theorem Method.codes_prohibit (m : Method) (osr : Bool) (tier : Tier) :
    (m.prohibit osr tier).codes = m.codes := by
  unfold prohibit
  split <;> rfl

@[simp] theorem Method.codes_afterFailure (m : Method) (osr : Bool) (tier : Tier)
    (scope : Option FailureScope) : (m.afterFailure osr tier scope).codes = m.codes := by
  unfold afterFailure
  split
  · exact m.codes_prohibit osr tier
  · rfl
  · rfl

/-- Code that was just attached is one of those of the method. -/
theorem Method.mem_codes_install (m : Method) (c : InstalledCode) : c ∈ (m.install c).codes := by
  unfold install codes
  split <;> simp

/-- The codes attached to a method. -/
def Broker.codesOf (b : Broker) (m : MethodId) : List InstalledCode :=
  (b.methods[m]?.map Method.codes).getD []

/-- The same regions are live, and the same codes attached. -/
structure Broker.SameCode (b b' : Broker) : Prop where
  /-- The live regions. -/
  regions : b'.cache.regions = b.cache.regions
  /-- The codes of each method. -/
  codes : ∀ m, b'.codesOf m = b.codesOf m

namespace Broker

theorem codesOf_modifyMethod_of_eq (b : Broker) {f : Method → Method}
    (hf : ∀ x, (f x).codes = x.codes) (k m : MethodId) :
    (b.modifyMethod k f).codesOf m = b.codesOf m := by
  rw [codesOf, codesOf, ← Table.getElem?_map, ← Table.getElem?_map, modifyMethod,
    Table.map_modify_of_eq hf]

theorem SameCode.refl (b : Broker) : b.SameCode b := ⟨rfl, fun _ => rfl⟩

/-- Changing a method but for its codes. -/
theorem sameCode_modifyMethod (b : Broker) {f : Method → Method} (hf : ∀ x, (f x).codes = x.codes)
    (m : MethodId) : b.SameCode (b.modifyMethod m f) :=
  ⟨rfl, b.codesOf_modifyMethod_of_eq hf m⟩

theorem drain_sameCode {b b' : Broker} {u : UnitId} {q : CompileQueue} {ts : List TaskId}
    (h : b.drain? u q = some (ts, b')) : b.SameCode b' := by
  simp only [drain?, Option.bind_eq_bind, Option.bind_eq_some_iff, Option.pure_def,
    Option.some.injEq, Prod.mk.injEq] at h
  obtain ⟨⟨ts, q'⟩, -, rfl, rfl⟩ := h
  have heq := (Withdrawn.foldl (f := fun b t =>
      b.modifyTask t fun x => { x with stale := true, slot := none })
    (fun b t => ⟨rfl, .ofStale b.tasks t (·.unloaded)⟩) ts (b.modifyQueue u fun _ => q'.ring)).1
  exact ⟨(congrArg (·.cache.regions) heq :), fun m => (congrArg (codesOf · m) heq :)⟩

end Broker

/-- A turn that has nothing to do with code. -/
structure Turn.Aside (b : Broker) (turn : Turn) : Prop where
  /-- The code is the same. -/
  code : b.SameCode turn.broker
  /-- What follows has nothing to do with it. -/
  next : turn.next.all Action.aside = true

variable {me : Caller} {ch : Choices} {b : Broker} {turn : Turn}

theorem Turn.Aside.of_some {turn' : Turn} (h : some turn' = some turn) (ht : turn'.Aside b) :
    turn.Aside b := by
  obtain rfl := Option.some.inj h
  exact ht

theorem all_aside_map {α : Type} {f : α → Action} (hf : ∀ x, (f x).aside = true) (xs : List α) :
    (xs.map f).all Action.aside = true := by
  simp [hf]

theorem all_aside_stale (ts : List TaskId) : (ts.flatMap Action.stale).all Action.aside = true := by
  rw [List.all_eq_true]
  intro a ha
  obtain ⟨t, -, ha⟩ := List.mem_flatMap.1 ha
  obtain ⟨s, -, rfl⟩ := List.mem_map.1 ha
  rfl

/-- What has nothing to do with code stays so. -/
theorem Action.run_aside {a : Action} (ha : a.aside = true) (h : a.run me ch b = some turn) :
    turn.Aside b := by
  cases a with
  | gate s =>
    cases s <;> rw [run, GateStep.run] at h <;> repeat' split at h
    all_goals first
      | exact .of_some h ⟨⟨rfl, fun _ => rfl⟩, rfl⟩
      | cases h
  | task s =>
    cases s with
    | unmark t =>
      rw [run, TaskStep.run] at h
      split at h
      · exact .of_some h ⟨.refl b, rfl⟩
      · exact .of_some h ⟨b.sameCode_modifyMethod (fun _ => by rfl) _, rfl⟩
    | _ =>
      rw [run, TaskStep.run] at h
      repeat' split at h
      all_goals exact .of_some h ⟨⟨rfl, fun _ => rfl⟩, rfl⟩
  | control s =>
    cases s with
    | full k => exact .of_some h ⟨⟨rfl, fun _ => rfl⟩, rfl⟩
    | react =>
      rw [run, ControlStep.run] at h
      repeat' split at h
      all_goals exact .of_some h ⟨⟨rfl, fun _ => rfl⟩, rfl⟩
    | countStop => exact .of_some h ⟨⟨rfl, fun _ => rfl⟩, rfl⟩
    | disable =>
      rw [run, ControlStep.run] at h
      split at h
      · exact .of_some h ⟨.refl b, rfl⟩
      · refine .of_some h ⟨⟨rfl, fun _ => rfl⟩, ?_⟩
        simp [List.all_eq_true, aside]
    | drain u =>
      rw [run, ControlStep.run] at h
      split at h
      · exact .of_some h ⟨.refl b, rfl⟩
      · split at h
        · split at h
          · rename_i ts b' hdrain
            exact .of_some h ⟨Broker.drain_sameCode hdrain, all_aside_stale ts⟩
          · exact .of_some h ⟨.refl b, rfl⟩
        · cases h
    | ring u =>
      rw [run, ControlStep.run] at h
      repeat' split at h
      all_goals first
        | exact .of_some h ⟨⟨rfl, fun _ => rfl⟩, rfl⟩
        | cases h
    | rouse =>
      rw [run, ControlStep.run] at h
      split at h
      · cases h
      · refine .of_some h ⟨.refl b, ?_⟩
        simp [List.all_eq_true, aside]
    | nudge w =>
      rw [run, ControlStep.run] at h
      split at h
      · exact .of_some h ⟨.refl b, rfl⟩
      · exact .of_some h ⟨.refl b, all_aside_map (fun _ => rfl) _⟩
    | _ => cases ha
  | fault => cases h
  | _ => cases ha

/-! ### The steps of a compile -/

namespace WorkerStep

/-- The code that a step attaches. -/
def code? : WorkerStep → Option InstalledCode
  | .attach _ code => some code
  | _ => none

/-- Whether a step writes the result of a compile. -/
def publishes : WorkerStep → Bool
  | .publish _ => true
  | _ => false

/-- What a step of the last run of a compile knows, when these codes have been attached in it. -/
def Fits (task : Task) (t : TaskId) (done : List InstalledCode) : WorkerStep → Prop
  | .compile c | .judge c =>
    c.task = t ∧ c.installs = true ∧ (c.report.installed.isSome = true → done ≠ [])
  | .attach c code =>
    c.task = t ∧ c.installs = true ∧ code.compileId = task.compileId ∧
      code.entryBci = task.entryBci
  | .rule f | .count f | .announce f | .close f | .drop f | .unmark f | .publish f =>
    f.task = t ∧ (f.result.success = true → done ≠ [])
  | _ => False

/-- What a step of a compile leads to: the next step of it, after steps that have nothing to do with
code. -/
structure Leads (b : Broker) (task : Task) (t : TaskId) (w : WorkerId) (done : List InstalledCode)
    (s s' : WorkerStep) (turn : Turn) : Prop where
  /-- The steps that follow. -/
  next : ∃ pre, turn.next = pre ++ [.worker w s'] ∧ pre.all Action.aside = true
  /-- What the next step knows. -/
  fits : s'.Fits task t (done ++ s.code?.toList)
  /-- The code that the next step is to attach has got its region. -/
  regions : turn.broker.cache.regions = s'.code?.toList.map (·.region) ++ b.cache.regions
  /-- The codes of the method. -/
  codes : ∀ m, b.methods[task.method]? = some m →
    turn.broker.codesOf task.method = (s.code?.toList.foldl Method.install m).codes

variable {task : Task} {t : TaskId} {w : WorkerId} {done : List InstalledCode} {s s' : WorkerStep}
  {worker : Worker} {unit : TierUnit} {x : Task} {m : Method}

/-- A step that attaches nothing and leaves the code alone. -/
theorem Leads.of_sameCode {turn' : Turn} (pre : List Action) (h : some turn' = some turn)
    (hnext : turn'.next = pre ++ [.worker w s']) (hpre : pre.all Action.aside = true)
    (hs : s.code? = none) (hs' : s'.code? = none) (hb : b.SameCode turn'.broker)
    (hfits : s'.Fits task t done) : Leads b task t w done s s' turn := by
  obtain rfl := Option.some.inj h
  refine ⟨⟨pre, hnext, hpre⟩, ?_, ?_, fun m hm => ?_⟩
  · simpa [hs] using hfits
  · simpa [hs'] using hb.regions
  · rw [hb.codes, Broker.codesOf, hm, hs]
    rfl

/-- The verdict is a success only if code was installed. -/
theorem installed_of_success {c : CompileRun} (h : c.finished.result.success = true) :
    c.report.installed.isSome = true := by
  simp only [CompileRun.finished, CompileReport.result, CompileReport.verdict,
    Option.isNone_iff_eq_none] at h
  split at h
  · cases h
  · split at h
    · assumption
    · cases h

/-- A back-end that reports leads on. -/
theorem obey_leads {c : CompileRun} {move : BackendMove} (hx : task.Evolves x)
    (hfits : (compile c).Fits task t done) (hown : move.own = true)
    (h : obey b w c x unit move = some turn) :
    ∃ s', Leads b task t w done (.compile c) s' turn := by
  obtain ⟨hc, hinstalls, hdone⟩ := hfits
  cases move with
  | install total instructions =>
    rw [obey] at h
    rcases ha : b.cache.allocate unit.config.blobKind total with ⟨full | region, cache⟩
    · rw [ha] at h
      refine ⟨.compile { c with report := c.report.full full.kind },
        .of_sameCode [] h rfl rfl rfl rfl ⟨?_, fun _ => rfl⟩ ⟨hc, hinstalls, hdone⟩⟩
      rw [CodeCache.allocate] at ha
      split at ha <;> cases ha
      rfl
    · rw [ha] at h
      obtain rfl := Option.some.inj h
      refine ⟨.attach c (x.code region instructions), ⟨[], rfl, rfl⟩,
        ⟨hc, hinstalls, hx.compileId, hx.entryBci⟩, ?_, fun m hm => ?_⟩
      · rw [CodeCache.allocate] at ha
        split at ha <;> cases ha
        rfl
      · simp [code?, Broker.codesOf, hm]
  | finish =>
    rw [obey, if_pos hinstalls] at h
    exact ⟨.judge c, .of_sameCode [.gate .poll] h rfl rfl rfl rfl (.refl b)
      ⟨hc, hinstalls, hdone⟩⟩
  | checkpoint =>
    exact ⟨.compile c, .of_sameCode [.gate .poll] h rfl rfl rfl rfl (.refl b)
      ⟨hc, hinstalls, hdone⟩⟩
  | call call => cases hown
  | operate o => cases hown
  | _ => exact ⟨.compile _, .of_sameCode [] h rfl rfl rfl rfl (.refl b)
      ⟨hc, hinstalls, hdone⟩⟩

/-- Every step of a compile leads on, until the result is written. -/
theorem run_leads (ht : b.tasks[t]? = some x) (hx : task.Evolves x)
    (hm : b.methods[task.method]? = some m) (hfits : s.Fits task t done)
    (hpub : s.publishes = false) (hown : ∀ move ∈ ch.move, move.own = true)
    (h : s.run me ch b w worker unit = some turn) :
    ∃ s', Leads b task t w done s s' turn := by
  have hm : b.methods[x.method]? = some m := hx.method ▸ hm
  cases s with
  | compile c =>
    obtain ⟨rfl, -⟩ := id hfits
    rw [run, ht] at h
    cases hmove : ch.move with
    | none => simp [hmove] at h
    | some move =>
      simp only [hmove] at h
      exact obey_leads hx hfits (hown move hmove) h
  | attach c code =>
    obtain ⟨rfl, hinstalls, hid, hbci⟩ := hfits
    rw [run, ht] at h
    obtain rfl := Option.some.inj h
    refine ⟨.compile { c with report := c.report.install code }, ⟨[], rfl, rfl⟩,
      ⟨rfl, hinstalls, fun _ => by simp [code?]⟩, rfl, fun m' hm' => ?_⟩
    rw [← hx.method] at hm' ⊢
    rw [Broker.codesOf, Broker.modifyMethod, Table.getElem?_modify_self hm']
    rfl
  | judge c =>
    obtain ⟨hc, -, hdone⟩ := hfits
    refine ⟨.rule c.finished, .of_sameCode _ h rfl ?_ rfl rfl (.refl b)
      ⟨hc, fun hs => hdone (installed_of_success hs)⟩⟩
    cases c.report.cacheFull <;> rfl
  | rule f =>
    obtain ⟨rfl, hdone⟩ := hfits
    rw [run, ht] at h
    simp only [hm] at h
    split at h
    · exact ⟨.count _, .of_sameCode [] h rfl rfl rfl rfl
        (b.sameCode_modifyMethod (fun y => y.codes_afterFailure ..) _) ⟨rfl, hdone⟩⟩
    · exact ⟨.count _, .of_sameCode [] h rfl rfl rfl rfl ⟨rfl, fun _ => rfl⟩ ⟨rfl, hdone⟩⟩
  | count f =>
    obtain ⟨rfl, hdone⟩ := id hfits
    rw [run, ht] at h
    simp only [hm] at h
    exact ⟨.announce f, .of_sameCode [] h rfl rfl rfl rfl ⟨rfl, fun _ => rfl⟩ hfits⟩
  | announce f =>
    obtain ⟨rfl, hdone⟩ := id hfits
    rw [run, ht] at h
    exact ⟨.close f, .of_sameCode [] h rfl rfl rfl rfl ⟨rfl, fun _ => rfl⟩ hfits⟩
  | close f =>
    obtain ⟨rfl, hdone⟩ := id hfits
    rw [run, ht] at h
    simp only [hm] at h
    refine ⟨.drop f, .of_sameCode [] h rfl rfl rfl rfl ?_ hfits⟩
    change b.SameCode (if f.logged = true then _ else b)
    split
    · exact ⟨rfl, fun _ => rfl⟩
    · exact .refl b
  | drop f => exact ⟨.unmark f, .of_sameCode [] h rfl rfl rfl rfl ⟨rfl, fun _ => rfl⟩ hfits⟩
  | unmark f =>
    obtain ⟨rfl, hdone⟩ := id hfits
    rw [run, ht] at h
    exact ⟨.publish f, .of_sameCode [] h rfl rfl rfl rfl
      (b.sameCode_modifyMethod (fun _ => by rfl) _) hfits⟩
  | publish f => cases hpub
  | _ => exact hfits.elim

end WorkerStep

/-! ### The last run of a compile -/

/-- The code that an action attaches. -/
def Action.attaches : Action → Option InstalledCode
  | .worker _ s => s.code?
  | _ => none

/-- Whether an action writes the result of a compile. -/
def Action.publishes : Action → Bool
  | .worker _ s => s.publishes
  | _ => false

namespace System

/-- The action that a thread is to run next. -/
def next? (s : System) (i : ThreadId) : Option Action := s.threads[i]?.bind (·.agenda.head?)

/-- The task whose compile a thread is to begin the last run of. -/
def begins (s : System) (i : ThreadId) : Option TaskId :=
  match s.next? i with
  | some (.worker _ (.compile c)) =>
    if c.installs = true ∧ c.report = {} then some c.task else none
  | _ => none

/-- The compile whose result a thread is to write. -/
def ends (s : System) (i : ThreadId) : Option Finished :=
  match s.next? i with
  | some (.worker _ (.publish f)) => some f
  | _ => none

/-- The codes that a thread attaches in a row of moves. -/
def installs (s : System) (i : ThreadId) : List Move → List InstalledCode
  | [] => []
  | .step j ch :: ms =>
    (if j = i then (s.ran (.step j ch)).bind Action.attaches else none).toList
      ++ (s.move (.step j ch)).installs i ms
  | m :: ms => (s.move m).installs i ms

theorem installs_cons (s : System) (i : ThreadId) (mv : Move) (ms : List Move) :
    s.installs i (mv :: ms) = s.installs i [mv] ++ (s.move mv).installs i ms := by
  cases mv <;> simp [installs]

/-- Whether a move leaves a thread to its compile for a method: either it is a step of this thread,
in which the back-end does not call the broker and the result is not written yet, or it touches
neither the live regions nor the codes of the method. -/
def leaves (s : System) (i : ThreadId) (m : MethodId) (mv : Move) : Bool :=
  let untouched := decide ((s.move mv).broker.cache.regions = s.broker.cache.regions ∧
    (s.move mv).broker.codesOf m = s.broker.codesOf m)
  match mv with
  | .step j ch =>
    if j = i then ch.move.all BackendMove.own && !(s.next? i).any Action.publishes else untouched
  | .call _ _ | .operate _ => untouched

/-- Whether a row of moves leaves a thread to its compile for a method. -/
def alone (s : System) (i : ThreadId) (m : MethodId) : List Move → Bool
  | [] => true
  | mv :: ms => s.leaves i m mv && (s.move mv).alone i m ms

/-- How far a thread has come with the last run of a compile that it began in another state, when
it has attached these codes. -/
structure Compiling (s₀ s : System) (i : ThreadId) (task : Task) (t : TaskId)
    (done : List InstalledCode) : Prop where
  /-- The task is the one that it was. -/
  evolves : ∃ x, s.broker.tasks[t]? = some x ∧ task.Evolves x
  /-- The thread is at a step of the compile, beside which it may do other things first. -/
  step : ∃ th pre w x rest, s.threads[i]? = some th ∧ th.agenda = pre ++ .worker w x :: rest ∧
    pre.all Action.aside = true ∧ x.Fits task t done ∧
    s.broker.cache.regions = x.code?.toList.map (·.region) ++ (done.map (·.region)).reverse ++
      s₀.broker.cache.regions
  /-- Before code is attached, the method has the codes that it had. -/
  clean : done = [] → s.broker.codesOf task.method = s₀.broker.codesOf task.method
  /-- After that, the code attached last is one of those that it has. -/
  dirty : ∀ code ∈ done.getLast?, code ∈ s.broker.codesOf task.method ∧
    code.compileId = task.compileId ∧ code.entryBci = task.entryBci

/-- What the last run of a compile leaves behind, in which these codes were attached. -/
structure Verdict (s₀ s : System) (task : Task) (f : Finished) (done : List InstalledCode) :
    Prop where
  /-- A success means that code was installed. -/
  success : f.result.success = true → done ≠ []
  /-- The live regions are those from before and those of the code installed. -/
  regions : s.broker.cache.regions = (done.map (·.region)).reverse ++ s₀.broker.cache.regions
  /-- The code that was installed last is attached, under the number and the entry of the task. -/
  attached : ∀ code ∈ done.getLast?, code ∈ s.broker.codesOf task.method ∧
    code.compileId = task.compileId ∧ code.entryBci = task.entryBci
  /-- No code of the task is attached, and the live regions are as before, if and only if nothing
  was installed, and no code of the task was attached before. -/
  nothing_iff : (s.broker.cache.regions = s₀.broker.cache.regions ∧
      ∀ code ∈ s.broker.codesOf task.method,
        ¬(code.compileId = task.compileId ∧ code.entryBci = task.entryBci)) ↔
    done = [] ∧ ∀ code ∈ s₀.broker.codesOf task.method,
      ¬(code.compileId = task.compileId ∧ code.entryBci = task.entryBci)

namespace Compiling

variable {s₀ s s' : System} {i : ThreadId} {ch : Choices} {task : Task} {t : TaskId}
  {done : List InstalledCode} {f : Finished}

/-- What others do leaves a compile where it is, if they leave the code alone. -/
theorem of_untouched (h : s₀.Compiling s i task t done)
    (htask : ∃ x, s'.broker.tasks[t]? = some x ∧ task.Evolves x)
    (hthread : ∀ th, s.threads[i]? = some th → s'.threads[i]? = some th)
    (hregions : s'.broker.cache.regions = s.broker.cache.regions)
    (hcodes : s'.broker.codesOf task.method = s.broker.codesOf task.method) :
    s₀.Compiling s' i task t done := by
  obtain ⟨-, ⟨th, pre, w, x, rest, hth, ha, hpre, hfits, hregion⟩, hclean, hdirty⟩ := h
  refine ⟨htask, ⟨th, pre, w, x, rest, hthread th hth, ha, hpre, hfits, hregions.trans hregion⟩, ?_, ?_⟩
  · rwa [hcodes]
  · rwa [hcodes]

/-- What the thread does beside the compile leaves the compile where it is. -/
theorem of_aside {th : Thread} {a : Action} {as pre rest : List Action} {w : WorkerId}
    {x : WorkerStep} (h : s₀.Compiling s i task t done)
    (hevolves : ∃ x, turn.broker.tasks[t]? = some x ∧ task.Evolves x)
    (hth : s.threads[i]? = some th) (ha : th.agenda = a :: as)
    (has : as = pre ++ .worker w x :: rest) (hpre : pre.all Action.aside = true)
    (hfits : x.Fits task t done)
    (hregion : s.broker.cache.regions = x.code?.toList.map (·.region) ++
      (done.map (·.region)).reverse ++ s₀.broker.cache.regions)
    (haside : turn.Aside s.broker) : s₀.Compiling (s.turned i turn) i task t done := by
  refine ⟨hevolves, ⟨_, turn.next ++ pre, w, x, rest, threadsAfter_self hth, ?_, ?_, hfits,
    haside.code.regions.trans hregion⟩, fun hd => (haside.code.codes _).trans (h.clean hd), ?_⟩
  · rw [Thread.agenda_after ha, has, List.append_assoc]
  · rw [List.all_append, haside.next, hpre]
    rfl
  · rw [broker_turned, haside.code.codes]
    exact h.dirty

/-- A step of the compile brings it on. -/
theorem of_leads {th : Thread} {rest : List Action} {w : WorkerId} {x x' : WorkerStep} {m : Method}
    (h : s₀.Compiling s i task t done)
    (hevolves : ∃ x, turn.broker.tasks[t]? = some x ∧ task.Evolves x)
    (hth : s.threads[i]? = some th) (ha : th.agenda = .worker w x :: rest)
    (hm : s.broker.methods[task.method]? = some m) (hfits : x.Fits task t done)
    (hregion : s.broker.cache.regions = x.code?.toList.map (·.region) ++
      (done.map (·.region)).reverse ++ s₀.broker.cache.regions)
    (hleads : WorkerStep.Leads s.broker task t w done x x' turn) :
    s₀.Compiling (s.turned i turn) i task t (done ++ x.code?.toList) := by
  obtain ⟨⟨pre, hbrings, hall⟩, hfits', hregions, hcodes⟩ := hleads
  have hcodes := hcodes m hm
  refine ⟨hevolves, ⟨_, pre, w, x', rest, threadsAfter_self hth, ?_, hall, hfits', ?_⟩,
    fun hd => ?_, fun code hcode => ?_⟩
  · rw [Thread.agenda_after ha, hbrings, List.append_assoc]
    rfl
  · rw [broker_turned, hregions, hregion]
    cases x.code? <;> simp
  · obtain ⟨hd, hnone⟩ := List.append_eq_nil_iff.1 hd
    rw [broker_turned, hcodes, hnone, ← h.clean hd, Broker.codesOf, hm]
    rfl
  · rw [broker_turned, hcodes]
    cases hx : x.code? with
    | none =>
      rw [hx, Option.toList_none, List.append_nil] at hcode
      have := h.dirty code hcode
      rwa [Broker.codesOf, hm] at this
    | some code' =>
      rw [hx, Option.toList_some, List.getLast?_append_of_ne_nil _ (by simp),
        List.getLast?_singleton] at hcode
      obtain rfl := Option.some.inj hcode
      cases x with
      | attach c code' =>
        obtain rfl := Option.some.inj hx
        exact ⟨m.mem_codes_install _, hfits.2.2⟩
      | _ => cases hx

/-- A step of the thread itself brings the compile on, or leaves it where it is. -/
theorem step_self (hs : s.Lawful) (h : s₀.Compiling s i task t done)
    (hstep : s.step i ch = some s') (hown : ch.move.all BackendMove.own = true)
    (hpub : (s.next? i).any Action.publishes = false) :
    s₀.Compiling s' i task t
      (done ++ ((s.ran (.step i ch)).bind Action.attaches).toList) := by
  obtain ⟨th', a, as, turn, hth', ha', hrun, rfl, hshift⟩ := hs.shift hstep
  obtain ⟨y, hy, hev⟩ := h.evolves
  obtain ⟨th, pre, w, x, rest, hth, ha, hpre, hfits, hregion⟩ := h.step
  obtain rfl := Option.some.inj (hth.symm.trans hth')
  have hran : s.ran (.step i ch) = some a := by simp [ran, hth, hstep, ha']
  have hevolves : ∃ x, turn.broker.tasks[t]? = some x ∧ task.Evolves x := by
    obtain ⟨x, hx, hevolves⟩ := hshift.event.extends.task hy
    exact ⟨x, hx, hev.trans hevolves⟩
  rw [hran, Option.bind_some]
  cases pre with
  | cons b pre =>
    rw [List.cons_append] at ha
    obtain ⟨rfl, has⟩ := List.cons.inj (ha'.symm.trans ha)
    rw [List.all_cons, Bool.and_eq_true] at hpre
    have hattaches : a.attaches = none := by
      cases a <;> first | rfl | cases hpre.1
    rw [hattaches, Option.toList_none, List.append_nil]
    exact h.of_aside hevolves hth ha' has hpre.2 hfits hregion (Action.run_aside hpre.1 hrun)
  | nil =>
    rw [List.nil_append] at ha
    obtain ⟨rfl, rfl⟩ := List.cons.inj (ha'.symm.trans ha)
    obtain ⟨m, hm⟩ := hs.sound.exists_method hy
    rw [hev.method] at hm
    have hready := hs.ready _ (hshift.mem _ rfl)
    obtain ⟨worker, unit, -, -, hwork⟩ := Action.worker_run hs.sound hready.1 hrun
    have hpub : x.publishes = false := by simpa [next?, hth, ha, Action.publishes] using hpub
    have hown (move : BackendMove) (hmove : move ∈ ch.move) : move.own = true :=
      (Option.all_eq_true _ _).1 hown move hmove
    obtain ⟨x', hleads⟩ := WorkerStep.run_leads hy hev hm hfits hpub hown hwork
    exact h.of_leads hevolves hth ha hm hfits hregion hleads

/-- Every move that leaves a thread to its compile brings the compile on, or leaves it where it
is. -/
theorem move (hs : s.Lawful) (h : s₀.Compiling s i task t done) {mv : Move}
    (hmv : s.leaves i task.method mv = true) :
    s₀.Compiling (s.move mv) i task t (done ++ s.installs i [mv]) := by
  obtain ⟨y, hy, hev⟩ := h.evolves
  cases mv with
  | step j ch =>
    cases hstep : s.step j ch with
    | none =>
      have hran : s.ran (.step j ch) = none := by simp [ran, hstep]
      simpa [System.move, hstep, installs, hran] using h
    | some s' =>
      have hmove : s.move (.step j ch) = s' := by simp [System.move, hstep]
      by_cases hj : j = i
      · subst hj
        simp only [leaves, if_pos, Bool.and_eq_true, Bool.not_eq_true'] at hmv
        have := h.step_self hs hstep hmv.1 hmv.2
        simpa [installs, hmove] using this
      · simp only [leaves, if_neg hj, decide_eq_true_eq, hmove] at hmv
        have hnone : s.installs i [.step j ch] = [] := by simp [installs, hj]
        rw [hnone, List.append_nil, hmove]
        obtain ⟨th, a, rest, turn, hth, ha, -, rfl, hshift⟩ := hs.shift hstep
        obtain ⟨x, hx, hevolves⟩ := hshift.event.extends.task hy
        exact h.of_untouched ⟨x, hx, hev.trans hevolves⟩
          (fun th hth => threadsAfter_of_ne hth (Ne.symm hj)) hmv.1 hmv.2
  | call c n =>
    simp only [leaves, decide_eq_true_eq] at hmv
    rw [show s.installs i [.call c n] = [] from rfl, List.append_nil]
    exact h.of_untouched ⟨y, hy, hev⟩ (fun th hth => getElem?_threads_spawn hth) hmv.1 hmv.2
  | operate o =>
    simp only [leaves, decide_eq_true_eq] at hmv
    rw [show s.installs i [.operate o] = [] from rfl, List.append_nil]
    obtain ⟨x, hx, hevolves⟩ := (s.shift_operate o).event.extends.task hy
    exact h.of_untouched ⟨x, hx, hev.trans hevolves⟩ (fun th hth => hth) hmv.1 hmv.2

/-- So does every row of moves that leaves the thread to its compile. -/
theorem foldl (hs : s.Lawful) (h : s₀.Compiling s i task t done) {ms : List Move}
    (hms : s.alone i task.method ms = true) :
    s₀.Compiling (ms.foldl System.move s) i task t (done ++ s.installs i ms) := by
  induction ms generalizing s done with
  | nil => simpa [installs] using h
  | cons mv ms ih =>
    rw [alone, Bool.and_eq_true] at hms
    rw [installs_cons, ← List.append_assoc]
    exact ih (hs.move mv) (h.move hs hms.1) hms.2

/-- Where the last run of a compile begins, nothing was attached in it. -/
theorem of_begins (hbegin : s.begins i = some t) (htask : s.broker.tasks[t]? = some task) :
    s.Compiling s i task t [] := by
  rw [begins] at hbegin
  split at hbegin
  · rename_i w c hnext
    split at hbegin
    · rename_i hc
      obtain rfl := Option.some.inj hbegin
      obtain ⟨th, hth, hhead⟩ := Option.bind_eq_some_iff.1 hnext
      obtain ⟨rest, ha⟩ := List.head?_eq_some_iff.1 hhead
      exact ⟨⟨task, htask, .refl task⟩, ⟨th, [], w, .compile c, rest, hth, ha, rfl,
        ⟨rfl, hc.1, fun hsome => by simp [hc.2] at hsome⟩, rfl⟩, fun _ => rfl, fun _ h => by simp at h⟩
    · cases hbegin
  · cases hbegin

/-- Where its result is to be written, it has its verdict. -/
theorem verdict (h : s₀.Compiling s i task t done) (hend : s.ends i = some f) :
    s₀.Verdict s task f done := by
  rw [ends] at hend
  split at hend
  · rename_i w f' hnext
    obtain rfl := Option.some.inj hend
    obtain ⟨th', hth', hhead⟩ := Option.bind_eq_some_iff.1 hnext
    obtain ⟨evolves, ⟨th, pre, w', x, rest, hth, ha, hpre, hfits, hregion⟩, clean, dirty⟩ := h
    obtain rfl := Option.some.inj (hth.symm.trans hth')
    cases pre with
    | cons b pre =>
      rw [ha, List.cons_append, List.head?_cons] at hhead
      obtain rfl := Option.some.inj hhead
      rw [List.all_cons] at hpre
      cases hpre
    | nil =>
      rw [ha, List.nil_append, List.head?_cons] at hhead
      cases hhead
      refine ⟨hfits.2, hregion, dirty, ?_⟩
      constructor
      · rintro ⟨hregions, hcodes⟩
        have hnone : done = [] := by
          rw [hregion, List.append_left_eq_self] at hregions
          simpa [WorkerStep.code?] using hregions
        exact ⟨hnone, clean hnone ▸ hcodes⟩
      · rintro ⟨rfl, hcodes⟩
        exact ⟨hregion, (clean rfl).symm ▸ hcodes⟩
  · cases hend

end Compiling

/-- In every run of a broker: where a thread has come from the first step of the last run of a
compile to the point where its result is to be written, and was left to it meanwhile, the code that
it attached is there, whatever the result says. -/
theorem verdict_of_run {config : Config} {parts : Broker.Parts} {b : Broker}
    (h : Broker.assemble config parts = .ok b) (before ms : List Move) {i : ThreadId} {t : TaskId}
    {task : Task} {f : Finished} (hbegin : (before.foldl move (launch b)).begins i = some t)
    (htask : (before.foldl move (launch b)).broker.tasks[t]? = some task)
    (halone : (before.foldl move (launch b)).alone i task.method ms = true)
    (hend : (ms.foldl move (before.foldl move (launch b))).ends i = some f) :
    (before.foldl move (launch b)).Verdict (ms.foldl move (before.foldl move (launch b))) task f
      ((before.foldl move (launch b)).installs i ms) := by
  have hs := (reachable_iff_foldl.2 ⟨before, rfl⟩ : Reachable (launch b) _).lawful
    (Broker.fresh_assemble h)
  exact ((Compiling.of_begins hbegin htask).foldl hs halone).verdict hend

/-- The worker of the small broker comes to the last run of a compile. -/
def soloBegin : List Move :=
  soloStart
    ++ [.call (.request { method := 0, tier := 1, reason := .normal, blocking := true }) 0]
    ++ times 2 21 ++ times 1 11

/-- The back-end installs code and then reports a failure. -/
def soloFailure : List Move :=
  [.step 1 { move := some (.install 256 128) }, .step 1 {},
    .step 1 { move := some (.fail (.other "late") .retry) }, .step 1 { move := some .finish }]
    ++ times 1 8

/-- There the result says that the compile has failed, and its code is left behind. -/
theorem verdict_of_soloFailure :
    ∃ task f, (soloBegin.foldl move (launch .solo)).Verdict
        (soloFailure.foldl move (soloBegin.foldl move (launch .solo))) task f
        ((soloBegin.foldl move (launch .solo)).installs 1 soloFailure) ∧
      f.result.success = false ∧
      ((soloBegin.foldl move (launch .solo)).installs 1 soloFailure).length = 1 := by
  obtain ⟨task, htask⟩ : ∃ x, (soloBegin.foldl move (launch .solo)).broker.tasks[0]? = some x :=
    Option.isSome_iff_exists.1 (by decide +kernel)
  obtain ⟨f, hend⟩ :
      ∃ f, (soloFailure.foldl move (soloBegin.foldl move (launch .solo))).ends 1 = some f :=
    Option.isSome_iff_exists.1 (by decide +kernel)
  have hmethod : (some task).map (·.method) = some 0 := htask ▸ (by decide +kernel)
  have hfailure : (some f).map (·.result.success) = some false := hend ▸ (by decide +kernel)
  refine ⟨task, f, verdict_of_run Broker.assemble_solo soloBegin soloFailure
    (by decide +kernel) htask ?_ hend, Option.some.inj hfailure, by decide +kernel⟩
  rw [show task.method = 0 from Option.some.inj hmethod]
  decide +kernel

end System

end JitBroker
