import Mathlib.Data.List.Induction
import Mathlib.Data.List.Nodup
import JitBroker.Proofs.Backend.Opened
import JitBroker.Proofs.Shutdown.Closed

/-!
# Back-ends that start, or fail to

The back-end of a tier begins to start at most once, whoever of its workers comes first. No worker is
inside of a back-end that has not answered that it started. If a back-end answers that it failed, then

* nobody is ever inside of it;
* the worker that got the answer disables compilation next, if nobody has, and whenever nobody is in
  the middle of that, compilation is disabled and all queues are empty for good;
* requests that begin later are rejected within two steps of their threads, with what the back-end
  said.

`System.startup_of_run` has all this of every run. It rests on the history of the starts: how far one
has come is told by what has begun and what was answered in the run (`System.Tried`).
-/

namespace JitBroker

/-! ### Tiers -/

/-- The enabled tiers of a configuration have different numbers. -/
theorem Config.levels_nodup {c : Config} (h : c.validate = .ok ()) :
    (c.enabledTiers.map (·.level)).Nodup :=
  List.pairwise_map.2 (((validate_eq_ok_iff c).1 h).levels.sublist List.filter_sublist)

namespace Broker

variable {b : Broker} {config : Config} {parts : Parts}

theorem insertUnit_perm (x : TierUnit) (l : List TierUnit) : (insertUnit x l).Perm (x :: l) := by
  induction l with
  | nil => exact .refl _
  | cons y l ih =>
    rw [insertUnit]
    split
    · exact .refl _
    · exact (ih.cons y).trans (.swap x y l)

theorem foldl_insertUnit_perm (xs l : List TierUnit) :
    (xs.foldl (fun sorted x => insertUnit x sorted) l).Perm (xs ++ l) := by
  induction xs generalizing l with
  | nil => exact .refl _
  | cons x xs ih =>
    exact (ih _).trans (((insertUnit_perm x l).append_left xs).trans List.perm_middle)

/-- The units are made for the tiers, one for each. -/
theorem levels_of_mapM {ts : List TierConfig} {units : List TierUnit}
    (h : ts.mapM (makeUnit parts) = .ok units) : units.map (·.config.level) = ts.map (·.level) := by
  induction ts generalizing units with
  | nil =>
    obtain rfl : [] = units := by simpa [pure, Except.pure] using h
    rfl
  | cons t ts ih =>
    rw [List.mapM_cons] at h
    cases ht : makeUnit parts t with
    | error e => simp [ht, bind, Except.bind] at h
    | ok x =>
      cases hts : ts.mapM (makeUnit parts) with
      | error e => simp [ht, hts, bind, Except.bind] at h
      | ok xs =>
        obtain rfl : x :: xs = units := by simpa [ht, hts, bind, Except.bind, pure, Except.pure] using h
        obtain ⟨kind, rfl⟩ := exists_of_makeUnit ht
        rw [List.map_cons, List.map_cons, ih hts]

/-- The units of a broker have different tiers. -/
theorem tiers_nodup_of_assemble (h : assemble config parts = .ok b) : b.tiers.Nodup := by
  obtain ⟨units, hunits, hb⟩ := exists_of_assemble h
  have hperm : b.units.toList.Perm units := by
    simpa [hb, Table.toList] using foldl_insertUnit_perm units []
  refine ((hperm.map _).nodup_iff).2 ?_
  rw [levels_of_mapM hunits]
  exact Config.levels_nodup (validate_of_assemble h)

theorem tiers_eq (b : Broker) : b.tiers = b.unitConfigs.toList.map (·.level) := by
  simp [tiers, unitConfigs, Table.toList_map]

theorem getElem?_tiers (b : Broker) (u : UnitId) : b.tiers[u]? = b.tierOf u := by
  rw [tiers, List.getElem?_map, Table.toList_getElem?, tierOf]

/-- A unit has its tier for itself. -/
theorem tierOf_inj (hb : b.tiers.Nodup) {tier : Tier} {u v : UnitId} (hu : b.tierOf u = some tier)
    (hv : b.tierOf v = some tier) : u = v := by
  rw [← getElem?_tiers] at hu hv
  obtain ⟨hlt, -⟩ := List.getElem?_eq_some_iff.1 hu
  exact (List.getElem?_inj hlt hb).1 (hu.trans hv.symm)

/-- A unit is found by its tier. -/
theorem unitOf_of_tierOf (hb : b.tiers.Nodup) {tier : Tier} {u : UnitId}
    (h : b.tierOf u = some tier) : b.unitOf? tier = some u := by
  obtain ⟨v, hv⟩ : ∃ v, b.unitOf? tier = some v := by
    rw [← getElem?_tiers] at h
    refine Option.isSome_iff_exists.1 (List.findIdx?_isSome.trans (List.any_eq_true.2 ?_))
    obtain ⟨x, hx, rfl⟩ := List.mem_map.1 (List.mem_of_getElem? h)
    exact ⟨x, hx, beq_self_eq_true _⟩
  rw [hv, tierOf_inj hb (tierOf_unitOf hv) h]

end Broker

/-! ### Drains -/

/-- Nobody comes to drain a queue when compilation was disabled before. -/
theorem Event.drain_of_new {l l' : Ledger} {d : Option Duty} {new : List Duty}
    {hired : Option WorkerId} {u : UnitId} (h : Event l d new hired l') (hnew : .drain u ∈ new) :
    d = some (.drain u) ∨ l.disabled = false := by
  have discard (ts : List TaskId) : .drain u ∉ ts.flatMap Duty.discard := by
    intro h
    obtain ⟨_, -, h | h | h⟩ := Duty.mem_discard.1 h <;> cases h
  cases h with
  | plain d | know d => exact .inl (Option.mem_toList.1 hnew)
  | disable h => exact .inr h
  | append _ _ _ _ => split at hnew <;> simp at hnew
  | drain _ _ _ _ _ => exact absurd hnew (discard _)
  | fetch _ _ _ _ | clean _ _ _ _ _ =>
    exact absurd ((List.mem_append.1 hnew).resolve_left (discard _)) (by simp)
  | _ => simp at hnew

namespace System

variable {first s : System} {ms : List Move} {m : Move} {u : UnitId} {r : Except String Unit}
  {init : InitState} {begun : List UnitId} {returned : List (UnitId × Except String Unit)}
  {config : Config} {parts : Broker.Parts} {b : Broker}

/-! ### What a run tells -/

/-- How far the start of a back-end has come, when these have begun to start and those have answered. -/
inductive Tried (begun : List UnitId) (returned : List (UnitId × Except String Unit)) (u : UnitId) :
    InitState → Prop where
  /-- It has not begun. -/
  | pending (hbegun : u ∉ begun) (hreturned : ∀ r, (u, r) ∉ returned) : Tried begun returned u .pending
  /-- It has begun, and has not answered. -/
  | running (hbegun : u ∈ begun) (hreturned : ∀ r, (u, r) ∉ returned) : Tried begun returned u .running
  /-- It has answered. -/
  | answered {r : Except String Unit} (hbegun : u ∈ begun) (hreturned : (u, r) ∈ returned) :
    Tried begun returned u (.ofResult r)

namespace Tried

theorem not_begun (h : Tried begun returned u init) (hinit : init = .pending) : u ∉ begun := by
  cases h with
  | pending hbegun _ => exact hbegun
  | running _ _ => cases hinit
  | @answered r _ _ => cases r <;> cases hinit

theorem not_returned (h : Tried begun returned u init) (hinit : init = .pending ∨ init = .running) :
    ∀ r, (u, r) ∉ returned := by
  cases h with
  | pending _ hreturned | running _ hreturned => exact hreturned
  | @answered r _ _ => cases r <;> rcases hinit with hinit | hinit <;> cases hinit

theorem begun_of_running (h : Tried begun returned u init) (hinit : init = .running) : u ∈ begun := by
  cases h with
  | pending _ _ => cases hinit
  | running hbegun _ | answered hbegun _ => exact hbegun

theorem returned_of_ready (h : Tried begun returned u init) (hinit : init = .ready) :
    (u, .ok ()) ∈ returned := by
  cases h with
  | pending _ _ | running _ _ => cases hinit
  | @answered r _ hreturned =>
    cases r with
    | ok _ => exact hreturned
    | error _ => cases hinit

/-- What is told about others changes nothing. -/
theorem append {begun' : List UnitId} {returned' : List (UnitId × Except String Unit)}
    (h : Tried begun returned u init) (hbegun' : u ∉ begun') (hreturned' : ∀ r, (u, r) ∉ returned') :
    Tried (begun ++ begun') (returned ++ returned') u init := by
  cases h with
  | pending hbegun hreturned =>
    exact .pending (by simp [hbegun, hbegun']) fun r => by simp [hreturned r, hreturned' r]
  | running hbegun hreturned =>
    exact .running (List.mem_append_left _ hbegun) fun r => by simp [hreturned r, hreturned' r]
  | answered hbegun hreturned =>
    exact .answered (List.mem_append_left _ hbegun) (List.mem_append_left _ hreturned)

end Tried

/-- What a run tells about the starts of back-ends is what the units say after it. -/
structure History (first : System) (ms : List Move) : Prop where
  /-- Each has begun once at most. -/
  begins : (first.gather begins? ms).Nodup
  /-- Each has answered once at most. -/
  returns : ((first.gather returns? ms).map Prod.fst).Nodup
  /-- How far it has come. -/
  tried : ∀ {u : UnitId} {x : TierUnit}, (ms.foldl move first).broker.units[u]? = some x →
    Tried (first.gather begins? ms) (first.gather returns? ms) u x.init

theorem pending_of_begins (h : s.begins? m = some u) :
    ∃ x, s.broker.units[u]? = some x ∧ x.init = .pending := by
  unfold begins? at h
  split at h
  · obtain ⟨-, hany⟩ := Option.filter_eq_some_iff.1 h
    obtain ⟨x, hx, hpending⟩ := (Option.any_eq_true _ _).1 hany
    exact ⟨x, hx, of_decide_eq_true hpending⟩
  · cases h

theorem running_of_returns (hs : s.Lawful) (ho : s.Opened) (h : s.returns? m = some (u, r)) :
    ∃ x, s.broker.units[u]? = some x ∧ x.init = .running := by
  cases m with
  | step i ch =>
    rw [returns?] at h
    split at h
    · rename_i w r' hran _
      obtain ⟨u', hw, heq⟩ := Option.map_eq_some_iff.1 h
      obtain ⟨rfl, -⟩ := Prod.mk.inj heq
      obtain ⟨i, ch, th, rest, turn, hruns⟩ := exists_runs hran
      obtain ⟨v, x, hv, hx⟩ := exists_home hs hruns.mem_pending
      obtain rfl := Option.some.inj (hw.symm.trans hv)
      exact ⟨x, hx, ho.starting hruns.mem_pending hw hx⟩
    · cases h
  | call c n => cases h
  | operate o => cases h

namespace History

/-- A move more. -/
theorem concat (h : History first ms) (hs : (ms.foldl move first).Lawful)
    (ho : (ms.foldl move first).Ordered) (hop : (ms.foldl move first).Opened) (m : Move) :
    History first (ms ++ [m]) where
  begins := by
    rw [gather_concat]
    cases hb : begins? (ms.foldl move first) m with
    | none => simpa using h.begins
    | some u =>
      obtain ⟨x, hx, hpending⟩ := pending_of_begins hb
      exact h.begins.append (List.nodup_singleton u) (by simpa using (h.tried hx).not_begun hpending)
  returns := by
    rw [gather_concat, List.map_append]
    cases hr : returns? (ms.foldl move first) m with
    | none => simpa using h.returns
    | some p =>
      obtain ⟨u, r⟩ := p
      obtain ⟨x, hx, hrunning⟩ := running_of_returns hs hop hr
      exact h.returns.append (List.nodup_singleton u)
        (by simpa using (h.tried hx).not_returned (.inr hrunning))
  tried {u x'} hx' := by
    rw [List.foldl_append] at hx'
    obtain ⟨x, hx, hopens⟩ := opens_move hs ho m hx'
    have htried := h.tried hx
    rw [gather_concat, gather_concat]
    generalize hinit : x.init = init at hopens htried
    generalize x'.init = init' at hopens
    cases hopens with
    | stay hbegins hreturns =>
      exact htried.append (by simpa [eq_comm] using hbegins) fun r => by
        simpa [eq_comm] using hreturns r
    | begin _ _ hbegins hreturns =>
      rw [hbegins, hreturns]
      exact .running (by simp) (by simpa using htried.not_returned (.inl rfl))
    | «return» hran hw _ hreturns =>
      obtain ⟨i, ch, th, rest, turn, hruns⟩ := exists_runs hran
      have hrunning := hinit.symm.trans (hop.starting hruns.mem_pending hw hx)
      exact .answered (List.mem_append_left _ (htried.begun_of_running hrunning)) (by simp [hreturns])

/-- A back-end has answered once. -/
theorem eq_of_mem (h : History first ms) {r' : Except String Unit}
    (hr : (u, r) ∈ first.gather returns? ms) (hr' : (u, r') ∈ first.gather returns? ms) : r = r' :=
  congrArg Prod.snd (List.inj_on_of_nodup_map h.returns hr hr' rfl)

/-- What a back-end has answered is written down. -/
theorem init_of_mem (h : History first ms) {x : TierUnit}
    (hx : (ms.foldl move first).broker.units[u]? = some x)
    (hr : (u, r) ∈ first.gather returns? ms) : x.init = .ofResult r := by
  have htried := h.tried hx
  generalize x.init = init at htried
  cases htried with
  | pending _ hnot | running _ hnot => exact absurd hr (hnot r)
  | answered _ hr' => rw [h.eq_of_mem hr hr']

end History

/-- Every run of a broker tells how far starts have come. -/
theorem history_of_run (hb : Broker.assemble config parts = .ok b) (ms : List Move) :
    History (launch b) ms := by
  have hfresh := Broker.fresh_assemble hb
  induction ms using List.reverseRecOn with
  | nil =>
    refine ⟨List.nodup_nil, List.nodup_nil, fun {u x} hx => ?_⟩
    obtain ⟨t, -, kind, rfl⟩ := Broker.unit_of_assemble hb x (Table.mem_toList_iff.2 ⟨u, hx⟩)
    exact .pending List.not_mem_nil fun _ => List.not_mem_nil
  | append_singleton ms m ih =>
    have hr : Reachable (launch b) (ms.foldl move (launch b)) := reachable_iff_foldl.2 ⟨ms, rfl⟩
    exact ih.concat (hr.lawful hfresh) (hr.ordered hfresh) (hr.opened hb) m

/-! ### Back-ends that failed -/

/-- Whoever is to drain a queue has the drain before it. -/
theorem mem_pending_of_drain (h : .drain u ∈ s.duties) : .control (.drain u) ∈ s.pending := by
  obtain ⟨a, ha, hd⟩ := mem_duties.1 h
  cases a with
  | control c =>
    cases c <;> cases hd
    exact ha
  | request c => cases c <;> cases hd
  | task c =>
    cases c with
    | complete t who => cases who <;> cases hd
    | _ => cases hd
  | _ => cases hd

/-- Compilation is disabled, and nobody is to drain a queue. -/
def Drained (s : System) : Prop := s.broker.disabled = true ∧ ∀ v, .drain v ∉ s.duties

namespace Drained

theorem move (h : s.Drained) (hs : s.Lawful) (m : Move) : (s.move m).Drained := by
  obtain ⟨hdis, hnone⟩ := h
  refine ⟨(hs.extends_move m).disabled hdis, fun v hv => ?_⟩
  obtain ⟨d, new, hired, hshift⟩ := hs.shift_move m
  rcases hshift.of_mem hv with hold | hnew | ⟨w, -, hpost⟩
  · exact hnone v hold
  · rcases hshift.event.drain_of_new hnew with hd | henabled
    · exact hnone v (hshift.mem _ hd)
    · exact Bool.false_ne_true (henabled.symm.trans hdis)
  · cases hpost

theorem foldl (h : s.Drained) (hs : s.Lawful) (ms : List Move) : (ms.foldl System.move s).Drained := by
  induction ms generalizing s with
  | nil => exact h
  | cons m ms ih => exact ih (h.move hs m) (hs.move m)

/-- Then the queues are empty. -/
theorem empty (h : s.Drained) (ho : s.Orderly) :
    ∀ x ∈ s.broker.units.toList, x.queue.list.toList = [] := by
  intro x hx
  obtain ⟨v, hv⟩ := Table.mem_toList_iff.1 hx
  exact ((ho.closing.drained h.1 (stock_of_unit hv)).resolve_left (h.2 v)).1

end Drained

/-- A broker that was started stays so. -/
theorem initialized_move (hs : s.Lawful) (ho : s.Ordered) (m : Move)
    (h : s.broker.initialized = true) : (s.move m).broker.initialized = true := by
  cases hran : s.ran m with
  | none =>
    cases m with
    | step i ch => rwa [move_step_of_ran hran]
    | call c n => exact h
    | operate o => exact (s.broker.stirs_operate o).initialized.trans h
  | some a =>
    obtain ⟨i, ch, th, rest, turn, hruns⟩ := exists_runs hran
    have hready := fun d hd => hs.ready d (mem_duties.2 ⟨a, hruns.mem_pending, hd⟩)
    rw [hruns.turned]
    rcases (Action.alert hs.sound hready (ho.unit a hruns.mem_pending) hruns.run).initialized with
      heq | ⟨-, hinit⟩
    · exact heq.trans h
    · exact hinit

/-- Its units have different tiers. -/
theorem Reachable.tiers_nodup (hb : Broker.assemble config parts = .ok b)
    (h : Reachable (launch b) s) : s.broker.tiers.Nodup := by
  have hconfigs : s.broker.unitConfigs = b.unitConfigs := h.unitConfigs
  rw [Broker.tiers_eq, hconfigs, ← Broker.tiers_eq]
  exact Broker.tiers_nodup_of_assemble hb

/-- The broker is started, and the back-end of a unit has failed to start, with a message. -/
structure Broken (b : Broker) (u : UnitId) (message : String) (s : System) : Prop where
  /-- It is a broker at work. -/
  reachable : Reachable (launch b) s
  /-- It takes requests. -/
  initialized : s.broker.initialized = true
  /-- The back-end has failed. -/
  init : ∃ x, s.broker.units[u]? = some x ∧ x.init = .failed message

theorem Broken.move {message : String} (hb : Broker.assemble config parts = .ok b)
    (h : Broken b u message s) (m : Move) : Broken b u message (s.move m) := by
  have hfresh := Broker.fresh_assemble hb
  have hl := h.reachable.lawful hfresh
  have ho := h.reachable.ordered hfresh
  obtain ⟨x, hx, hfailed⟩ := h.init
  refine ⟨h.reachable.move m, initialized_move hl ho m h.initialized, ?_⟩
  obtain ⟨x', hx'⟩ : ∃ x', (s.move m).broker.units[u]? = some x' := by
    refine Table.exists_getElem? ?_
    rw [Broker.size_units_of_steady (s.unitConfigs_move m)]
    exact Table.lt_size_of_getElem? hx
  refine ⟨x', hx', Eq.trans ?_ hfailed⟩
  exact (h.reachable.opened hb).init_move hl ho hx hx' (by simp [hfailed]) (by simp [hfailed])

/-- A request of a thread for the tier of a unit will be rejected with what the back-end said, after so
many steps at the latest. -/
inductive Declined (s : System) (j : ThreadId) (u : UnitId) (message : String) (rest : List Action) :
    Nat → Prop where
  /-- It begins. -/
  | enter {th : Thread} {r : Request} (hth : s.threads[j]? = some th)
    (ha : th.agenda = .request (.enter r) :: rest) (htier : s.broker.tierOf u = some r.tier) :
    Declined s j u message rest 2
  /-- It has found its unit. -/
  | backend {th : Thread} {q : Inquiry} (hth : s.threads[j]? = some th)
    (ha : th.agenda = .request (.backend q) :: rest) (hunit : q.unit = u) :
    Declined s j u message rest 1
  /-- It has been rejected. -/
  | answered {th : Thread} (hth : s.threads[j]? = some th) (ha : th.agenda = rest)
    (hreply : th.reply = some (.outcome (.rejected (.backendInitFailure (.failed message))))) :
    Declined s j u message rest 0

namespace Declined

variable {s' : System} {j : ThreadId} {rest : List Action} {n : Nat} {message : String}

/-- A step of the thread brings its request nearer to the end. -/
theorem step (h : s.Declined j u message rest (n + 1)) (hb : Broker.assemble config parts = .ok b)
    (hbroken : Broken b u message s) (ch : Choices) :
    (s.move (.step j ch)).Declined j u message rest n := by
  have turns {th : Thread} {a : Action} {turn : Turn} (hth : s.threads[j]? = some th)
      (ha : th.agenda = a :: rest) (hrun : a.run (th.caller j) ch s.broker = some turn) :
      (s.move (.step j ch)).threads[j]? = some (th.after turn) ∧
        (th.after turn).agenda = turn.next ++ rest := by
    rw [System.move, step_eq_some_iff.2 ⟨th, a, rest, turn, hth, ha, hrun, rfl⟩]
    exact ⟨threadsAfter_self hth, Thread.agenda_after ha⟩
  cases h with
  | @enter th r hth ha htier =>
    have hunit := Broker.unitOf_of_tierOf (hbroken.reachable.tiers_nodup hb) htier
    have hrun : (Action.request (.enter r)).run (th.caller j) ch s.broker =
        RequestStep.next s.broker (.backend { request := r, unit := u }) := by
      simp [Action.run, RequestStep.run, hbroken.initialized, hunit]
    obtain ⟨hth', ha'⟩ := turns hth ha hrun
    exact .backend hth' ha' rfl
  | @backend th q hth ha hunit =>
    obtain ⟨x, hx, hfailed⟩ := hbroken.init
    have hrun : (Action.request (.backend q)).run (th.caller j) ch s.broker =
        RequestStep.reject s.broker (.backendInitFailure (.failed message)) := by
      simp [Action.run, RequestStep.run, hunit, hx, hfailed]
    obtain ⟨hth', ha'⟩ := turns hth ha hrun
    exact .answered hth' ha' rfl

/-- A move brings a request nearer to the end if it is a step of its thread, and leaves it otherwise. -/
theorem move (h : s.Declined j u message rest (n + 1)) (hb : Broker.assemble config parts = .ok b)
    (hbroken : Broken b u message s) (m : Move) :
    ∃ n', (s.move m).Declined j u message rest n' ∧ n' ≤ n + 1 - (m.isStepOf j).toNat := by
  cases hm : m.isStepOf j with
  | false =>
    refine ⟨n + 1, ?_, Nat.le_refl _⟩
    cases h with
    | enter hth ha htier =>
      exact .enter (thread_of_isStepOf hth hm) ha
        (Broker.tierOf_congr (s.unitConfigs_move m) ▸ htier)
    | backend hth ha hunit => exact .backend (thread_of_isStepOf hth hm) ha hunit
  | true =>
    cases m with
    | step i ch =>
      obtain rfl : i = j := by simpa [Move.isStepOf] using hm
      exact ⟨n, h.step hb hbroken ch, Nat.le_refl _⟩
    | call c k => cases hm
    | operate o => cases hm

/-- A request that begins when the back-end of its tier has failed to start is rejected. -/
theorem rejected (h : s.Declined j u message rest n) (hb : Broker.assemble config parts = .ok b)
    (hbroken : Broken b u message s) {ms : List Move} (hn : n ≤ ms.countP (·.isStepOf j)) :
    ∃ pre, pre <+: ms ∧ ∃ th, (pre.foldl System.move s).threads[j]? = some th ∧ th.agenda = rest ∧
      th.reply = some (.outcome (.rejected (.backendInitFailure (.failed message)))) := by
  obtain ⟨pre, hpre, hend⟩ := exists_prefix_of_steps
    (I := Broken b u message) (P := fun s => s.Declined j u message rest)
    (fun m hbroken h => ⟨hbroken.move hb m, h.move hb hbroken m⟩) hbroken h hn
  cases hend with
  | answered hth ha hreply => exact ⟨pre, hpre, _, hth, ha, hreply⟩

end Declined

/-- What holds after a run in which a back-end answered that it failed to start. -/
structure Failed (first : System) (ms : List Move) (u : UnitId) (message : String) : Prop where
  /-- No worker of its unit was ever inside of it. -/
  unused : ∀ {pre : List Move}, pre <+: ms → ∀ {w : WorkerId} {st : WorkerStep},
    .worker w st ∈ (pre.foldl move first).pending → (Action.worker w st).atBackend = true →
      (pre.foldl move first).home w ≠ some u
  /-- Compilation is disabled, or a worker of the unit is about to disable it. -/
  disables : (ms.foldl move first).broker.disabled = true ∨ (ms.foldl move first).Quits u
  /-- Once it is disabled, each queue is empty, or somebody is to drain it. -/
  drained : (ms.foldl move first).broker.disabled = true → ∀ {v : UnitId} {x : TierUnit},
    (ms.foldl move first).broker.units[v]? = some x →
      .control (.drain v) ∈ (ms.foldl move first).pending ∨ x.queue.list.toList = []
  /-- Unless somebody is in the middle of that, compilation is disabled, and all queues are empty, in
  this state and in every later one. -/
  settled : ¬ (ms.foldl move first).Quits u →
    (∀ v, .control (.drain v) ∉ (ms.foldl move first).pending) → ∀ later : List Move,
      (later.foldl move (ms.foldl move first)).broker.disabled = true ∧
        ∀ x ∈ (later.foldl move (ms.foldl move first)).broker.units.toList, x.queue.list.toList = []
  /-- A request for the tier of the unit that begins is rejected within two steps of its thread, with
  what the back-end said, if the broker takes requests at all. -/
  rejected : (ms.foldl move first).broker.initialized = true → ∀ {j : ThreadId} {th : Thread}
    {r : Request} {rest : List Action}, (ms.foldl move first).threads[j]? = some th →
      th.agenda = .request (.enter r) :: rest →
        (ms.foldl move first).broker.tierOf u = some r.tier → ∀ {later : List Move},
          2 ≤ later.countP (·.isStepOf j) → ∃ pre, pre <+: later ∧ ∃ th,
            (pre.foldl move (ms.foldl move first)).threads[j]? = some th ∧ th.agenda = rest ∧
              th.reply = some (.outcome (.rejected (.backendInitFailure (.failed message))))

/-- What is true of the starts of back-ends in a run. -/
structure Startup (first : System) (ms : List Move) : Prop where
  /-- That of each tier begins once at most. -/
  begins : ((first.gather begins? ms).map first.broker.tierOf).Nodup
  /-- It answers once at most. -/
  answers : ((first.gather returns? ms).map fun p => first.broker.tierOf p.1).Nodup
  /-- Who is inside of a back-end is a worker of a unit whose back-end has answered that it started. -/
  inside : ∀ {w : WorkerId} {st : WorkerStep}, .worker w st ∈ (ms.foldl move first).pending →
    (Action.worker w st).atBackend = true →
      ∃ u, (ms.foldl move first).home w = some u ∧ (u, .ok ()) ∈ first.gather returns? ms
  /-- What holds if one has answered that it failed. -/
  failed : ∀ {u : UnitId} {message : String}, (u, .error message) ∈ first.gather returns? ms →
    Failed first ms u message

/-- Who is inside of a back-end in a run has one that has answered that it started. -/
theorem inside_of_run (hb : Broker.assemble config parts = .ok b) {w : WorkerId} {st : WorkerStep}
    (hmem : .worker w st ∈ (ms.foldl move (launch b)).pending)
    (hback : (Action.worker w st).atBackend = true) : ∃ u,
      (ms.foldl move (launch b)).home w = some u ∧ (u, .ok ()) ∈ (launch b).gather returns? ms := by
  have hr : Reachable (launch b) (ms.foldl move (launch b)) := reachable_iff_foldl.2 ⟨ms, rfl⟩
  obtain ⟨u, x, hw, hx⟩ := exists_home (hr.lawful (Broker.fresh_assemble hb)) hmem
  have hopen : st.isOpen = true := by cases st <;> first | rfl | cases hback
  have hready := (hr.opened hb).isOpen hmem hopen hw hx
  exact ⟨u, hw, ((history_of_run hb ms).tried hx).returned_of_ready hready⟩

/-- A back-end that begins to start in a run, or answers in it, is that of a unit. -/
theorem tierOf_of_mem (hb : Broker.assemble config parts = .ok b) :
    (∀ u ∈ (launch b).gather begins? ms, ∃ tier, b.tierOf u = some tier) ∧
      ∀ p ∈ (launch b).gather returns? ms, ∃ tier, b.tierOf p.1 = some tier := by
  have hfresh := Broker.fresh_assemble hb
  have tier {ms : List Move} {u : UnitId} {x : TierUnit}
      (hx : (ms.foldl move (launch b)).broker.units[u]? = some x) :
      ∃ tier, b.tierOf u = some tier := by
    have hr : Reachable (launch b) (ms.foldl move (launch b)) := reachable_iff_foldl.2 ⟨ms, rfl⟩
    rw [← show (ms.foldl move (launch b)).broker.tierOf = b.tierOf from
        Broker.tierOf_congr hr.unitConfigs,
      Broker.tierOf, hx]
    exact ⟨_, rfl⟩
  constructor
  · intro u hu
    obtain ⟨ms₁, m, -, -, hbegins⟩ := exists_of_mem_gather hu
    obtain ⟨x, hx, -⟩ := pending_of_begins hbegins
    exact tier hx
  · intro p hp
    obtain ⟨ms₁, m, -, -, hreturns⟩ := exists_of_mem_gather hp
    have hr : Reachable (launch b) (ms₁.foldl move (launch b)) := reachable_iff_foldl.2 ⟨ms₁, rfl⟩
    obtain ⟨x, hx, -⟩ := running_of_returns (hr.lawful hfresh) (hr.opened hb) hreturns
    exact tier hx

/-- What holds after a back-end has failed to start. -/
theorem failed_of_run {message : String} (hb : Broker.assemble config parts = .ok b)
    (hmem : (u, .error message) ∈ (launch b).gather returns? ms) :
    Failed (launch b) ms u message := by
  have hfresh := Broker.fresh_assemble hb
  have hr : Reachable (launch b) (ms.foldl move (launch b)) := reachable_iff_foldl.2 ⟨ms, rfl⟩
  have hh := history_of_run hb ms
  have hconfigs : (ms.foldl move (launch b)).broker.tierOf = b.tierOf :=
    Broker.tierOf_congr hr.unitConfigs
  obtain ⟨x, hx, hfailed⟩ : ∃ x, (ms.foldl move (launch b)).broker.units[u]? = some x ∧
      x.init = .failed message := by
    obtain ⟨tier, htier⟩ := (tierOf_of_mem hb).2 _ hmem
    rw [← hconfigs] at htier
    obtain ⟨x, hx, -⟩ := Option.map_eq_some_iff.1 htier
    exact ⟨x, hx, hh.init_of_mem hx hmem⟩
  have hdisables := (hr.opened hb).failed hx hfailed
  refine ⟨fun {pre} hpre {w st} hin hback hw => ?_, hdisables, fun hdis {v x} hv => ?_,
    fun hquits hnone later => ?_, fun hinit {j th r rest} hth ha htier {later} hlater => ?_⟩
  · obtain ⟨v, hv, hok⟩ := inside_of_run hb hin hback
    obtain rfl := Option.some.inj (hw.symm.trans hv)
    obtain ⟨rest, rfl⟩ := hpre
    rw [gather_append] at hmem
    have := hh.eq_of_mem (gather_append .. ▸ List.mem_append_left _ hok) (gather_append .. ▸ hmem)
    cases this
  · rcases (hr.orderly hfresh).closing.drained hdis (stock_of_unit hv) with hdrain | ⟨hempty, -⟩
    · exact .inl (mem_pending_of_drain hdrain)
    · exact .inr hempty
  · have hdrained : (ms.foldl move (launch b)).Drained :=
      ⟨hdisables.resolve_right hquits, fun v hv => hnone v (mem_pending_of_drain hv)⟩
    have hlater := hdrained.foldl (hr.lawful hfresh) later
    have hr' : Reachable (launch b) (later.foldl move (ms.foldl move (launch b))) :=
      hr.trans (reachable_iff_foldl.2 ⟨later, rfl⟩)
    exact ⟨hlater.1, hlater.empty (hr'.orderly hfresh)⟩
  · exact (Declined.enter hth ha htier).rejected hb ⟨hr, hinit, x, hx, hfailed⟩ hlater

/-- In every run of a broker, whatever requesters, workers and back-ends do: each back-end begins to
start once at most, nobody is inside of one that has not answered that it started, and one that has
failed to start has compilation disabled and requests rejected. -/
theorem startup_of_run (hb : Broker.assemble config parts = .ok b) (ms : List Move) :
    Startup (launch b) ms where
  begins := by
    refine (history_of_run hb ms).begins.map_on fun u hu v _ heq => ?_
    obtain ⟨tier, htier⟩ := (tierOf_of_mem hb).1 u hu
    exact Broker.tierOf_inj (Broker.tiers_nodup_of_assemble hb) htier (heq ▸ htier)
  answers := by
    have hnodup := (history_of_run hb ms).returns
    refine hnodup.of_map.map_on fun p hp p' hp' heq => ?_
    obtain ⟨tier, htier⟩ := (tierOf_of_mem hb).2 p hp
    refine List.inj_on_of_nodup_map hnodup hp hp' ?_
    exact Broker.tierOf_inj (Broker.tiers_nodup_of_assemble hb) htier (heq ▸ htier)
  inside := inside_of_run hb
  failed := failed_of_run hb

/-- In the broker with two tiers, the worker of the first has taken a task to the back-end. A request
for the other tier is queued before its worker comes to the back-end, which says that it cannot start. -/
def duoBroken : List Move :=
  times 0 8 ++ [.operate (.addClass { name := "C" }),
      .operate (.addMethod { name := "f", className := "C" }),
      .operate (.addMethod { name := "g", className := "C" }), .step 1 {},
      .step 1 { started := some (.ok ()) }, .call (.request { method := 0, tier := 1 }) 0]
    ++ times 3 20 ++ times 1 11 ++ [.call (.request { method := 1, tier := 2 }) 0] ++ times 4 20
    ++ [.step 2 {}, .step 2 { started := some (.error "no code generator") }]

/-- There the worker has still to disable compilation, the request is queued, and the other worker is
inside of its back-end. -/
theorem startup_of_duoBroken :
    (duoBroken.foldl move (launch .duo)).broker.disabled = false ∧
      (duoBroken.foldl move (launch .duo)).broker.units.toList.map (·.queue.list.toList) = [[], [1]] ∧
      (duoBroken.foldl move (launch .duo)).threads.toList.any (·.agenda.any (·.atBackend)) = true ∧
      (launch .duo).gather returns? duoBroken = [(0, .ok ()), (1, .error "no code generator")] ∧
      Startup (launch .duo) duoBroken :=
  ⟨by decide +kernel, by decide +kernel, by decide +kernel, by decide +kernel,
    startup_of_run Broker.assemble_duo duoBroken⟩

end System

end JitBroker
