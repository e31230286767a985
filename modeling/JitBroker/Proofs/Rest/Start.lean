import JitBroker.Proofs.Config.Valid
import JitBroker.Proofs.Ledger.Tiers
import JitBroker.Proofs.Rest.Alert

/-!
# The start of a broker

A broker starts the crews of its units one after the other, and takes requests only when it has
done so. By then each crew has a worker; a worker that retires leaves another one. So a queue that
has a task is that of a unit that has a worker (`System.Started.live_of_queued`).
-/

namespace JitBroker

variable {me : Caller} {ch : Choices} {b : Broker} {turn : Turn}

/-! ### Crews to be started -/

/-- Each tier that is enabled is without fault. -/
theorem Config.fault_of_enabled {c : Config} (h : c.validate = .ok ()) :
    ∀ t ∈ c.enabledTiers, t.fault? = none := fun t ht =>
  t.fault_eq_none_iff.2 (((validate_eq_ok_iff c).1 h).tier t (List.mem_filter.1 ht).1)

/-- A tier without fault has a bit of its own, and may have a worker. -/
theorem TierConfig.of_fault_eq_none {t : TierConfig} (h : t.fault? = none) :
    t.level < tierLimit ∧ 0 < t.maxWorkers.toNat := by
  have hvalid := t.fault_eq_none_iff.1 h
  have hone := UInt64.le_iff_toNat_le.1 (UInt64.le_trans hvalid.minWorkers hvalid.maxWorkers)
  exact ⟨hvalid.level, hone⟩

/-- So are the tiers of the units of a broker. -/
theorem Broker.fault_of_assemble {config : Config} {parts : Parts}
    (h : assemble config parts = .ok b) : ∀ c ∈ b.unitConfigs.toList, c.fault? = none := by
  intro c hc
  rw [unitConfigs, Table.toList_map] at hc
  obtain ⟨x, hx, rfl⟩ := List.mem_map.1 hc
  obtain ⟨t, ht, kind, rfl⟩ := unit_of_assemble h x hx
  exact Config.fault_of_enabled (validate_of_assemble h) t ht

theorem Broker.maxWorkers_of_assemble {config : Config} {parts : Parts}
    (h : assemble config parts = .ok b) : ∀ c ∈ b.unitConfigs.toList, 0 < c.maxWorkers.toNat :=
  fun c hc => (TierConfig.of_fault_eq_none (fault_of_assemble h c hc)).2

/-- The units whose crews are still to be started, as far as the thread knows that starts them. -/
def Action.unstaffed? : Action → Option (List UnitId)
  | .crew (.launch us) | .crew (.staff _ 0 us) => some us
  | .crew (.staff u (_ + 1) us) => some (u :: us)
  | .crew .open => some []
  | _ => none

/-- A unit that may have workers begins with one. -/
theorem Broker.initialWorkers_pos (h : ∀ c ∈ b.unitConfigs.toList, 0 < c.maxWorkers.toNat)
    {u : UnitId} {x : TierUnit} (hx : b.units[u]? = some x) : 0 < b.initialWorkers x := by
  rw [initialWorkers]
  split
  · exact Nat.one_pos
  · refine h _ (Table.mem_toList_iff.2 ⟨u, ?_⟩)
    rw [unitConfigs, Table.getElem?_map, hx, Option.map_some]

/-- Whoever is to start crews has them before it still, or they have workers. -/
def Turn.Staffs (turn : Turn) (us us' : List UnitId) : Prop :=
  ∀ u ∈ us, u ∈ us' ∨ ∃ x, turn.broker.units[u]? = some x ∧ x.crew.live ≠ []

theorem Turn.Staffs.refl (turn : Turn) (us : List UnitId) : turn.Staffs us us := fun _ => .inl

namespace CrewStep

/-- The first crew is started, or none is left. -/
theorem launch_staffs {us us' : List UnitId}
    (hpos : ∀ c ∈ b.unitConfigs.toList, 0 < c.maxWorkers.toNat)
    (h : (CrewStep.launch us).run me ch b = some turn) {a' : Action} (ha' : a' ∈ turn.next)
    (hus' : a'.unstaffed? = some us') : turn.Staffs us us' := by
  cases us with
  | nil => exact fun _ h => absurd h List.not_mem_nil
  | cons u rest =>
    rw [run] at h
    repeat' split at h
    · obtain rfl := Option.some.inj h
      rw [List.mem_singleton.1 ha'] at hus'
      cases hus'
    · cases h
    · rename_i unit hu hfree
      obtain ⟨n, hn⟩ := Nat.exists_eq_succ_of_ne_zero (Broker.initialWorkers_pos hpos hu).ne'
      obtain rfl := Option.some.inj h
      rw [List.mem_singleton.1 ha', hn] at hus'
      obtain rfl := Option.some.inj hus'
      exact .refl _ _

/-- A crew has a worker before the next one is started. -/
theorem staff_staffs {u : UnitId} {n : Nat} {rest us us' : List UnitId}
    (hus : (Action.crew (.staff u n rest)).unstaffed? = some us)
    (h : (CrewStep.staff u n rest).run me ch b = some turn) {a' : Action} (ha' : a' ∈ turn.next)
    (hus' : a'.unstaffed? = some us') : turn.Staffs us us' := by
  cases n with
  | zero =>
    obtain rfl := Option.some.inj h
    rw [List.mem_singleton.1 ha'] at hus'
    obtain rfl := Option.some.inj (hus.symm.trans hus')
    exact .refl _ _
  | succ n =>
    obtain rfl := Option.some.inj hus
    rw [run] at h
    repeat' split at h
    · obtain rfl := Option.some.inj h
      rw [List.mem_singleton.1 ha'] at hus'
      cases hus'
    · rename_i unit hu _ herror
      obtain rfl := Option.some.inj h
      rw [List.mem_singleton.1 ha'] at hus'
      intro v hv
      cases n with
      | zero =>
        obtain rfl := Option.some.inj hus'
        refine (List.mem_cons.1 hv).symm.imp_right ?_
        rintro rfl
        exact ⟨_, Table.getElem?_modify_self hu _,
          List.append_ne_nil_of_right_ne_nil _ (List.cons_ne_nil _ _)⟩
      | succ n => exact .inl (Option.some.inj hus' ▸ hv)
    · obtain rfl := Option.some.inj h
      rcases List.mem_pair.1 ha' with rfl | rfl <;> cases hus'

end CrewStep

namespace Action

variable {a a' : Action}

theorem starts_of_unstaffed {us : List UnitId} (h : a.unstaffed? = some us) : a.starts = true := by
  unfold unstaffed? at h
  split at h <;> first | rfl | cases h

/-- A request that has claimed its method has found its unit. -/
theorem inquiry_of_desk {u : UnitId} {m : MethodId} {stage : Stage}
    (h : a.duty? = some (.desk u m stage)) : a.inquiry? ≠ none := by
  cases a with
  | request s => cases s <;> first | exact Option.some_ne_none _ | cases h
  | task s => cases s with
    | complete t who => cases who <;> cases h
    | _ => cases h
  | control s => cases s <;> cases h
  | _ => cases h

/-- Who is to start crews finds that they have workers, or is to start them still. -/
theorem unstaffed_of_next (hturn : turn.Ordered b a)
    (hpos : ∀ c ∈ b.unitConfigs.toList, 0 < c.maxWorkers.toNat)
    (h : a.run me ch b = some turn) (ha' : a' ∈ turn.next) {us' : List UnitId}
    (hus' : a'.unstaffed? = some us') : ∃ us, a.unstaffed? = some us ∧ turn.Staffs us us' := by
  have hstart : a.starts = true := (hturn.succeeds a' ha').start (starts_of_unstaffed hus')
  cases a with
  | crew s =>
    cases s with
    | launch us => exact ⟨us, rfl, CrewStep.launch_staffs hpos h ha' hus'⟩
    | staff u n rest =>
      obtain ⟨us, hus⟩ : ∃ us, (Action.crew (.staff u n rest)).unstaffed? = some us := by
        cases n <;> exact ⟨_, rfl⟩
      exact ⟨us, hus, CrewStep.staff_staffs hus h ha' hus'⟩
    | «open» =>
      obtain rfl := Option.some.inj h
      cases ha'
    | _ => cases hstart
  | _ => cases hstart

/-- Requests that have found their unit come from requests, at first of a broker that is started. -/
theorem inquiry_of_next (h : a.run me ch b = some turn) (ha' : a' ∈ turn.next)
    (hq : a'.inquiry? ≠ none) : a.inquiry? ≠ none ∨ b.initialized = true := by
  have none (hnone : turn.Inquires fun _ => none) : False := by
    obtain ⟨q, hq⟩ := Option.ne_none_iff_exists'.1 hq
    have htier : (none : Option Tier) = some q.request.tier := hnone a' ha' q hq
    cases htier
  cases a with
  | request s =>
    cases s with
    | enter r =>
      right
      rw [run, RequestStep.run] at h
      split at h
      · obtain rfl := Option.some.inj h
        cases ha'
      · rename_i hinit
        simpa using hinit
    | _ => exact .inl (Option.some_ne_none _)
  | task s => exact (none (TaskStep.inquires h)).elim
  | control s => exact (none (ControlStep.inquires h)).elim
  | gate s => exact (none (GateStep.inquires h)).elim
  | worker w s =>
    rw [run] at h
    refine (none ?_).elim
    repeat' split at h
    · exact .of_some h (.of_none (by simp [inquiry?]))
    · exact .of_some h (.of_none (by simp [inquiry?]))
    · exact WorkerStep.inquires h
  | crew s => exact (none (CrewStep.inquires h)).elim
  | answer r =>
    obtain rfl := Option.some.inj h
    cases ha'
  | fault => cases h

end Action

variable {l l' : Ledger} {d : Option Duty} {new : List Duty} {hired : Option WorkerId}

/-- A task is made for a request that has claimed its method. -/
theorem Event.size_tasks (h : Event l d new hired l') :
    l'.tasks.size = l.tasks.size ∨ ∃ u m, d = some (.desk u m .claimed) := by
  cases h with
  | allocate _ _ _ _ _ => exact .inr ⟨_, _, rfl⟩
  | drain _ _ _ _ htasks | fetch _ _ _ htasks | clean _ _ _ htasks _ => exact .inl htasks.size
  | _ => first | exact .inl rfl | exact .inl (Table.size_modify _ _ _)

namespace System

variable {s s' : System} {i : ThreadId}

/-! ### Every state -/

/-- A broker that is started has a worker in every crew, and there are no tasks before. -/
structure Started (s : System) : Prop where
  /-- Units may have workers. -/
  workers : ∀ c ∈ s.broker.unitConfigs.toList, 0 < c.maxWorkers.toNat
  /-- Who starts crews knows which are without workers. -/
  staffed : ∀ {a : Action} {us : List UnitId}, a ∈ s.pending → a.unstaffed? = some us →
    ∀ {u : UnitId} {x : TierUnit}, s.broker.units[u]? = some x → u ∉ us → x.crew.live ≠ []
  /-- When the broker is started, none is. -/
  crew : s.broker.initialized = true → ∀ {u : UnitId} {x : TierUnit}, s.broker.units[u]? = some x →
    x.crew.live ≠ []
  /-- Requests that find their unit find the broker started. -/
  asked : ∀ {a : Action}, a ∈ s.pending → a.inquiry? ≠ none → s.broker.initialized = true
  /-- So do those that make tasks. -/
  tasks : 0 < s.broker.tasks.size → s.broker.initialized = true

namespace Started

/-- A step leaves the broker started, or on its way. -/
theorem step (h : s.Started) (hs : s.Lawful) (ho : s.Ordered) (hstep : s.step i ch = some s') :
    s'.Started := by
  obtain ⟨th, a, rest, turn, hth, ha, hrun, rfl, hshift⟩ := hs.shift hstep
  have hmem : a ∈ s.pending := mem_pending.2 ⟨i, th, hth, ha ▸ List.mem_cons_self⟩
  have hready := fun d hd => hs.ready d (mem_duties.2 ⟨a, hmem, hd⟩)
  have hturn := Action.ordered hs.sound hready (ho.unit a hmem) hrun
  have halert := Action.alert hs.sound hready (ho.unit a hmem) hrun
  have hregular := Action.run_regular hrun
  have hsize := Broker.size_units_of_steady hregular.units
  have hinit (h : s.broker.initialized = true) : turn.broker.initialized = true := by
    rcases halert.initialized with heq | ⟨-, hinit⟩
    · exact heq.trans h
    · exact hinit
  constructor
  case workers => exact hregular.units ▸ h.workers
  case staffed =>
    intro a' us' ha' hus' u x' hx' hu
    obtain ⟨x, hx, hfollows⟩ := halert.exists_unit hsize hx'
    rcases mem_turned_cases hth ha ha' (by rintro w rfl; cases hus') with hold | hnext
    · exact hfollows.crew (h.staffed hold hus' hx hu)
    · obtain ⟨us, hus, hcases⟩ := Action.unstaffed_of_next hturn h.workers hrun hnext hus'
      by_cases hmem' : u ∈ us
      · obtain ⟨y, hy, hlive⟩ := (hcases u hmem').resolve_left hu
        exact Option.some.inj (hx'.symm.trans hy) ▸ hlive
      · exact hfollows.crew (h.staffed hmem hus hx hmem')
  case crew =>
    intro hstarted u x' hx'
    obtain ⟨x, hx, hfollows⟩ := halert.exists_unit hsize hx'
    rcases halert.initialized with heq | ⟨rfl, -⟩
    · exact hfollows.crew (h.crew (heq.symm.trans hstarted) hx)
    · exact hfollows.crew (h.staffed hmem rfl hx List.not_mem_nil)
  case asked =>
    intro a' ha' hq
    rcases mem_turned_cases hth ha ha' (by rintro w rfl; exact hq rfl) with hold | hnext
    · exact hinit (h.asked hold hq)
    · rcases Action.inquiry_of_next hrun hnext hq with hq | hstarted
      · exact hinit (h.asked hmem hq)
      · exact hinit hstarted
  case tasks =>
    intro hpos
    rcases hshift.event.size_tasks with hsame | ⟨u, m, hd⟩
    · exact hinit (h.tasks (hsame ▸ hpos))
    · exact hinit (h.asked hmem (Action.inquiry_of_desk hd))

theorem call (h : s.Started) (c : Call) (n : Nat) : (s.call c n).Started := by
  refine ⟨h.workers, fun ha hus => ?_, h.crew, fun ha hq => ?_, h.tasks⟩
  · rcases mem_pending_call.1 ha with ha | ha
    · exact h.staffed ha hus
    · have hstarts := (Call.none_of_mem ha).2.2.2
      exact (Bool.false_ne_true (hstarts.symm.trans (Action.starts_of_unstaffed hus))).elim
  · rcases mem_pending_call.1 ha with ha | ha
    · exact h.asked ha hq
    · exact absurd (inquiry_call c _ ha) hq

theorem operate (h : s.Started) (o : Operation) : (s.operate o).Started := by
  have hb := s.broker.stirs_operate o
  have hunits := (s.broker.operate_steady o).units
  have hsize := Broker.size_units_of_steady hunits
  refine ⟨hunits ▸ h.workers, fun ha hus u x' hx' hu => ?_, fun hinit u x' hx' => ?_,
    fun ha hq => hb.initialized.trans (h.asked ha hq),
    fun hpos => hb.initialized.trans (h.tasks ?_)⟩
  · obtain ⟨x, hx, hfollows, -⟩ := hb.exists_unit hsize hx'
    exact hfollows.crew (h.staffed ha hus hx hu)
  · obtain ⟨x, hx, hfollows, -⟩ := hb.exists_unit hsize hx'
    exact hfollows.crew (h.crew (hb.initialized.symm.trans hinit) hx)
  · have htasks : (s.broker.operate o).ledger.tasks = s.broker.ledger.tasks := by
      rcases s.broker.ledger_operate o with h | h <;> exact (congrArg Ledger.tasks h :)
    exact (congrArg Table.size htasks) ▸ hpos

end Started

theorem started_launch {config : Config} {parts : Broker.Parts}
    (hb : Broker.assemble config parts = .ok b) : (launch b).Started := by
  have hinit : b.initialized = false := by
    obtain ⟨units, -, rfl⟩ := Broker.exists_of_assemble hb
    rfl
  refine ⟨Broker.maxWorkers_of_assemble hb, fun ha hus u x hx hu => ?_, fun h => ?_, fun ha hq => ?_,
    fun hpos => ?_⟩
  · rw [mem_pending_launch ha] at hus
    obtain rfl := Option.some.inj hus
    exact absurd (List.mem_range.2 (Table.lt_size_of_getElem? hx)) hu
  · exact absurd (hinit.symm.trans h) Bool.false_ne_true
  · rw [mem_pending_launch ha] at hq
    exact absurd rfl hq
  · have htasks : b.tasks = .empty := (Broker.fresh_assemble hb).tasks
    rw [show (launch b).broker.tasks = .empty from htasks] at hpos
    exact absurd hpos (Nat.lt_irrefl 0)

/-- In every state that a system can get into, the broker is started, or has no tasks. -/
theorem Reachable.started {config : Config} {parts : Broker.Parts}
    (hb : Broker.assemble config parts = .ok b) (h : Reachable (launch b) s) : s.Started :=
  h.invariant (started_launch hb)
    (fun hr h hstep => h.step (hr.lawful (Broker.fresh_assemble hb))
      (hr.ordered (Broker.fresh_assemble hb)) hstep)
    (fun c n _ h => h.call c n) (fun o _ h => h.operate o)

/-- A unit with a task in its queue has a worker. -/
theorem Started.live_of_queued (h : s.Started) (hs : s.Lawful) {u : UnitId} {x : TierUnit}
    (hx : s.broker.units[u]? = some x) {t : TaskId} (ht : t ∈ x.queue.list.toList) :
    x.crew.live ≠ [] := by
  have hstock : s.ledger.stocks[u]? = some x.queue.stock := by simp [ledger, hx]
  have hlt : t < s.broker.tasks.size := hs.sound.queued hstock t ht
  exact h.crew (h.tasks (Nat.zero_lt_of_lt hlt)) hx

end System

end JitBroker
