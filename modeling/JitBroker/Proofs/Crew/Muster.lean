import JitBroker.Proofs.Crew.Change
import JitBroker.Proofs.Rest.Start

/-!
# Crews between their bounds

Who is about to start or to enlarge a crew knows something of it, and this stays true until it is
done (`Action.Plans`): a crew that is still to be started has no worker, one that is being started
lacks as many as are still to be hired, and one that is to be enlarged has a worker already and is
enlarged to what it may have. As only one thread starts crews, and crews that never change in size
are not enlarged, no crew gets more workers than it may have.

In every state of every run (`System.Reachable.mustered`), moreover:

* the number of workers that is published is that of the workers;
* each worker has the badge of its position in the crew;
* a unit that ever had a worker has one.
-/

namespace JitBroker

/-- The badge of the worker at a position of a crew. -/
def TierUnit.badge (x : TierUnit) (u : UnitId) (i : Nat) : Badge :=
  ⟨u, x.config.level, i, x.kind.title ++ s!" CompilerThread{i}"⟩

theorem Broker.badge_newWorker (b : Broker) (u : UnitId) (x : TierUnit) :
    (b.newWorker u x).badge = x.badge u x.crew.live.length := rfl

/-- No unit is to have more workers than it may have. -/
theorem TierUnit.desiredWorkers_le (x : TierUnit) (queued freeMemory freeCode : UInt64) :
    (x.desiredWorkers queued freeMemory freeCode).toNat ≤ x.config.maxWorkers.toNat := by
  have hmin (n k : UInt64) : (min n k).toNat ≤ n.toNat := by
    change (if n ≤ k then n else k).toNat ≤ n.toNat
    split
    · exact le_rfl
    · rename_i h
      exact (Nat.not_le.1 fun h' => h (UInt64.le_iff_toNat_le.2 h')).le
  exact (hmin _ _).trans ((hmin _ _).trans (hmin _ _))

/-! ### What is known of crews -/

namespace Broker

variable {b : Broker} {u : UnitId} {n : Nat}

/-- A unit has no worker. -/
def Vacant (b : Broker) (u : UnitId) : Prop := ∀ x, b.units[u]? = some x → x.crew.live = []

/-- The crew of a unit may change in size, and has a worker. -/
def Elastic (b : Broker) (u : UnitId) : Prop :=
  b.config.dynamicPool = true ∧ ∀ x, b.units[u]? = some x → x.crew.live ≠ []

/-- A crew that is being started lacks so many workers. -/
def Lacks (b : Broker) (u : UnitId) (n : Nat) : Prop :=
  ∀ x, b.units[u]? = some x →
    (0 < n ∨ b.config.dynamicPool = false → x.crew.live.length + n = b.initialWorkers x) ∧
      (n = 0 → x.crew.live ≠ [])

/-- A unit may have so many workers. -/
def Admits (b : Broker) (u : UnitId) (n : Nat) : Prop :=
  ∀ x, b.units[u]? = some x → n ≤ x.config.maxWorkers.toNat

theorem initialWorkers_le {x : TierUnit} (h : 0 < x.config.maxWorkers.toNat) :
    b.initialWorkers x ≤ x.config.maxWorkers.toNat := by
  unfold initialWorkers
  split
  · exact h
  · exact le_rfl

theorem initialWorkers_of_static {x : TierUnit} (h : b.config.dynamicPool = false) :
    b.initialWorkers x = x.config.maxWorkers.toNat := by
  rw [initialWorkers, h, if_neg Bool.false_ne_true]

theorem initialWorkers_of_dynamic {x : TierUnit} (h : b.config.dynamicPool = true) :
    b.initialWorkers x = 1 := by
  rw [initialWorkers, if_pos h]

end Broker

/-- What is known of the crews when an action of theirs is pending. -/
def Action.Plans (b : Broker) : Action → Prop
  | .crew (.grow u) | .crew (.depth u _) | .crew (.weigh u _ _) => b.Elastic u
  | .crew (.expand u d) | .crew (.hire u d) => b.Elastic u ∧ b.Admits u d
  | .crew (.launch us) => us.Nodup ∧ ∀ v ∈ us, b.Vacant v
  | .crew (.staff u n us) => (u :: us).Nodup ∧ (∀ v ∈ us, b.Vacant v) ∧ b.Lacks u n
  | _ => True

theorem Action.plans_of_kind {b : Broker} {a : Action} (h : a.kind ≠ .crew) : a.Plans b := by
  cases a <;> trivial

/-! ### What comes next is known too -/

namespace Broker

variable {b : Broker} {u v : UnitId} {n : Nat} {x : TierUnit}

/-- Hiring leaves other units alone. -/
theorem Vacant.hire (h : b.Vacant v) (hne : v ≠ u) : (b.hire u x).Vacant v := by
  intro y hy
  obtain ⟨y, hold, ⟨-, rfl⟩ | ⟨rfl, -⟩⟩ := Table.exists_of_modify hy
  · exact h y hold
  · exact absurd rfl hne

theorem Elastic.hire (h : b.Elastic v) : (b.hire u x).Elastic v := by
  refine ⟨h.1, fun y hy => ?_⟩
  obtain ⟨y, hold, ⟨-, rfl⟩ | ⟨-, rfl⟩⟩ := Table.exists_of_modify hy
  · exact h.2 y hold
  · exact List.append_ne_nil_of_right_ne_nil _ (List.cons_ne_nil _ _)

theorem Admits.hire (h : b.Admits v n) : (b.hire u x).Admits v n := by
  intro y hy
  obtain ⟨y, hold, ⟨-, rfl⟩ | ⟨-, rfl⟩⟩ := Table.exists_of_modify hy <;> exact h y hold

/-- A crew that is being started lacks one worker less. -/
theorem Lacks.hire (h : b.Lacks u (n + 1)) (hx : b.units[u]? = some x) :
    (b.hire u x).Lacks u n := by
  intro y hy
  obtain ⟨y, hold, ⟨hne, -⟩ | ⟨-, rfl⟩⟩ := Table.exists_of_modify hy
  · exact absurd rfl hne
  · obtain rfl := Option.some.inj (hold.symm.trans hx)
    refine ⟨fun _ => ?_, fun _ => List.append_ne_nil_of_right_ne_nil _ (List.cons_ne_nil _ _)⟩
    have hlacks := (h y hold).1 (.inl n.succ_pos)
    change (y.crew.live ++ [b.workers.size]).length + n = b.initialWorkers y
    rw [List.length_append, List.length_singleton, ← hlacks]
    omega

/-- A crew without workers lacks those that it starts with. -/
theorem Vacant.lacks (h : b.Vacant u) (hpos : ∀ c ∈ b.unitConfigs.toList, 0 < c.maxWorkers.toNat)
    (hx : b.units[u]? = some x) : b.Lacks u (b.initialWorkers x) := by
  intro y hy
  obtain rfl := Option.some.inj (hx.symm.trans hy)
  rw [h x hx]
  exact ⟨fun _ => Nat.zero_add _, fun h => absurd h (initialWorkers_pos hpos hx).ne'⟩

end Broker

/-- What a step of a crew puts in its place goes by what is known. -/
theorem CrewStep.plans {me : Caller} {ch : Choices} {b : Broker} {turn : Turn} {st : CrewStep}
    (hpos : ∀ c ∈ b.unitConfigs.toList, 0 < c.maxWorkers.toNat)
    (h : st.run me ch b = some turn) (hplans : (Action.crew st).Plans b) :
    ∀ a ∈ turn.next, a.Plans turn.broker := by
  have none {b' : Broker} {a : Action} (h : a ∈ ([] : List Action)) : a.Plans b' :=
    absurd h List.not_mem_nil
  have one {b' : Broker} {a a' : Action} (ha : a.Plans b') (h : a' ∈ [a]) : a'.Plans b' :=
    List.mem_singleton.1 h ▸ ha
  cases st with
  | grow u =>
    rw [run] at h
    repeat' split at h
    all_goals obtain rfl := Option.some.inj h
    · exact fun _ => one trivial
    · exact fun _ => none
    · exact fun _ => one hplans
  | depth u n =>
    rw [run] at h
    repeat' split at h
    all_goals obtain rfl := Option.some.inj h
    · exact fun _ => one trivial
    · exact fun _ => one hplans
  | weigh u n k =>
    rw [run] at h
    simp only at h
    repeat' split at h
    all_goals obtain rfl := Option.some.inj h
    · exact fun _ => one trivial
    · exact fun _ => none
    · rename_i unit hu _
      refine fun _ => one ⟨hplans, fun x hx => ?_⟩
      obtain rfl := Option.some.inj (hu.symm.trans hx)
      exact unit.desiredWorkers_le _ _ _
  | expand u d =>
    rw [run] at h
    split at h
    all_goals obtain rfl := Option.some.inj h
    · exact fun _ => none
    · exact fun _ => one hplans
  | hire u d =>
    rw [run] at h
    repeat' split at h
    all_goals obtain rfl := Option.some.inj h
    · exact fun _ => one trivial
    · exact fun _ => one ⟨hplans.1.hire, hplans.2.hire⟩
    · exact fun _ => none
  | launch us =>
    cases us with
    | nil =>
      obtain rfl := Option.some.inj h
      exact fun _ => one trivial
    | cons u us =>
      rw [run] at h
      repeat' split at h
      · obtain rfl := Option.some.inj h
        exact fun _ => one trivial
      · cases h
      · rename_i unit hu _
        obtain rfl := Option.some.inj h
        obtain ⟨hnodup, hvacant⟩ := hplans
        exact fun _ => one ⟨hnodup, fun v hv => hvacant v (List.mem_cons_of_mem _ hv),
          (hvacant u List.mem_cons_self).lacks hpos hu⟩
  | staff u n us =>
    obtain ⟨hnodup, hvacant, hlacks⟩ := hplans
    cases n with
    | zero =>
      obtain rfl := Option.some.inj h
      exact fun _ => one ⟨(List.nodup_cons.1 hnodup).2, hvacant⟩
    | succ n =>
      rw [run] at h
      repeat' split at h
      all_goals obtain rfl := Option.some.inj h
      · exact fun _ => one trivial
      · refine fun _ => one ⟨hnodup, fun v hv => (hvacant v hv).hire ?_, hlacks.hire ‹_›⟩
        rintro rfl
        exact (List.nodup_cons.1 hnodup).1 hv
      · intro a ha
        rcases List.mem_pair.1 ha with rfl | rfl <;> trivial
  | «open» =>
    obtain rfl := Option.some.inj h
    exact fun _ => none

namespace System

variable {s : System} {m : Move} {u : UnitId} {n : Nat} {x : TierUnit} {a a' : Action}
  {others : Multiset Action}

/-! ### What moves leave true -/

theorem elastic_move (hs : s.Lawful) (m : Move) (h : s.broker.Elastic u) :
    (s.move m).broker.Elastic u := by
  refine ⟨(s.config_move m).symm ▸ h.1, fun x' hx' => ?_⟩
  obtain ⟨x, hx, -, -, hcrew⟩ := crew_change hs m hx'
  exact hcrew.ne_nil (h.2 x hx)

theorem admits_move (hs : s.Lawful) (m : Move) (h : s.broker.Admits u n) :
    (s.move m).broker.Admits u n := by
  intro x' hx'
  obtain ⟨x, hx, hconfig, -, -⟩ := crew_change hs m hx'
  exact hconfig ▸ h x hx

theorem initialWorkers_move (m : Move) {x' : TierUnit} (hconfig : x'.config = x.config) :
    (s.move m).broker.initialWorkers x' = s.broker.initialWorkers x := by
  rw [Broker.initialWorkers, Broker.initialWorkers, config_move, hconfig]

/-- The actions of crews that are pending go by what is known, and one thread starts crews. -/
structure Planned (s : System) : Prop where
  /-- Units may have workers. -/
  workers : ∀ c ∈ s.broker.unitConfigs.toList, 0 < c.maxWorkers.toNat
  /-- What is pending goes by what is known. -/
  plans : ∀ a ∈ s.pending, a.Plans s.broker
  /-- One thread starts crews. -/
  alone : s.pending.countP (·.starts) ≤ 1

namespace Planned

theorem maxWorkers_pos (h : s.Planned) (hx : s.broker.units[u]? = some x) :
    0 < x.config.maxWorkers.toNat := by
  refine h.workers _ (Table.mem_toList_iff.2 ⟨u, ?_⟩)
  rw [Broker.unitConfigs, Table.getElem?_map, hx, Option.map_some]

/-- A crew that is enlarged has a worker. -/
theorem hires (h : s.Planned) (hires : s.Hires m u x) :
    (∃ d, s.broker.Elastic u ∧ s.broker.Admits u d ∧ x.crew.live.length < d ∧
        s.ran m = some (.crew (.hire u d))) ∨
      ∃ n us, s.broker.Lacks u (n + 1) ∧ s.ran m = some (.crew (.staff u (n + 1) us)) := by
  have hplans {a : Action} (hran : s.ran m = some a) : a.Plans s.broker := by
    obtain ⟨i, ch, th, rest, turn, hruns⟩ := exists_runs hran
    exact h.plans a hruns.mem_pending
  cases hires with
  | grow hran hroom => exact .inl ⟨_, (hplans hran).1, (hplans hran).2, hroom, hran⟩
  | staff hran => exact .inr ⟨_, _, (hplans hran).2.2, hran⟩

/-- While a step that starts crews is to come, no other one is run. -/
theorem not_starts (h : s.Planned) (hpending : s.pending = others + ↑(s.ran m).toList)
    (ha' : a' ∈ others) (hstarts : a'.starts = true) (hran : s.ran m = some a) :
    a.starts = false := by
  have halone := h.alone
  rw [hpending, hran, Multiset.countP_add, Option.toList_some, Multiset.coe_singleton] at halone
  have hpos : 0 < others.countP (·.starts) := Multiset.countP_pos.2 ⟨a', ha', hstarts⟩
  by_contra hne
  rw [Bool.not_eq_false] at hne
  have hone : ({a} : Multiset Action).countP (·.starts) = 1 :=
    Multiset.countP_eq_card.2 fun b hb => Multiset.mem_singleton.1 hb ▸ hne
  omega

/-- A unit whose crew is still to be started stays without workers. -/
theorem vacant_move (h : s.Planned) (hs : s.Lawful)
    (hran : ∀ a, s.ran m = some a → a.starts = false) (hu : s.broker.Vacant u) :
    (s.move m).broker.Vacant u := by
  intro x' hx'
  obtain ⟨x, hx, -, -, hcrew⟩ := crew_change hs m hx'
  have hlive := hu x hx
  generalize x'.crew = crew at hcrew ⊢
  cases hcrew with
  | stay => exact hlive
  | join hhires =>
    rcases h.hires hhires with ⟨d, helastic, -⟩ | ⟨n, us, -, hstaff⟩
    · exact absurd hlive (helastic.2 x hx)
    · cases hran _ hstaff
  | leave _ hws =>
    rw [hlive] at hws
    exact absurd hws.symm (List.append_ne_nil_of_right_ne_nil _ (List.cons_ne_nil _ _))

/-- A crew that is being started lacks the same workers after a step of another thread. -/
theorem lacks_move (h : s.Planned) (hs : s.Lawful)
    (hran : ∀ a, s.ran m = some a → a.starts = false) (hu : s.broker.Lacks u n) :
    (s.move m).broker.Lacks u n := by
  intro x' hx'
  obtain ⟨x, hx, hconfig, -, hcrew⟩ := crew_change hs m hx'
  obtain ⟨hmissing, hlast⟩ := hu x hx
  refine ⟨fun hn => ?_, fun hn => hcrew.ne_nil (hlast hn)⟩
  rw [config_move] at hn
  rw [initialWorkers_move m hconfig, ← hmissing hn]
  generalize x'.crew = crew at hcrew ⊢
  cases hcrew with
  | stay => rfl
  | join hhires =>
    rcases h.hires hhires with ⟨d, ⟨hdynamic, hne⟩, -⟩ | ⟨k, us, -, hstaff⟩
    · have hlen := List.length_pos_of_ne_nil (hne x hx)
      have htotal := hmissing hn
      rw [Broker.initialWorkers_of_dynamic hdynamic] at htotal
      rcases hn with hn | hstatic
      · omega
      · cases hdynamic.symm.trans hstatic
    · cases hran _ hstaff
  | leave _ hws hmin hdynamic =>
    have htotal := hmissing hn
    rw [Broker.initialWorkers_of_dynamic hdynamic] at htotal
    have hone := (Nat.le_max_right x.config.minWorkers.toNat 1).trans_lt hmin
    omega

/-- What is pending and is not run goes by what is known after a move. -/
theorem plans_move (h : s.Planned) (hs : s.Lawful)
    (hpending : s.pending = others + ↑(s.ran m).toList) (ha : a ∈ others) :
    a.Plans (s.move m).broker := by
  have hplans : a.Plans s.broker := h.plans a (hpending ▸ Multiset.mem_add.2 (.inl ha))
  have hran (hstarts : a.starts = true) : ∀ a', s.ran m = some a' → a'.starts = false :=
    fun _ => h.not_starts hpending ha hstarts
  cases a with
  | crew st =>
    cases st with
    | grow u | depth u n | weigh u n k => exact elastic_move hs m hplans
    | expand u d | hire u d => exact ⟨elastic_move hs m hplans.1, admits_move hs m hplans.2⟩
    | launch us => exact ⟨hplans.1, fun v hv => h.vacant_move hs (hran rfl) (hplans.2 v hv)⟩
    | staff u n us =>
      exact ⟨hplans.1, fun v hv => h.vacant_move hs (hran rfl) (hplans.2.1 v hv),
        h.lacks_move hs (hran rfl) hplans.2.2⟩
    | «open» => trivial
  | _ => trivial

end Planned

/-! ### What moves bring -/

/-- Steps of crews come from steps of crews, and from workers that have finished a task. -/
theorem Runs.crew_of_brings {i : ThreadId} {ch : Choices} {th : Thread} {rest : List Action}
    {turn : Turn} (hs : s.Lawful) (h : s.Runs m i ch th a rest turn) (ha' : a' ∈ turn.brings)
    (hkind : a'.kind = .crew) :
    (∃ st, a = .crew st ∧ a' ∈ turn.next) ∨
      ∃ w worker, a = .worker w .settle ∧ s.broker.workers[w]? = some worker ∧
        s.broker.config.dynamicPool = true ∧ a' = .crew (.grow worker.unit) := by
  have hnext : a' ∈ turn.next := by
    refine (List.mem_append.1 ha').resolve_right fun hhired => ?_
    obtain ⟨w, -, rfl⟩ := List.mem_map.1 hhired
    cases hkind
  have hbrings := Action.brings_of_run h.run a' hnext
  rw [hkind] at hbrings
  have hrun := h.run
  cases a with
  | crew st => exact .inl ⟨st, rfl, hnext⟩
  | worker w st =>
    right
    cases st with
    | settle =>
      have hknown := hs.known _ (mem_duties.2 ⟨_, h.mem_pending, rfl⟩)
      obtain ⟨worker, unit, hw, -, hrun⟩ := Action.worker_run hs.sound hknown.1 h.run
      obtain rfl := Option.some.inj hrun
      refine ⟨w, worker, rfl, hw, ?_⟩
      rcases List.mem_append.1 hnext with hgrow | hround
      · split at hgrow
        · exact ⟨‹_›, List.mem_singleton.1 hgrow⟩
        · exact absurd hgrow List.not_mem_nil
      · rw [List.mem_singleton.1 hround] at hkind
        cases hkind
    | _ => cases hbrings
  | request st => cases st <;> cases hbrings
  | control st => cases st <;> cases hbrings
  | task st => rcases Action.kind_task st with hk | hk <;> rw [hk] at hbrings <;> cases hbrings
  | _ => cases hbrings

/-- A step that starts crews brings at most one, and no other step brings any. -/
theorem CrewStep.countP_brings {me : Caller} {ch : Choices} {b : Broker} {turn : Turn}
    {st : CrewStep} (h : st.run me ch b = some turn) :
    turn.brings.countP (·.starts) ≤ [Action.crew st].countP (·.starts) := by
  rcases st with u | ⟨u, n⟩ | ⟨u, n, k⟩ | ⟨u, n⟩ | ⟨u, n⟩ | (_ | ⟨u, us⟩) | ⟨u, _ | n, us⟩ | _ <;>
    rw [CrewStep.run] at h <;> (try simp only at h) <;> repeat' split at h
  all_goals first
    | (obtain rfl := Option.some.inj h
       first | exact Nat.zero_le _ | exact le_rfl)
    | cases h

theorem Brings.countP_starts {new : List Action} (hs : s.Lawful) (h : s.Brings m new) :
    new.countP (·.starts) ≤ (s.ran m).toList.countP (·.starts) := by
  cases h with
  | @call c n h =>
    have hzero : c.agenda.countP (·.starts) = 0 :=
      List.countP_eq_zero.2 fun a ha => by rw [(Call.none_of_mem ha).2.2.2]; exact Bool.false_ne_true
    exact hzero.trans_le (Nat.zero_le _)
  | nothing h => exact Nat.zero_le _
  | @step i ch th a rest turn h =>
    rw [h.ran, Option.toList_some]
    have hrun := h.run
    by_cases hcrew : ∃ st, a = .crew st
    · obtain ⟨st, rfl⟩ := hcrew
      exact CrewStep.countP_brings h.run
    · refine (List.countP_eq_zero.2 fun a' ha' hstarts => ?_).trans_le (Nat.zero_le _)
      have hkind : a'.kind = .crew := by
        cases a' <;> first | rfl | cases hstarts
      rcases h.crew_of_brings hs ha' hkind with ⟨st, rfl, -⟩ | ⟨w, worker, -, -, -, rfl⟩
      · exact hcrew ⟨st, rfl⟩
      · cases hstarts

/-! ### Every state -/

/-- Crews are within their bounds, and who is at which position is known. -/
structure Mustered (s : System) : Prop where
  /-- What is pending goes by what is known. -/
  planned : s.Planned
  /-- No crew has more workers than it may have. -/
  most : ∀ {u : UnitId} {x : TierUnit}, s.broker.units[u]? = some x →
    x.crew.live.length ≤ x.config.maxWorkers.toNat
  /-- The published number is that of the workers. -/
  count : ∀ {u : UnitId} {x : TierUnit}, s.broker.units[u]? = some x →
    x.crew.count = x.crew.live.length ∧ x.crew.live.length ≤ x.crew.peak
  /-- Each worker has the badge of its position. -/
  place : ∀ {u : UnitId} {x : TierUnit}, s.broker.units[u]? = some x → ∀ {i : Nat} {w : WorkerId},
    x.crew.live[i]? = some w →
      ∃ worker, s.broker.workers[w]? = some worker ∧ worker.badge = x.badge u i
  /-- A unit that ever had a worker has one. -/
  manned : ∀ {w : WorkerId} {worker : Worker} {x : TierUnit}, s.broker.workers[w]? = some worker →
    s.broker.units[worker.unit]? = some x → x.crew.live ≠ []

namespace Mustered

/-- What a move brings goes by what is known after it. -/
theorem plans_brings (h : s.Mustered) (hs : s.Lawful) {new : List Action} (hnew : s.Brings m new) :
    ∀ a ∈ new, a.Plans (s.move m).broker := by
  intro a' ha'
  by_cases hkind : a'.kind = .crew
  · cases hnew with
    | call _ =>
      have hcall := Call.kind_of_mem ha'
      rw [hkind] at hcall
      exact absurd hcall (by decide)
    | nothing _ => exact absurd ha' List.not_mem_nil
    | @step i ch th a rest turn hruns =>
      rw [hruns.turned, broker_turned]
      rcases hruns.crew_of_brings hs ha' hkind with ⟨st, rfl, hnext⟩ | ⟨w, worker, rfl, hw, hd, rfl⟩
      · exact CrewStep.plans h.planned.workers hruns.run (h.planned.plans _ hruns.mem_pending) _ hnext
      · have helastic : s.broker.Elastic worker.unit := ⟨hd, fun x hx => h.manned hw hx⟩
        have hmove := elastic_move hs m helastic
        rwa [hruns.turned, broker_turned] at hmove
  · exact Action.plans_of_kind hkind

theorem planned_move (h : s.Mustered) (hs : s.Lawful) (m : Move) : (s.move m).Planned := by
  obtain ⟨others, new, hnew, hpending, hmove⟩ := s.exists_pending_move m
  refine ⟨s.unitConfigs_move m ▸ h.planned.workers, fun a ha => ?_, ?_⟩
  · rw [hmove, Multiset.mem_add] at ha
    rcases ha with ha | ha
    · exact h.planned.plans_move hs hpending ha
    · exact h.plans_brings hs hnew a ha
  · have halone := h.planned.alone
    have hstarts := hnew.countP_starts hs
    rw [hpending, Multiset.countP_add, Multiset.coe_countP] at halone
    rw [hmove, Multiset.countP_add, Multiset.coe_countP]
    simp only [Bool.decide_eq_true] at halone ⊢
    omega

theorem move (h : s.Mustered) (hs : s.Lawful) (m : Move) : (s.move m).Mustered := by
  refine ⟨h.planned_move hs m, fun {u x'} hx' => ?_, fun {u x'} hx' => ?_,
    fun {u x'} hx' {i w} hi => ?_, fun {w worker' x'} hw hx' => ?_⟩
  all_goals obtain ⟨x, hx, hconfig, hkind, hcrew⟩ := crew_change hs m hx'
  · rw [hconfig]
    generalize x'.crew = crew at hcrew ⊢
    cases hcrew with
    | stay => exact h.most hx
    | join hhires =>
      rw [Crew.publish, List.length_append, List.length_singleton]
      rcases h.planned.hires hhires with ⟨d, -, hadmits, hroom, -⟩ | ⟨n, us, hlacks, -⟩
      · exact hroom.trans_le (hadmits x hx)
      · have hmissing := (hlacks x hx).1 (.inl n.succ_pos)
        have hle := Broker.initialWorkers_le (b := s.broker) (h.planned.maxWorkers_pos hx)
        omega
    | leave _ hlive =>
      have hmost := h.most hx
      rw [hlive, List.length_append] at hmost
      exact (Nat.le_add_right _ _).trans hmost
  · generalize x'.crew = crew at hcrew ⊢
    cases hcrew with
    | stay => exact h.count hx
    | join | leave => exact ⟨rfl, Nat.le_max_right _ _⟩
  · have hbadge : x'.badge u i = x.badge u i := by rw [TierUnit.badge, TierUnit.badge, hconfig, hkind]
    have stay (hi : x.crew.live[i]? = some w) :
        ∃ worker, (s.move m).broker.workers[w]? = some worker ∧ worker.badge = x'.badge u i := by
      obtain ⟨worker, hw, hold⟩ := h.place hx hi
      obtain ⟨worker', hw', hnew⟩ := exists_worker_move hs m hw
      exact ⟨worker', hw', by rw [hnew, hold, hbadge]⟩
    generalize x'.crew = crew at hcrew hi
    cases hcrew with
    | stay => exact stay hi
    | @join worker _ hw hnew =>
      rw [Crew.publish, List.getElem?_append] at hi
      split at hi
      · exact stay hi
      · obtain ⟨hlen, hi⟩ := List.getElem?_eq_some_iff.1 hi
        have hi' : i = x.crew.live.length := by
          rw [List.length_singleton] at hlen
          omega
        rw [List.getElem_singleton] at hi
        subst hi
        exact ⟨worker, hw, by rw [hnew, hbadge, hi', Broker.badge_newWorker]⟩
    | @leave w' ws _ hlive =>
      have hlt : i < ws.length := (List.getElem?_eq_some_iff.1 hi).1
      exact stay ((hlive ▸ List.getElem?_append_left hlt).trans hi)
  · rcases worker_move hs m hw with ⟨worker, hold, hbadge⟩ | ⟨v, y, hy, hhires, hbadge, hb⟩
    · have hunit : worker'.unit = worker.unit := congrArg Badge.unit hbadge
      exact hcrew.ne_nil (h.manned hold (hunit ▸ hx))
    · have hunit : worker'.unit = v := congrArg Badge.unit hbadge
      rw [hb, hunit, Broker.hire] at hx'
      obtain rfl := Option.some.inj ((Table.getElem?_modify_self hy _).symm.trans hx')
      exact List.append_ne_nil_of_right_ne_nil _ (List.cons_ne_nil _ _)

end Mustered

theorem mustered_launch {b : Broker} {config : Config} {parts : Broker.Parts}
    (hb : Broker.assemble config parts = .ok b) : (launch b).Mustered := by
  have hworkers : b.workers = .empty := (Broker.fresh_assemble hb).workers
  have hcrew {u : UnitId} {x : TierUnit} (hx : b.units[u]? = some x) : x.crew = {} := by
    obtain ⟨t, -, kind, rfl⟩ := Broker.unit_of_assemble hb x (Table.mem_toList_iff.2 ⟨u, hx⟩)
    rfl
  refine ⟨⟨Broker.maxWorkers_of_assemble hb, fun a ha => ?_, ?_⟩, fun hx => ?_, fun hx => ?_,
    fun {u x} hx {i w} hi => ?_, fun {w worker x} hw => ?_⟩
  · rw [mem_pending_launch ha]
    exact ⟨List.nodup_range, fun v _ x hx => by rw [hcrew hx]⟩
  · exact le_rfl
  · rw [hcrew hx]
    exact Nat.zero_le _
  · rw [hcrew hx]
    exact ⟨rfl, le_rfl⟩
  · rw [hcrew hx] at hi
    cases hi
  · rw [show (launch b).broker.workers = .empty from hworkers] at hw
    cases hw

/-- In every state that a system can get into, crews are within their bounds. -/
theorem Reachable.mustered {b : Broker} {config : Config} {parts : Broker.Parts}
    (hb : Broker.assemble config parts = .ok b) (h : Reachable (launch b) s) : s.Mustered := by
  induction h with
  | first => exact mustered_launch hb
  | move m hr ih => exact ih.move (hr.lawful (Broker.fresh_assemble hb)) m

end System

end JitBroker
