import JitBroker.Proofs.Fittings
import JitBroker.Proofs.Kinds

/-!
# How crews change

A crew changes in two ways: a worker joins it at the end, when the crew is started or enlarged, and
the last worker leaves it, when it retires. Either way the new number of workers is published. So a
worker keeps the place in its crew that it was hired for.

* `System.crew_change`: what a move makes of each crew;
* `System.worker_move`: what it makes of each worker.
-/

namespace JitBroker

namespace System

variable {s : System} {m : Move} {i : ThreadId} {ch : Choices} {th : Thread} {a : Action}
  {rest : List Action} {turn : Turn} {u : UnitId} {x x' : TierUnit}

/-! ### Moves and crews -/

/-- A move runs an action that hires a worker for a unit. -/
inductive Hires (s : System) (m : Move) (u : UnitId) (x : TierUnit) : Prop where
  /-- It enlarges the crew. -/
  | grow {d : Nat} (hran : s.ran m = some (.crew (.hire u d))) (hroom : x.crew.live.length < d)
  /-- It starts the crew. -/
  | staff {n : Nat} {rest : List UnitId} (hran : s.ran m = some (.crew (.staff u (n + 1) rest)))

/-- What a move does with the crews. -/
inductive CrewMove (s : System) (m : Move) : Prop where
  /-- Nothing. -/
  | same (hunits : (s.move m).broker.units.map TierUnit.roster = s.broker.units.map TierUnit.roster)
    (hbadges : (s.move m).broker.workers.map Worker.badge = s.broker.workers.map Worker.badge)
  /-- A worker is hired. -/
  | hire {u : UnitId} {x : TierUnit} (hu : s.broker.units[u]? = some x) (h : s.Hires m u x)
    (hb : (s.move m).broker = s.broker.hire u x)
  /-- A worker retires. -/
  | retire {w : WorkerId} {worker : Worker} {x : TierUnit}
    (hran : s.ran m = some (.worker w .retire)) (hu : s.broker.units[worker.unit]? = some x)
    (hasks : s.broker.asksToRetire worker x = true)
    (hmay : s.broker.mayRetire w worker x = true)
    (hb : (s.move m).broker = s.broker.retireLast worker.unit w)

theorem crewMove (hs : s.Lawful) (m : Move) : s.CrewMove m := by
  rcases s.move_cases hs m with ⟨o, -, hb⟩ | ⟨hop, ⟨-, hb⟩ | ⟨i, ch, th, a, rest, turn, h⟩⟩
  · have hkeep := s.broker.operate_operated o
    exact .same (by rw [hb, hkeep.units]) (by rw [hb, hkeep.workers])
  · exact .same (by rw [hb]) (by rw [hb])
  · have hb := congrArg System.broker h.turned
    have hran := h.ran
    have same {b' : Broker} (h : (s.move m).broker = b')
        (hunits : b'.units.map TierUnit.roster = s.broker.units.map TierUnit.roster)
        (hworkers : b'.workers.map Worker.badge = s.broker.workers.map Worker.badge) :
        s.CrewMove m := .same (by rw [h, hunits]) (by rw [h, hworkers])
    cases Action.refits h.run with
    | keeps hfit => exact same hb hfit.crews hfit.badges
    | retire hw hu hasks hmay => exact .retire hran hu hasks hmay hb
    | hire hu hroom => exact .hire hu (.grow hran hroom) hb
    | staff hu => exact .hire hu (.staff hran) hb
    | operate ho => exact absurd ho (h.not_operate hop)
    | _ => exact same hb rfl rfl

/-! ### Each crew -/

/-- What a move makes of a crew. -/
inductive CrewChange (s : System) (m : Move) (u : UnitId) (x : TierUnit) : Crew → Prop where
  /-- It stays as it is. -/
  | stay : CrewChange s m u x x.crew
  /-- A worker joins it. -/
  | join {worker : Worker} (h : s.Hires m u x)
    (hw : (s.move m).broker.workers[s.broker.workers.size]? = some worker)
    (hbadge : worker.badge = (s.broker.newWorker u x).badge) :
    CrewChange s m u x (x.crew.publish (x.crew.live ++ [s.broker.workers.size]))
  /-- Its last worker leaves it. -/
  | leave {w : WorkerId} {ws : List WorkerId} (hran : s.ran m = some (.worker w .retire))
    (hlive : x.crew.live = ws ++ [w])
    (hmin : max x.config.minWorkers.toNat 1 < x.crew.live.length)
    (hdynamic : s.broker.config.dynamicPool = true) :
    CrewChange s m u x (x.crew.publish ws)

theorem exists_of_roster {b b' : Broker}
    (h : b'.units.map TierUnit.roster = b.units.map TierUnit.roster)
    (hx' : b'.units[u]? = some x') :
    ∃ x, b.units[u]? = some x ∧ x'.kind = x.kind ∧ x'.crew = x.crew := by
  have hu := congrArg (·[u]?) h
  simp only [Table.getElem?_map, hx', Option.map_some] at hu
  obtain ⟨x, hx, heq⟩ := Option.map_eq_some_iff.1 hu.symm
  exact ⟨x, hx, (congrArg Prod.fst heq).symm, (congrArg Prod.snd heq).symm⟩

/-- What a move makes of each unit. -/
theorem crew_change (hs : s.Lawful) (m : Move) (hx' : (s.move m).broker.units[u]? = some x') :
    ∃ x, s.broker.units[u]? = some x ∧ x'.config = x.config ∧ x'.kind = x.kind ∧
      s.CrewChange m u x x'.crew := by
  have hconfig {x : TierUnit} (hx : s.broker.units[u]? = some x) : x'.config = x.config := by
    have hu := congrArg (·[u]?) (s.unitConfigs_move m)
    simp only [Broker.unitConfigs, Table.getElem?_map, hx, hx', Option.map_some] at hu
    exact Option.some.inj hu
  suffices ∃ x, s.broker.units[u]? = some x ∧ x'.kind = x.kind ∧ s.CrewChange m u x x'.crew by
    obtain ⟨x, hx, hkind, hcrew⟩ := this
    exact ⟨x, hx, hconfig hx, hkind, hcrew⟩
  cases s.crewMove hs m with
  | same hunits =>
    obtain ⟨x, hx, hkind, hcrew⟩ := exists_of_roster hunits hx'
    exact ⟨x, hx, hkind, hcrew ▸ .stay⟩
  | @hire v y hu h hb =>
    rw [hb] at hx'
    obtain ⟨x, hx, ⟨-, rfl⟩ | ⟨rfl, rfl⟩⟩ := Table.exists_of_modify hx'
    · exact ⟨x', hx, rfl, .stay⟩
    · obtain rfl := Option.some.inj (hx.symm.trans hu)
      refine ⟨x, hx, rfl, .join h ?_ rfl⟩
      rw [hb]
      exact Table.getElem?_add_self _ _
  | @retire w worker y hran hu hasks hmay hb =>
    rw [hb] at hx'
    obtain ⟨x, hx, ⟨-, rfl⟩ | ⟨rfl, rfl⟩⟩ := Table.exists_of_modify hx'
    · exact ⟨x', hx, rfl, .stay⟩
    · obtain rfl := Option.some.inj (hx.symm.trans hu)
      simp only [Broker.mayRetire, Bool.and_eq_true, beq_iff_eq, decide_eq_true_eq] at hmay
      obtain ⟨ws, hws⟩ := List.getLast?_eq_some_iff.1 hmay.1.2
      simp only [Broker.asksToRetire, Bool.and_eq_true] at hasks
      refine ⟨x, hx, rfl, ?_⟩
      simp only [hws, List.dropLast_concat]
      exact .leave hran hws hmay.1.1 hasks.1.1

/-- A crew that has a worker has one after a move. -/
theorem CrewChange.ne_nil {crew : Crew} (h : s.CrewChange m u x crew) (hx : x.crew.live ≠ []) :
    crew.live ≠ [] := by
  cases h with
  | stay => exact hx
  | join => exact List.append_ne_nil_of_right_ne_nil _ (List.cons_ne_nil _ _)
  | @leave w ws hran hlive hmin =>
    rintro rfl
    have hone : 1 < x.crew.live.length := (Nat.le_max_right _ _).trans_lt hmin
    rw [hlive] at hone
    exact absurd hone (Nat.lt_irrefl 1)

/-! ### Each worker -/

/-- A worker after a move was there before, with the same badge, or is hired. -/
theorem worker_move (hs : s.Lawful) (m : Move) {w : WorkerId} {worker' : Worker}
    (hw : (s.move m).broker.workers[w]? = some worker') :
    (∃ worker, s.broker.workers[w]? = some worker ∧ worker'.badge = worker.badge) ∨
      ∃ u x, s.broker.units[u]? = some x ∧ s.Hires m u x ∧
        worker'.badge = (s.broker.newWorker u x).badge ∧
        (s.move m).broker = s.broker.hire u x := by
  cases s.crewMove hs m with
  | same hunits hbadges =>
    have h := congrArg (·[w]?) hbadges
    simp only [Table.getElem?_map, hw, Option.map_some] at h
    obtain ⟨worker, hold, hbadge⟩ := Option.map_eq_some_iff.1 h.symm
    exact .inl ⟨worker, hold, hbadge.symm⟩
  | @hire u x hu h hb =>
    have hw' := hw
    rw [hb, Broker.hire, Table.getElem?_add] at hw'
    split at hw'
    · obtain rfl := Option.some.inj hw'
      exact .inr ⟨u, x, hu, h, rfl, hb⟩
    · exact .inl ⟨worker', hw', rfl⟩
  | retire hran hu hasks hmay hb =>
    rw [hb] at hw
    exact .inl ⟨worker', hw, rfl⟩

/-- A worker that was there before a move is there after it, with the same badge. -/
theorem exists_worker_move (hs : s.Lawful) (m : Move) {w : WorkerId} {worker : Worker}
    (hw : s.broker.workers[w]? = some worker) :
    ∃ worker', (s.move m).broker.workers[w]? = some worker' ∧ worker'.badge = worker.badge := by
  cases s.crewMove hs m with
  | same hunits hbadges =>
    have h := congrArg (·[w]?) hbadges
    simp only [Table.getElem?_map, hw, Option.map_some] at h
    exact Option.map_eq_some_iff.1 h
  | hire hu h hb =>
    rw [hb]
    exact ⟨worker, (Table.getElem?_add_of_lt (Table.lt_size_of_getElem? hw) _).trans hw, rfl⟩
  | retire hran hu hasks hmay hb =>
    rw [hb]
    exact ⟨worker, hw, rfl⟩

end System

end JitBroker
