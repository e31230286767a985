import JitBroker.Proofs.Books.Accounts
import JitBroker.Proofs.Crew.Muster

/-!
# The strength of crews

From the time that a crew is started it has a worker, and never more than it may have. Its workers
stand in the order of their indices: whoever is hired comes last, and only the last one retires, if
the crew has more workers than it has to keep. So the workers of a crew are told apart by their
names, a crew that has the workers that it has to keep never has fewer, and one that does not change
in size has all it may have (`System.crew_of_run`).
-/

namespace JitBroker

/-- Positions are told apart by the names that belong to them. -/
theorem TierUnit.name_badge_injective (x : TierUnit) (u : UnitId) :
    Function.Injective fun i => (x.badge u i).name := by
  intro i j h
  have hdigits : Nat.toDigits 10 i = Nat.toDigits 10 j := by
    simpa [badge] using congrArg String.toList h
  rw [← @Nat.ofDigitChars_ten_toDigits i, hdigits, Nat.ofDigitChars_ten_toDigits]

namespace System

variable {s first : System} {m : Move} {u : UnitId} {x x' : TierUnit} {ms : List Move}

/-- How many workers a crew has. -/
def strength (u : UnitId) (s : System) : Nat := (s.broker.units[u]?.map (·.crew.live.length)).getD 0

/-- The most that it ever had, as it is published. -/
def crewPeak (u : UnitId) (s : System) : Nat := (s.broker.units[u]?.map (·.crew.peak)).getD 0

theorem getElem?_units_move (m : Move) (hx : s.broker.units[u]? = some x) :
    ∃ x', (s.move m).broker.units[u]? = some x' := by
  refine Table.exists_getElem? ?_
  rw [Broker.size_units_of_steady (s.unitConfigs_move m)]
  exact Table.lt_size_of_getElem? hx

/-- The peak of a crew is raised by a worker that joins it, if need be, and by nothing else. -/
theorem crewPeak_move (hs : s.Lawful) (h : s.Mustered) (u : UnitId) (m : Move) :
    (s.move m).crewPeak u = max (s.crewPeak u) ((s.move m).strength u) := by
  unfold crewPeak strength
  cases hx' : (s.move m).broker.units[u]? with
  | none =>
    have hnone : s.broker.units[u]? = none := by
      by_contra hsome
      obtain ⟨x, hx⟩ := Option.ne_none_iff_exists'.1 hsome
      obtain ⟨x', hmove⟩ := getElem?_units_move m hx
      cases hx'.symm.trans hmove
    rw [hnone]
    rfl
  | some x' =>
    obtain ⟨x, hx, -, -, hcrew⟩ := crew_change hs m hx'
    rw [hx, Option.map_some, Option.map_some, Option.map_some, Option.getD_some, Option.getD_some,
      Option.getD_some]
    generalize x'.crew = crew at hcrew ⊢
    cases hcrew with
    | stay => exact (Nat.max_eq_left (h.count hx).2).symm
    | join | leave => rfl

theorem crewPeak_of_run {b : Broker} {config : Config} {parts : Broker.Parts}
    (hb : Broker.assemble config parts = .ok b) (u : UnitId) (ms : List Move) :
    (launch b).IsPeak ms (strength u) ((ms.foldl move (launch b)).crewPeak u) := by
  refine isPeak_of_move _ (crewPeak u) ?_ (fun m hr => ?_) ms
  · unfold crewPeak strength
    cases hx : (launch b).broker.units[u]? with
    | none => rfl
    | some x =>
      obtain ⟨t, -, kind, rfl⟩ := Broker.unit_of_assemble hb x (Table.mem_toList_iff.2 ⟨u, hx⟩)
      rfl
  · exact crewPeak_move (hr.lawful (Broker.fresh_assemble hb)) (hr.mustered hb) u m

/-! ### Crews that are started -/

/-- Hiring for a crew of a fixed size is part of starting it. -/
theorem Planned.hires_of_static (h : s.Planned) (hstatic : s.broker.config.dynamicPool = false)
    (hx : s.broker.units[u]? = some x) (hhires : s.Hires m u x) :
    x.crew.live.length < x.config.maxWorkers.toNat := by
  rcases h.hires hhires with ⟨d, ⟨hdynamic, -⟩, -⟩ | ⟨n, us, hlacks, -⟩
  · cases hdynamic.symm.trans hstatic
  · have hmissing := (hlacks x hx).1 (.inl n.succ_pos)
    rw [Broker.initialWorkers_of_static hstatic] at hmissing
    omega

/-- A crew that is started has a worker, and all it may have if it does not change in size. -/
def Complete (s : System) (u : UnitId) : Prop :=
  ∀ x, s.broker.units[u]? = some x → x.crew.live ≠ [] ∧
    (s.broker.config.dynamicPool = false → x.crew.live.length = x.config.maxWorkers.toNat)

/-- It stays so. -/
theorem Complete.move (h : s.Complete u) (hp : s.Planned) (hs : s.Lawful) (m : Move) :
    (s.move m).Complete u := by
  intro x' hx'
  obtain ⟨x, hx, hconfig, -, hcrew⟩ := crew_change hs m hx'
  obtain ⟨hlive, hfull⟩ := h x hx
  refine ⟨hcrew.ne_nil hlive, fun hstatic => ?_⟩
  rw [config_move] at hstatic
  rw [hconfig]
  generalize x'.crew = crew at hcrew ⊢
  cases hcrew with
  | stay => exact hfull hstatic
  | join hhires => exact absurd (hfull hstatic) (hp.hires_of_static hstatic hx hhires).ne
  | leave _ _ _ hdynamic => cases hdynamic.symm.trans hstatic

/-- It is so when its start is over. -/
theorem Planned.complete_of_ran (h : s.Planned) {us : List UnitId}
    (hran : s.ran m = some (.crew (.staff u 0 us))) : s.Complete u := by
  obtain ⟨i, ch, th, rest, turn, hruns⟩ := exists_runs hran
  obtain ⟨-, -, hlacks⟩ := h.plans _ hruns.mem_pending
  intro x hx
  obtain ⟨hmissing, hlive⟩ := hlacks x hx
  refine ⟨hlive rfl, fun hstatic => ?_⟩
  rw [← Broker.initialWorkers_of_static hstatic, ← hmissing (.inr hstatic), Nat.add_zero]

/-- The start of a crew is over in a run. -/
def Enlisted (first : System) (ms : List Move) (u : UnitId) : Prop :=
  ∃ us, .crew (.staff u 0 us) ∈ first.trace ms

theorem Enlisted.complete {b : Broker} {config : Config} {parts : Broker.Parts}
    (hb : Broker.assemble config parts = .ok b) (h : Enlisted (launch b) ms u) :
    (ms.foldl move (launch b)).Complete u := by
  induction ms using List.reverseRecOn with
  | nil =>
    obtain ⟨us, h⟩ := h
    exact absurd h List.not_mem_nil
  | append_singleton ms m ih =>
    have hr : Reachable (launch b) (ms.foldl move (launch b)) := reachable_iff_foldl.2 ⟨ms, rfl⟩
    have hp := (hr.mustered hb).planned
    rw [List.foldl_concat]
    refine .move ?_ hp (hr.lawful (Broker.fresh_assemble hb)) m
    obtain ⟨us, h⟩ := h
    rw [trace_append, List.mem_append, trace, trace, List.append_nil] at h
    rcases h with h | h
    · exact ih ⟨us, h⟩
    · exact hp.complete_of_ran (Option.mem_toList.1 h)

/-! ### Crews that have whom they have to keep -/

/-- A crew has the workers that it has to keep. -/
def Keeps (s : System) (u : UnitId) (x : TierUnit) : Prop :=
  ∃ x', s.broker.units[u]? = some x' ∧ x'.config = x.config ∧
    x.config.minWorkers.toNat ≤ x'.crew.live.length

theorem Keeps.move (h : s.Keeps u x) (hs : s.Lawful) (m : Move) : (s.move m).Keeps u x := by
  obtain ⟨y, hy, hyx, hmin⟩ := h
  obtain ⟨y', hy'⟩ := getElem?_units_move m hy
  obtain ⟨z, hz, hconfig, -, hcrew⟩ := crew_change hs m hy'
  obtain rfl := Option.some.inj (hy.symm.trans hz)
  refine ⟨y', hy', hconfig.trans hyx, ?_⟩
  generalize y'.crew = crew at hcrew ⊢
  cases hcrew with
  | stay => exact hmin
  | join => exact hmin.trans (by rw [Crew.publish, List.length_append]; exact Nat.le_add_right _ _)
  | @leave w ws _ hlive hmax =>
    have hlt := (Nat.le_max_left y.config.minWorkers.toNat 1).trans_lt hmax
    rw [hlive, List.length_append, List.length_singleton, hyx] at hlt
    exact Nat.le_of_lt_succ hlt

theorem Keeps.foldl {b : Broker} (hb : b.Fresh) (hr : Reachable (launch b) s) (h : s.Keeps u x)
    (ms : List Move) : (ms.foldl System.move s).Keeps u x := by
  induction ms generalizing s with
  | nil => exact h
  | cons m ms ih => exact ih (hr.move m) (h.move (hr.lawful hb) m)

/-! ### Every run -/

/-- The crew of a unit after a run. -/
structure Crewed (first : System) (ms : List Move) (s : System) (u : UnitId) (x : TierUnit) : Prop where
  /-- It has no more workers than it may have. -/
  most : x.crew.live.length ≤ x.config.maxWorkers.toNat
  /-- From the time that it is started it has one. -/
  least : Enlisted first ms u → 1 ≤ x.crew.live.length
  /-- And all it may have, if crews do not change in size. -/
  full : Enlisted first ms u → s.broker.config.dynamicPool = false →
    x.crew.live.length = x.config.maxWorkers.toNat
  /-- Its workers stand in the order of their indices. -/
  place : x.crew.live.map (fun w => s.broker.workers[w]?.map Worker.badge) =
    (List.range x.crew.live.length).map fun i => some (x.badge u i)
  /-- They are told apart by their names. -/
  names : (x.crew.live.map fun w => s.broker.workers[w]?.map (·.name)).Nodup
  /-- Their number is published. -/
  count : x.crew.count = x.crew.live.length
  /-- And the largest number that there ever was. -/
  peak : first.IsPeak ms (strength u) x.crew.peak
  /-- A move lets a new worker come last, or the last one retire while there are more than there
  have to be, or leaves the crew alone. -/
  change : ∀ m, ∃ x', (s.move m).broker.units[u]? = some x' ∧ x'.config = x.config ∧
    s.CrewChange m u x x'.crew
  /-- If it has the workers that it has to keep, it always will. -/
  kept : x.config.minWorkers.toNat ≤ x.crew.live.length →
    ∀ ms' : List Move, (ms'.foldl move s).Keeps u x

theorem Mustered.map_badge (h : s.Mustered) (hx : s.broker.units[u]? = some x) :
    x.crew.live.map (fun w => s.broker.workers[w]?.map Worker.badge) =
      (List.range x.crew.live.length).map fun i => some (x.badge u i) := by
  refine List.ext_getElem? fun i => ?_
  rw [List.getElem?_map, List.getElem?_map]
  cases hi : x.crew.live[i]? with
  | none =>
    rw [List.getElem?_eq_none_iff] at hi
    rw [List.getElem?_eq_none_iff.2 (by rwa [List.length_range])]
    rfl
  | some w =>
    obtain ⟨worker, hw, hbadge⟩ := h.place hx hi
    rw [List.getElem?_range (List.getElem?_eq_some_iff.1 hi).1, Option.map_some, Option.map_some, hw,
      Option.map_some, hbadge]

theorem Mustered.names_nodup (h : s.Mustered) (hx : s.broker.units[u]? = some x) :
    (x.crew.live.map fun w => s.broker.workers[w]?.map (·.name)).Nodup := by
  have hnames : (x.crew.live.map fun w => s.broker.workers[w]?.map (·.name)) =
      (List.range x.crew.live.length).map fun i => some (x.badge u i).name := by
    have hbadges := congrArg (List.map (Option.map Badge.name)) (h.map_badge hx)
    simpa [Function.comp_def, Worker.badge] using hbadges
  rw [hnames]
  exact List.nodup_range.map fun i j hij => x.name_badge_injective u (Option.some.inj hij)

/-- In every run of a broker, whatever its workers do and in whatever order, each crew is within its
bounds, in the order of its indices and accounted for. -/
theorem crew_of_run {b : Broker} {config : Config} {parts : Broker.Parts}
    (hb : Broker.assemble config parts = .ok b) (ms : List Move)
    (hx : (ms.foldl move (launch b)).broker.units[u]? = some x) :
    Crewed (launch b) ms (ms.foldl move (launch b)) u x := by
  have hfresh := Broker.fresh_assemble hb
  have hr : Reachable (launch b) (ms.foldl move (launch b)) := reachable_iff_foldl.2 ⟨ms, rfl⟩
  have hm := hr.mustered hb
  have hpeak := crewPeak_of_run hb u ms
  rw [crewPeak, hx, Option.map_some, Option.getD_some] at hpeak
  refine ⟨hm.most hx, fun h => List.length_pos_of_ne_nil (h.complete hb x hx).1,
    fun h => (h.complete hb x hx).2, hm.map_badge hx, hm.names_nodup hx, (hm.count hx).1, hpeak,
    fun m => ?_, fun hmin => Keeps.foldl hfresh hr ⟨x, hx, rfl, hmin⟩⟩
  obtain ⟨x', hx'⟩ := getElem?_units_move m hx
  obtain ⟨y, hy, hconfig, -, hcrew⟩ := crew_change (hr.lawful hfresh) m hx'
  obtain rfl := Option.some.inj (hx.symm.trans hy)
  exact ⟨x', hx', hconfig, hcrew⟩

end System

/-! ### A crew that grows and shrinks -/

/-- A configuration with one tier, whose crew changes in size. -/
def Config.elastic : Config where
  dynamicPool := true
  reduceWorkersOnIdle := true
  tiers := [{ TierConfig.solo with maxWorkers := 3 }]

namespace Broker

/-- What a broker with memory for two workers is built from. -/
def Parts.elastic : Parts := { Parts.solo with freeMemory := 2 }

/-- A broker with one tier and up to two workers. -/
def elastic : Broker := (assemble .elastic .elastic).toOption.getD default

theorem assemble_elastic : assemble .elastic .elastic = .ok elastic := rfl

end Broker

namespace System

/-- Three tasks are queued, and the first worker hires a second one after the first of them. -/
def elasticGrown : List Move :=
  soloStart ++ [.operate (.addMethod { name := "g", className := "C" }),
      .operate (.addMethod { name := "h", className := "C" })]
    ++ soloRequest 2 0 ++ times 1 11 ++ soloRequest 3 1 ++ soloRequest 4 2
    ++ [.step 1 { move := some .finish }] ++ times 1 18

/-- The class of the others is unloaded, and the second worker finds nothing to do and retires. -/
def elasticShrunk : List Move :=
  elasticGrown ++ .operate (.unloadClass 0) :: times 5 23
    ++ [.operate (.pass 1000000), .step 5 { timeout := true }] ++ times 5 2

theorem crew_of_elasticShrunk :
    (∃ x, (elasticGrown.foldl move (launch .elastic)).broker.units[0]? = some x ∧
      x.crew = ⟨[0, 1], 2, 2⟩) ∧
    ∃ x, (elasticShrunk.foldl move (launch .elastic)).broker.units[0]? = some x ∧
      x.crew = ⟨[0], 1, 2⟩ ∧ Enlisted (launch .elastic) elasticShrunk 0 ∧
      Crewed (launch .elastic) elasticShrunk (elasticShrunk.foldl move (launch .elastic)) 0 x := by
  have unit {s : System} {c : Crew} (h : s.broker.units[0]?.map (·.crew) = some c) :
      ∃ x, s.broker.units[0]? = some x ∧ x.crew = c := Option.map_eq_some_iff.1 h
  have henlisted : Enlisted (launch .elastic) elasticShrunk 0 :=
    ⟨[], List.mem_of_getElem? (i := 2) rfl⟩
  obtain ⟨x, hx, hcrew⟩ : ∃ x, (elasticShrunk.foldl move (launch .elastic)).broker.units[0]? =
      some x ∧ x.crew = ⟨[0], 1, 2⟩ := unit (by decide +kernel)
  exact ⟨unit (by decide +kernel), x, hx, hcrew, henlisted, crew_of_run Broker.assemble_elastic _ hx⟩

end System

end JitBroker
