import JitBroker.Proofs.Backend.Startup

/-!
# The units of a broker that is assembled

A broker that is assembled has a unit for each enabled tier. The units are inserted one by one in
ascending order of their tiers, whatever the order of the tiers in the configuration.

* `Broker.tiers_ascending`: the tiers of the units are in strictly ascending order;
* `Broker.exists_assemble`: a valid configuration with a back-end for each enabled tier is
  assembled, and each of these tiers is looked up to the unit that was made for it (`Broker.Registers`).
-/

namespace JitBroker

/-- The units of a broker are those of the enabled tiers. -/
structure Broker.Registers (b : Broker) (config : Config) (parts : Broker.Parts) : Prop where
  /-- The configuration is kept. -/
  keeps : b.config = config
  /-- The tiers are in strictly ascending order. -/
  ascending : b.tiers.Pairwise (· < ·)
  /-- They are the enabled ones. -/
  mem_tiers : ∀ tier, tier ∈ b.tiers ↔ ∃ t ∈ config.tiers, t.enabled = true ∧ t.level = tier
  /-- Each is looked up to a unit with its own configuration, back-end and queue. -/
  lookup : ∀ t ∈ config.tiers, t.enabled = true → ∃ u kind, b.unitOf? t.level = some u ∧
    parts.backends.lookup t.level = some kind ∧
      b.units[u]? = some { config := t, kind := kind, queue := .forTier t parts.selector }

namespace Broker

variable {b : Broker} {config : Config} {parts : Parts} {x : TierUnit} {l xs : List TierUnit}

/-! ### Order -/

/-- A unit of another tier is inserted where it belongs. -/
theorem pairwise_insertUnit (h : l.Pairwise (·.config.level < ·.config.level))
    (hx : ∀ y ∈ l, x.config.level ≠ y.config.level) :
    (insertUnit x l).Pairwise (·.config.level < ·.config.level) := by
  induction l with
  | nil => exact List.pairwise_singleton _ _
  | cons y l ih =>
    obtain ⟨hy, hl⟩ := List.pairwise_cons.1 h
    obtain ⟨hxy, hxl⟩ := List.forall_mem_cons.1 hx
    rw [insertUnit]
    split
    · rename_i hlt
      refine List.pairwise_cons.2 ⟨List.forall_mem_cons.2 ⟨hlt, fun z hz => ?_⟩, h⟩
      exact UInt8.lt_trans hlt (hy z hz)
    · rename_i hge
      have hgt : y.config.level < x.config.level :=
        UInt8.lt_of_le_of_ne (UInt8.not_lt.1 hge) hxy.symm
      refine List.pairwise_cons.2 ⟨fun z hz => ?_, ih hl hxl⟩
      rcases mem_insertUnit.1 hz with rfl | hz
      · exact hgt
      · exact hy z hz

/-- So are units of different tiers, one after the other. -/
theorem pairwise_foldl_insertUnit (h : l.Pairwise (·.config.level < ·.config.level))
    (hxs : xs.Pairwise (·.config.level ≠ ·.config.level))
    (hnew : ∀ x ∈ xs, ∀ y ∈ l, x.config.level ≠ y.config.level) :
    (xs.foldl (fun sorted x => insertUnit x sorted) l).Pairwise
      (·.config.level < ·.config.level) := by
  induction xs generalizing l with
  | nil => exact h
  | cons x xs ih =>
    obtain ⟨hx, hxs⟩ := List.pairwise_cons.1 hxs
    obtain ⟨hxl, hnew⟩ := List.forall_mem_cons.1 hnew
    refine ih (pairwise_insertUnit h hxl) hxs fun y hy z hz => ?_
    rcases mem_insertUnit.1 hz with rfl | hz
    · exact (hx y hy).symm
    · exact hnew y hy z hz

/-- The tiers of the units are in strictly ascending order. -/
theorem tiers_ascending (h : assemble config parts = .ok b) : b.tiers.Pairwise (· < ·) := by
  obtain ⟨units, hunits, rfl⟩ := exists_of_assemble h
  have hnodup : (units.map (·.config.level)).Nodup := by
    rw [levels_of_mapM hunits]
    exact Config.levels_nodup (validate_of_assemble h)
  exact List.pairwise_map.2 (pairwise_foldl_insertUnit List.Pairwise.nil
    (List.pairwise_map.1 hnodup) fun _ _ _ hy => absurd hy List.not_mem_nil)

/-! ### Units -/

/-- With a back-end for each tier, the units of the tiers are made. -/
theorem exists_mapM_makeUnit {ts : List TierConfig}
    (h : ∀ t ∈ ts, ∃ kind, parts.backends.lookup t.level = some kind) :
    ∃ units, ts.mapM (makeUnit parts) = .ok units := by
  induction ts with
  | nil => exact ⟨[], rfl⟩
  | cons t ts ih =>
    obtain ⟨⟨kind, hkind⟩, hts⟩ := List.forall_mem_cons.1 h
    obtain ⟨units, hunits⟩ := ih hts
    rw [List.mapM_cons, hunits, makeUnit, hkind]
    exact ⟨_, rfl⟩

/-- Units are looked up by their tiers alone. -/
theorem unitOf_eq (b : Broker) (tier : Tier) : b.unitOf? tier = b.tiers.findIdx? (· == tier) := by
  rw [unitOf?, tiers, List.findIdx?_map]
  rfl

/-- A unit is looked up by its tier. -/
theorem unitOf_of_getElem? (h : b.tiers.Nodup) {u : UnitId} (hx : b.units[u]? = some x) :
    b.unitOf? x.config.level = some u :=
  unitOf_of_tierOf h (by rw [tierOf, hx]; rfl)

/-- A unit is made for each of the tiers. -/
theorem exists_unit_of_mapM {ts : List TierConfig} {units : List TierUnit}
    (h : ts.mapM (makeUnit parts) = .ok units) :
    ∀ t ∈ ts, ∃ x ∈ units, makeUnit parts t = .ok x := by
  induction ts generalizing units with
  | nil => exact fun _ h => absurd h List.not_mem_nil
  | cons t ts ih =>
    rw [List.mapM_cons] at h
    cases ht : makeUnit parts t with
    | error e => simp [ht, bind, Except.bind] at h
    | ok x =>
      cases hts : ts.mapM (makeUnit parts) with
      | error e => simp [ht, hts, bind, Except.bind] at h
      | ok xs =>
        obtain rfl : x :: xs = units := by
          simpa [ht, hts, bind, Except.bind, pure, Except.pure] using h
        refine List.forall_mem_cons.2 ⟨⟨x, List.mem_cons_self, ht⟩, fun t' ht' => ?_⟩
        obtain ⟨x', hx', hmake⟩ := ih hts t' ht'
        exact ⟨x', List.mem_cons_of_mem _ hx', hmake⟩

/-- Each enabled tier is looked up to the unit that was made for it. -/
theorem unitOf_of_enabled (h : assemble config parts = .ok b) {t : TierConfig}
    (ht : t ∈ config.enabledTiers) : ∃ u kind, b.unitOf? t.level = some u ∧
      parts.backends.lookup t.level = some kind ∧
        b.units[u]? = some { config := t, kind := kind, queue := .forTier t parts.selector } := by
  obtain ⟨units, hunits, hb⟩ := exists_of_assemble h
  obtain ⟨x, hx, hmake⟩ := exists_unit_of_mapM hunits t ht
  obtain ⟨u, hu⟩ : ∃ u : UnitId, b.units[u]? = some x := by
    refine Table.mem_toList_iff.1 ?_
    simpa [hb, Table.toList, mem_foldl_insertUnit] using hx
  rw [makeUnit] at hmake
  split at hmake
  · rename_i kind hkind
    obtain rfl := Except.ok.inj hmake
    exact ⟨u, kind, unitOf_of_getElem? (tiers_nodup_of_assemble h) hu, hkind, hu⟩
  · cases hmake

/-- The tiers of the units are the enabled ones. -/
theorem mem_tiers_of_assemble (h : assemble config parts = .ok b) (tier : Tier) :
    tier ∈ b.tiers ↔ ∃ t ∈ config.tiers, t.enabled = true ∧ t.level = tier := by
  constructor
  · intro htier
    obtain ⟨x, hx, rfl⟩ := List.mem_map.1 htier
    obtain ⟨t, ht, kind, rfl⟩ := unit_of_assemble h x hx
    exact ⟨t, (List.mem_filter.1 ht).1, (List.mem_filter.1 ht).2, rfl⟩
  · rintro ⟨t, ht, henabled, rfl⟩
    obtain ⟨u, kind, -, -, hu⟩ := unitOf_of_enabled h (List.mem_filter.2 ⟨ht, henabled⟩)
    exact List.mem_map.2 ⟨_, Table.mem_toList_iff.2 ⟨u, hu⟩, rfl⟩

/-- A valid configuration with a back-end for each enabled tier is assembled. -/
theorem exists_assemble (hvalid : config.Valid) (hbackends : ∀ t ∈ config.tiers, t.enabled = true →
    ∃ kind, parts.backends.lookup t.level = some kind) :
    ∃ b, assemble config parts = .ok b ∧ b.Registers config parts := by
  obtain ⟨units, hunits⟩ := exists_mapM_makeUnit fun t ht =>
    hbackends t (List.mem_filter.1 ht).1 (List.mem_filter.1 ht).2
  obtain ⟨b, hb⟩ : ∃ b, assemble config parts = .ok b := by
    rw [assemble, (config.validate_eq_ok_iff).2 hvalid]
    simp only [Config.enabledTiers] at hunits ⊢
    rw [hunits]
    exact ⟨_, rfl⟩
  refine ⟨b, hb, ?_, tiers_ascending hb, mem_tiers_of_assemble hb, fun t ht henabled =>
    unitOf_of_enabled hb (List.mem_filter.2 ⟨ht, henabled⟩)⟩
  obtain ⟨units, -, rfl⟩ := exists_of_assemble hb
  rfl

end Broker

end JitBroker
