import Mathlib.Data.List.Nodup
import JitBroker.Config

/-!
# Valid configurations

A configuration is valid if it has at least one tier, each of its tiers is valid by itself and has a
number of its own, a window of compile numbers is not empty, and there is room for a task
(`Config.Valid`). Tiers that are not enabled are held to the same.

* `Config.validate_eq_ok_iff`: just the valid configurations are accepted, although each tier is
  only compared with those before it;
* `Config.Valid.bits`: the tiers of a valid configuration have different bits in the sets of tiers
  that methods carry, and none of them is zero.
-/

namespace JitBroker

/-! ### Bits -/

namespace Tier

variable {t u : Tier}

theorem getLsbD_bit (h : t < tierLimit) : t.bit.getLsbD t.toNat = true := by
  have ht : t.toNat < 32 := h
  simp [bit, ht]

/-- A tier below the limit has a bit. -/
theorem bit_ne_zero (h : t < tierLimit) : t.bit ≠ 0#32 := by
  intro hzero
  have hbit := getLsbD_bit h
  rw [hzero, BitVec.getLsbD_zero] at hbit
  cases hbit

/-- Nobody else has it. -/
theorem bit_ne (h : t < tierLimit) (hne : t ≠ u) : t.bit ≠ u.bit := by
  intro heq
  have hbit := getLsbD_bit h
  rw [heq, bit, BitVec.getLsbD_shiftLeft, BitVec.getLsbD_one] at hbit
  simp only [Bool.and_eq_true, Bool.not_eq_true', decide_eq_false_iff_not, decide_eq_true_eq]
    at hbit
  exact hne (UInt8.toNat_inj.1 (by omega))

end Tier

/-! ### Tiers by themselves -/

/-- A valid configuration of a tier. -/
structure TierConfig.Valid (t : TierConfig) : Prop where
  /-- The tier has a bit. -/
  level : t.level < tierLimit
  /-- A worker stays. -/
  minWorkers : 1 ≤ t.minWorkers
  /-- No more stay than there may be. -/
  maxWorkers : t.minWorkers ≤ t.maxWorkers
  /-- A worker copes with some tasks. -/
  tasks : t.tasksPerThread ≠ 0
  /-- A worker needs some memory. -/
  memory : t.memoryBudget ≠ 0
  /-- A worker needs some code space. -/
  code : t.codeBudget ≠ 0

/-- Just the valid tiers are without fault. -/
theorem TierConfig.fault_eq_none_iff (t : TierConfig) : t.fault? = none ↔ t.Valid := by
  have hmin : t.minWorkers ≠ 0 ↔ 1 ≤ t.minWorkers := by
    rw [UInt64.le_iff_toNat_le, ne_eq, ← UInt64.toNat_inj]
    exact Nat.one_le_iff_ne_zero.symm
  unfold fault?
  constructor
  · intro h
    repeat' split at h
    all_goals first
      | cases h
    rename_i hlevel hzero hmax htasks hbudget
    obtain ⟨hmemory, hcode⟩ := not_or.1 hbudget
    exact ⟨not_not.1 hlevel, hmin.1 hzero, UInt64.not_lt.1 hmax, htasks, hmemory, hcode⟩
  · intro h
    rw [if_neg (not_not.2 h.level), if_neg (hmin.2 h.minWorkers),
      if_neg (UInt64.not_lt.2 h.maxWorkers), if_neg h.tasks, if_neg (not_or.2 ⟨h.memory, h.code⟩)]

/-! ### Tiers together -/

/-- A valid configuration. -/
structure Config.Valid (c : Config) : Prop where
  /-- There is a tier. -/
  tiers : c.tiers ≠ []
  /-- Each tier is valid by itself. -/
  tier : ∀ t ∈ c.tiers, t.Valid
  /-- No two tiers have one number. -/
  levels : c.tiers.Pairwise (·.level ≠ ·.level)
  /-- A window of compile numbers is not empty. -/
  range : ∀ r ∈ c.idRange, r.start < r.stop
  /-- There is room for a task. -/
  tasks : c.maxLiveTasks ≠ 0

namespace Config

variable {c : Config}

/-- Tiers are accepted if they are valid and have different numbers, none of which was seen. -/
theorem tiersFault_eq_none_iff {seen : List Tier} {ts : List TierConfig} :
    tiersFault? seen ts = none ↔
      (∀ t ∈ ts, t.Valid) ∧ ts.Pairwise (·.level ≠ ·.level) ∧ ∀ t ∈ ts, t.level ∉ seen := by
  induction ts generalizing seen with
  | nil => simp [tiersFault?]
  | cons t ts ih =>
    rw [tiersFault?, List.forall_mem_cons, List.pairwise_cons, List.forall_mem_cons,
      ← t.fault_eq_none_iff]
    cases t.fault? with
    | some fault => simp
    | none =>
      by_cases hseen : t.level ∈ seen
      · simp [hseen]
      · simp only [hseen, if_false, ih, List.mem_cons, not_or, forall_and, true_and,
          not_false_eq_true]
        have hswap : (∀ t' ∈ ts, t'.level ≠ t.level) ↔ ∀ t' ∈ ts, t.level ≠ t'.level :=
          forall₂_congr fun _ _ => ne_comm
        tauto

/-- Just the valid configurations are without fault. -/
theorem fault_eq_none_iff (c : Config) : c.fault? = none ↔ c.Valid := by
  have hrange : (c.idRange.bind fun r => if r.start < r.stop then none else
      some (ConfigFault.emptyRange r)) = none ↔ ∀ r ∈ c.idRange, r.start < r.stop := by
    rw [Option.bind_eq_none_iff]
    exact forall₂_congr fun r _ => by simp
  unfold fault?
  constructor
  · intro h
    split at h
    · cases h
    · rename_i hempty
      simp only [Option.or_eq_none_iff, tiersFault_eq_none_iff, hrange] at h
      obtain ⟨⟨htier, hlevels, -⟩, hrange, htasks⟩ := h
      refine ⟨fun hnil => hempty (List.isEmpty_iff.2 hnil), htier, hlevels, hrange, ?_⟩
      exact fun hzero => by simp [hzero] at htasks
  · intro h
    rw [if_neg (mt List.isEmpty_iff.1 h.tiers), Option.or_eq_none_iff, Option.or_eq_none_iff,
      tiersFault_eq_none_iff, hrange, if_neg h.tasks]
    exact ⟨⟨h.tier, h.levels, fun _ _ => List.not_mem_nil⟩, h.range, rfl⟩

/-- Just the valid configurations are accepted. -/
theorem validate_eq_ok_iff (c : Config) : c.validate = .ok () ↔ c.Valid := by
  rw [← fault_eq_none_iff, validate]
  cases c.fault? with
  | none => simp
  | some fault => simp

/-- The tiers of a valid configuration have bits of their own. -/
theorem Valid.bits (h : c.Valid) :
    (∀ t ∈ c.tiers, t.level.bit ≠ 0#32) ∧ c.tiers.Pairwise (·.level.bit ≠ ·.level.bit) :=
  ⟨fun t ht => Tier.bit_ne_zero (h.tier t ht).level, h.levels.imp_of_mem fun ht _ hne =>
    Tier.bit_ne (h.tier _ ht).level hne⟩

end Config

end JitBroker
