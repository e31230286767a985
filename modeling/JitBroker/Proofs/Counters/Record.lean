import Mathlib.Algebra.GroupWithZero.Nat
import Mathlib.Data.List.Sort
import JitBroker.Statistics

/-!
# Counting a compile

Compiles are counted in three places: over all tiers, for each tier, and by the back-end of the
tier. What one compile adds to a counter does not depend on the place (`Compiled.gain`), but some
counters are kept in some places only, and those that are machine words may wrap.

A counter that wraps goes down. So as long as none does, each of them is raised by the gain of the
compile:

* `TierStatistics.reading_record` and `BackendStatistics.reading_record`: the counters of a tier, and
  those of a back-end;
* `Statistics.Summed.record`: the counters over all tiers stay the sums of those of the tiers.
-/

namespace JitBroker

/-! ### Counters -/

/-- What is counted of compiles. -/
inductive Counter where
  /-- Their time. -/
  | time
  /-- Those that installed code. -/
  | successes
  /-- Those that failed. -/
  | bailouts
  /-- Those that were invalidated while they ran. -/
  | invalidations
  /-- The successful standard compiles. -/
  | standard
  /-- The successful compiles for OSR entries. -/
  | osr
  /-- The bytecodes of the successful standard compiles. -/
  | standardBytes
  /-- The bytecodes of the successful compiles for OSR entries. -/
  | osrBytes
  /-- The size of the code. -/
  | codeSize
  /-- The size of the instructions. -/
  | instructionsSize
  deriving DecidableEq

namespace Counter

/-- Everything that is counted. -/
def all : List Counter :=
  [time, successes, bailouts, invalidations, standard, osr, standardBytes, osrBytes, codeSize,
    instructionsSize]

theorem mem_all (c : Counter) : c ∈ all := by cases c <;> decide

instance {p : Counter → Prop} [DecidablePred p] : Decidable (∀ c, p c) :=
  decidable_of_iff (∀ c ∈ all, p c) ⟨fun h c => h c c.mem_all, fun h c _ => h c⟩

end Counter

/-- What a counter shows. -/
def TierStatistics.reading (s : TierStatistics) : Counter → Nat
  | .time => s.time
  | .successes => s.successes
  | .bailouts => s.bailouts
  | .invalidations => s.invalidations
  | .standard => s.standard
  | .osr => s.osr
  | .standardBytes => s.standardBytes.toNat
  | .osrBytes => s.osrBytes.toNat
  | .codeSize => s.codeSize.toNat
  | .instructionsSize => s.instructionsSize.toNat

/-- What a counter of a back-end shows, if the back-end has such a counter. -/
def BackendStatistics.reading? (s : BackendStatistics) : Counter → Option Nat
  | .standard => some s.standard.count.toNat
  | .osr => some s.osr.count.toNat
  | .standardBytes => some s.standard.bytes.toNat
  | .osrBytes => some s.osr.bytes.toNat
  | .codeSize => some s.codeSize.toNat
  | .instructionsSize => some s.instructionsSize.toNat
  | .time | .successes | .bailouts | .invalidations => none

/-- A compile as it is counted. -/
structure Compiled where
  /-- Whether it was for an OSR entry. -/
  osr : Bool
  /-- The size of the method. -/
  bytecodes : UInt64
  /-- Its result. -/
  result : TaskResult
  /-- Whether it was invalidated while it ran. -/
  invalidated : Bool
  /-- The time it took. -/
  elapsed : Nat
  deriving DecidableEq

/-- What a compile adds to a counter. -/
def Compiled.gain (x : Compiled) : Counter → Nat
  | .time => x.elapsed
  | .successes => if x.result.success then 1 else 0
  | .bailouts => if x.result.success || x.invalidated then 0 else 1
  | .invalidations => if !x.result.success && x.invalidated then 1 else 0
  | .standard => if x.result.success && !x.osr then 1 else 0
  | .osr => if x.result.success && x.osr then 1 else 0
  | .standardBytes => if x.result.success && !x.osr then x.bytecodes.toNat else 0
  | .osrBytes => if x.result.success && x.osr then x.bytecodes.toNat else 0
  | .codeSize => if x.result.success then x.result.totalSize.toNat else 0
  | .instructionsSize => if x.result.success then x.result.instructionsSize.toNat else 0

/-! ### Words that do not wrap -/

/-- A sum of words that is no less than one of them has not wrapped. -/
theorem toNat_add_of_le {a b : UInt64} (h : a.toNat ≤ (a + b).toNat) :
    (a + b).toNat = a.toNat + b.toNat := by
  have ha := a.toNat_lt
  have hb := b.toNat_lt
  rw [UInt64.toNat_add] at h ⊢
  omega

theorem toNat_succ_of_le {a : UInt32} (h : a.toNat ≤ (a + 1).toNat) :
    (a + 1).toNat = a.toNat + 1 := by
  have ha := a.toNat_lt
  rw [UInt32.toNat_add] at h ⊢
  change a.toNat ≤ (a.toNat + 1) % 2 ^ 32 at h
  change (a.toNat + 1) % 2 ^ 32 = _
  omega

/-! ### One place -/

variable {t : Task} {bytecodes : UInt64} {r : TaskResult} {invalidated : Bool} {elapsed : Nat}
  {c : Counter}

/-- A counter of a tier is raised by the gain of a compile, if it does not wrap. -/
theorem TierStatistics.reading_record {s : TierStatistics}
    (h : s.reading c ≤ (s.record t bytecodes r invalidated elapsed).reading c) :
    (s.record t bytecodes r invalidated elapsed).reading c =
      s.reading c + (Compiled.mk t.isOsr bytecodes r invalidated elapsed).gain c := by
  revert h
  simp only [record]
  cases hsuccess : r.success
  · cases invalidated <;> cases c <;> simp [reading, Compiled.gain, hsuccess]
  · cases hosr : t.isOsr <;> cases c <;>
      simp +contextual [reading, Compiled.gain, hsuccess, toNat_add_of_le, -UInt64.toNat_add]

/-- So is one of its back-end, if the compile was successful. -/
theorem BackendStatistics.reading_record {s : BackendStatistics} {n n' : Nat} {osr : Bool}
    (hsuccess : r.success = true) (hn : s.reading? c = some n)
    (hn' : (s.record osr bytecodes r elapsed).reading? c = some n') (h : n ≤ n') :
    n' = n + (Compiled.mk osr bytecodes r invalidated elapsed).gain c := by
  revert h
  cases osr <;> cases c <;> cases hn <;> cases hn' <;>
    simp +contextual [record, PhaseStatistics.add, Compiled.gain, hsuccess,
      toNat_add_of_le, toNat_succ_of_le, -UInt64.toNat_add, -UInt32.toNat_add]

/-- A back-end has the same counters at all times. -/
theorem BackendStatistics.isSome_reading (s s' : BackendStatistics) (c : Counter) :
    (s.reading? c).isSome = (s'.reading? c).isSome := by
  cases c <;> rfl

/-- Without a success, nothing is added to the counters that a back-end has. -/
theorem Compiled.gain_of_failure {x : Compiled} (h : x.result.success = false)
    {s : BackendStatistics} {n : Nat} (hn : s.reading? c = some n) : x.gain c = 0 := by
  cases c <;> simp [gain, h] <;> cases hn

/-- Successes are standard compiles or compiles for OSR entries. -/
theorem TierStatistics.successes_record {s : TierStatistics} (h : s.successes = s.standard + s.osr) :
    (s.record t bytecodes r invalidated elapsed).successes =
      (s.record t bytecodes r invalidated elapsed).standard +
        (s.record t bytecodes r invalidated elapsed).osr := by
  simp only [record]
  repeat' split
  all_goals (simp only; omega)

/-! ### The tiers -/

namespace Statistics

variable {tier k : Tier} {f : TierStatistics → TierStatistics} {l : List (Tier × TierStatistics)}

/-- No tier but the one that is changed comes in. -/
theorem mem_keys_alterTier (h : k ∈ (alterTier tier f l).map (·.1)) :
    k = tier ∨ k ∈ l.map (·.1) := by
  induction l with
  | nil => simpa [alterTier] using h
  | cons p l ih =>
    obtain ⟨t, s⟩ := p
    rw [alterTier] at h
    split_ifs at h <;> simp only [List.map_cons, List.mem_cons] at h ⊢ <;> grind

/-- Tiers stay in ascending order, each once. -/
theorem ascending_alterTier (h : (l.map (·.1)).Pairwise (· < ·)) :
    ((alterTier tier f l).map (·.1)).Pairwise (· < ·) := by
  induction l with
  | nil => exact List.pairwise_singleton _ _
  | cons p l ih =>
    obtain ⟨t, s⟩ := p
    obtain ⟨hhead, htail⟩ := List.pairwise_cons.1 h
    rw [alterTier]
    split_ifs with hlt heq
    · refine List.pairwise_cons.2 ⟨fun k hk => ?_, h⟩
      rcases List.mem_cons.1 hk with rfl | hk
      · exact hlt
      · exact UInt8.lt_trans hlt (hhead k hk)
    · exact h
    · refine List.pairwise_cons.2 ⟨fun k hk => ?_, ih htail⟩
      rcases mem_keys_alterTier hk with rfl | hk
      · exact UInt8.lt_of_le_of_ne (UInt8.not_lt.1 hlt) (Ne.symm heq)
      · exact hhead k hk

theorem lookup_cons_of_ne {t : Tier} {s : TierStatistics} (h : k ≠ t) :
    ((t, s) :: l).lookup k = l.lookup k := by
  rw [List.lookup_cons, beq_eq_false_iff_ne.2 h]

/-- A tier below all others is not among them. -/
theorem lookup_eq_none_of_lt (h : ∀ t ∈ l.map (·.1), k < t) : l.lookup k = none := by
  induction l with
  | nil => rfl
  | cons p l ih =>
    obtain ⟨t, s⟩ := p
    obtain ⟨hhead, htail⟩ := List.forall_mem_cons.1 h
    rw [lookup_cons_of_ne (UInt8.ne_of_lt hhead), ih htail]

/-- A change replaces the counters of the tier, or puts new ones in their place. -/
theorem exists_alterTier (h : (l.map (·.1)).Pairwise (· < ·)) :
    ∃ pre post, pre.lookup tier = none ∧
      l = pre ++ ((l.lookup tier).toList.map fun s => (tier, s)) ++ post ∧
      alterTier tier f l = pre ++ (tier, f ((l.lookup tier).getD {})) :: post := by
  induction l with
  | nil => exact ⟨[], [], rfl, rfl, rfl⟩
  | cons p l ih =>
    obtain ⟨t, s⟩ := p
    obtain ⟨hhead, htail⟩ := List.pairwise_cons.1 h
    rw [alterTier]
    split_ifs with hlt heq
    · -- All tiers that follow are above this one, so the tier has no counters yet.
      have hnone : ((t, s) :: l).lookup tier = none :=
        lookup_eq_none_of_lt (List.forall_mem_cons.2 ⟨hlt, fun k hk =>
          UInt8.lt_trans hlt (hhead k hk)⟩)
      exact ⟨[], (t, s) :: l, rfl, by rw [hnone]; rfl, by rw [hnone]; rfl⟩
    · subst heq
      exact ⟨[], l, rfl, by rw [List.lookup_cons_self]; rfl, by rw [List.lookup_cons_self]; rfl⟩
    · obtain ⟨pre, post, hpre, hl, halter⟩ := ih htail
      refine ⟨(t, s) :: pre, post, ?_, ?_, ?_⟩
      · rw [lookup_cons_of_ne heq, hpre]
      · rw [lookup_cons_of_ne heq, List.cons_append, List.cons_append, ← hl]
      · rw [lookup_cons_of_ne heq, halter, List.cons_append]

/-- The counters of one tier are changed. -/
theorem lookup_alterTier (h : (l.map (·.1)).Pairwise (· < ·)) (k : Tier) :
    (alterTier tier f l).lookup k =
      if k = tier then some (f ((l.lookup tier).getD {})) else l.lookup k := by
  obtain ⟨pre, post, hpre, hl, halter⟩ := exists_alterTier (f := f) h
  rw [halter, List.lookup_append]
  split_ifs with hk
  · subst hk
    rw [hpre, Option.none_or, List.lookup_cons_self]
  · conv_rhs => rw [hl]
    rw [lookup_cons_of_ne hk, List.append_assoc, List.lookup_append, List.lookup_append]
    cases l.lookup tier with
    | none => rfl
    | some s => rw [Option.toList_some, List.map_singleton, lookup_cons_of_ne hk]; rfl

/-- A sum over the tiers changes by what it does for the tier. -/
theorem sum_alterTier (h : (l.map (·.1)).Pairwise (· < ·)) {g : TierStatistics → Nat}
    (hg : g {} = 0) :
    ((alterTier tier f l).map fun p => g p.2).sum + g ((l.lookup tier).getD {}) =
      (l.map fun p => g p.2).sum + g (f ((l.lookup tier).getD {})) := by
  obtain ⟨pre, post, -, hl, halter⟩ := exists_alterTier (f := f) h
  have hsum : (l.map fun p => g p.2).sum = (pre.map fun p => g p.2).sum +
      g ((l.lookup tier).getD {}) + (post.map fun p => g p.2).sum := by
    conv_lhs => rw [hl]
    cases l.lookup tier <;> simp [hg, Nat.add_assoc]
  simp only [halter, hsum, List.map_append, List.sum_append, List.map_cons, List.sum_cons]
  omega

/-- What is true of the beginning, and kept by the change, stays true of the counters of all
tiers. -/
theorem forall_alterTier {P : TierStatistics → Prop} (hzero : P {}) (hf : ∀ s, P s → P (f s))
    (h : ∀ p ∈ l, P p.2) : ∀ p ∈ alterTier tier f l, P p.2 := by
  induction l with
  | nil => exact List.forall_mem_singleton.2 (hf _ hzero)
  | cons p l ih =>
    obtain ⟨hp, hl⟩ := List.forall_mem_cons.1 h
    rw [alterTier]
    split_ifs
    · exact List.forall_mem_cons.2 ⟨hf _ hzero, h⟩
    · exact List.forall_mem_cons.2 ⟨hf _ hp, hl⟩
    · exact List.forall_mem_cons.2 ⟨hp, ih hl⟩

/-- The counters over all tiers are the sums of those of the tiers. -/
structure Summed (s : Statistics) : Prop where
  /-- The tiers are in ascending order, each once. -/
  ascending : (s.tiers.map (·.1)).Pairwise (· < ·)
  /-- The sums. -/
  total : ∀ c, s.total.reading c = (s.tiers.map fun p => p.2.reading c).sum
  /-- Each success is that of a standard compile or of one for an OSR entry. -/
  successes : ∀ p ∈ s.tiers, p.2.successes = p.2.standard + p.2.osr

/-- No counter is lower in the second statistics. -/
structure Rises (s s' : Statistics) : Prop where
  /-- None over all tiers. -/
  total : ∀ c, s.total.reading c ≤ s'.total.reading c
  /-- None of a tier. -/
  tier : ∀ p ∈ s.tiers, ∀ c, p.2.reading c ≤ (s'.tier p.1).reading c

instance (s s' : Statistics) : Decidable (s.Rises s') :=
  decidable_of_iff ((∀ c, s.total.reading c ≤ s'.total.reading c) ∧
    ∀ p ∈ s.tiers, ∀ c, p.2.reading c ≤ (s'.tier p.1).reading c)
    ⟨fun h => ⟨h.1, h.2⟩, fun h => ⟨h.1, h.2⟩⟩

theorem summed_empty : ({} : Statistics).Summed :=
  ⟨List.Pairwise.nil, fun c => by cases c <;> rfl, fun p hp => absurd hp List.not_mem_nil⟩

variable {s : Statistics} {t : Task} {m : Method} {r : TaskResult} {invalidated : Bool}
  {elapsed : Nat} {c : Counter}

@[simp] theorem total_record : (s.record t m r invalidated elapsed).total =
    s.total.record t m.bytecodeSize r invalidated elapsed := by
  simp only [record]
  split <;> rfl

@[simp] theorem tiers_record : (s.record t m r invalidated elapsed).tiers =
    alterTier t.tier (·.record t m.bytecodeSize r invalidated elapsed) s.tiers := by
  simp only [record]
  split <;> rfl

/-- A compile is counted for its tier. -/
theorem tier_record (h : s.Summed) (k : Tier) : (s.record t m r invalidated elapsed).tier k =
    if k = t.tier then (s.tier k).record t m.bytecodeSize r invalidated elapsed else s.tier k := by
  rw [tier, tiers_record, lookup_alterTier h.ascending]
  split_ifs with hk
  · subst hk
    rfl
  · rfl

theorem Rises.tier_le {s' : Statistics} (h : s.Rises s') (k : Tier) :
    (s.tier k).reading c ≤ (s'.tier k).reading c := by
  cases hk : s.tiers.lookup k with
  | none =>
    rw [Statistics.tier, hk]
    cases c <;> exact Nat.zero_le _
  | some x =>
    rw [Statistics.tier, hk]
    obtain ⟨l₁, l₂, hl, -⟩ := List.lookup_eq_some_iff.1 hk
    exact h.tier (k, x) (by simp [hl]) c

/-- A compile is counted for its tier by its gain, if no counter wraps. -/
theorem reading_tier_record (h : s.Summed) (hrises : s.Rises (s.record t m r invalidated elapsed))
    (k : Tier) : ((s.record t m r invalidated elapsed).tier k).reading c = (s.tier k).reading c +
      if k = t.tier then (Compiled.mk t.isOsr m.bytecodeSize r invalidated elapsed).gain c else 0 := by
  have hle := hrises.tier_le (c := c) k
  rw [tier_record h] at hle ⊢
  split_ifs at hle ⊢
  · exact TierStatistics.reading_record hle
  · rfl

/-- The counters over all tiers stay the sums, if no counter wraps. -/
theorem Summed.record (h : s.Summed) (hrises : s.Rises (s.record t m r invalidated elapsed)) :
    (s.record t m r invalidated elapsed).Summed where
  ascending := by
    rw [tiers_record]
    exact ascending_alterTier h.ascending
  total c := by
    -- Both the sum and the total change by what the record makes of the counters of the tier.
    have hsum : ((alterTier t.tier (·.record t m.bytecodeSize r invalidated elapsed) s.tiers).map
        fun p => p.2.reading c).sum + ((s.tiers.lookup t.tier).getD {}).reading c = _ :=
      sum_alterTier h.ascending (g := fun x => x.reading c) (by cases c <;> rfl)
    have htier := reading_tier_record (c := c) h hrises t.tier
    have htotal := hrises.total c
    rw [tier_record h, if_pos rfl, if_pos rfl, Statistics.tier] at htier
    rw [total_record] at htotal ⊢
    rw [TierStatistics.reading_record htotal, h.total, tiers_record]
    omega
  successes := by
    rw [tiers_record]
    exact forall_alterTier (P := fun x => x.successes = x.standard + x.osr) rfl
      (fun x hx => TierStatistics.successes_record hx) h.successes

end Statistics

end JitBroker
