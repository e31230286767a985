/-!
# Tiers and sets of tiers

A tier is a cost and quality point of the compilers, named by a small number. Configurations use
the numbers below `tierLimit`, and each of those has a bit of its own in the sets of tiers that a
method carries. A larger number has no bit: marking it changes nothing, and no set contains it.
-/

namespace JitBroker

/-- The number of a compilation tier. -/
abbrev Tier := UInt8

/-- Configured tiers are below this limit, the width of a set of tiers. -/
def tierLimit : Tier := 32

/-- The bit of a tier in a set of tiers, zero for a tier that has none. -/
def Tier.bit (t : Tier) : BitVec 32 := 1#32 <<< t.toNat

/-- A set of tiers below the limit. -/
structure TierSet where
  /-- The bits of the members. -/
  bits : BitVec 32 := 0#32
  deriving Repr, DecidableEq, Inhabited

namespace TierSet

/-- The set without tiers. -/
def none : TierSet := ⟨0#32⟩

/-- The set of every tier that has a bit. -/
def all : TierSet := ⟨BitVec.allOnes 32⟩

/-- Whether the bit of the tier is set. -/
def has (s : TierSet) (t : Tier) : Bool := s.bits &&& t.bit != 0#32

/-- The set with the bit of the tier set. -/
def mark (s : TierSet) (t : Tier) : TierSet := ⟨s.bits ||| t.bit⟩

/-- The members in ascending order. -/
def toList (s : TierSet) : List Tier :=
  (List.range 256).map UInt8.ofNat |>.filter s.has

/-! ### Membership -/

theorem has_eq_getLsbD (s : TierSet) (t : Tier) : s.has t = s.bits.getLsbD t.toNat := by
  cases h : s.bits.getLsbD t.toNat with
  | false =>
    have : s.bits &&& t.bit = 0#32 := by
      apply BitVec.eq_of_getLsbD_eq
      intro i hi
      by_cases hit : i = t.toNat
      · simp [hit, h]
      · have : ¬ t.toNat ≤ i ∨ i - t.toNat ≠ 0 := by omega
        simp [Tier.bit, BitVec.getLsbD_one]
        omega
    simp [has, this]
  | true =>
    have ht : t.toNat < 32 := BitVec.lt_of_getLsbD h
    have : s.bits &&& t.bit ≠ 0#32 := fun h0 => by
      have := congrArg (·.getLsbD t.toNat) h0
      simp only [Tier.bit, BitVec.getLsbD_and, h, BitVec.getLsbD_shiftLeft] at this
      simp [ht] at this
    simpa [has] using this

@[simp] theorem has_none (t : Tier) : none.has t = false := by
  simp [has_eq_getLsbD, none]

@[simp] theorem has_all (t : Tier) : all.has t = decide (t < tierLimit) := by
  rw [has_eq_getLsbD, all, BitVec.getLsbD_allOnes]
  simp [tierLimit, UInt8.lt_iff_toNat_lt]

theorem has_mark (s : TierSet) (t u : Tier) :
    (s.mark t).has u = (s.has u || (decide (t = u) && decide (u < tierLimit))) := by
  have htu : (t = u) ↔ t.toNat = u.toNat := UInt8.toNat_inj.symm
  simp only [has_eq_getLsbD, mark, Tier.bit, BitVec.getLsbD_or, BitVec.getLsbD_shiftLeft,
    BitVec.getLsbD_one, tierLimit, UInt8.lt_iff_toNat_lt, htu]
  congr 1
  rw [Bool.eq_iff_iff]
  simp
  omega

end TierSet

end JitBroker
