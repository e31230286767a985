import Mathlib.Algebra.GroupWithZero.Nat
import JitBroker.Proofs.Setting

/-!
# The accounts of the code cache

The bytes that a segment counts as used are those of its live regions, which fit into it
(`CodeCache.Balanced`). This is preserved by every allocation and every release, and so the room of
a segment shrinks only by what is allocated in it: of the bytes that were free at some point, those
that are not free later belong to regions that are live and were allocated since
(`CodeCache.Steps.unallocated_le`).
-/

namespace JitBroker.CodeCache

/-- The bytes of the live regions that satisfy a condition. -/
def bytes (c : CodeCache) (p : Region → Bool) : Nat :=
  ((c.regions.filter p).map (·.size.toNat)).sum

/-- The regions of a kind. -/
def ofKind (k : BlobKind) (r : Region) : Bool := r.kind == k

/-- The regions of a kind from some number on. -/
def since (k : BlobKind) (id : Nat) (r : Region) : Bool := r.kind == k && decide (id ≤ r.id)

/-- The accounts of a cache agree with its live regions. -/
structure Balanced (c : CodeCache) : Prop where
  /-- Numbers that are still to come are not in use. -/
  fresh : ∀ r ∈ c.regions, r.id < c.nextId
  /-- No number is in use twice. -/
  nodup : (c.regions.map (·.id)).Nodup
  /-- The used bytes of a segment are those of its live regions. -/
  used : ∀ k, (c.segment k).used.toNat = c.bytes (ofKind k)
  /-- They fit into the segment. -/
  fits : ∀ k, (c.segment k).used ≤ (c.segment k).capacity

/-- What allocations and releases make of a cache. -/
def Steps : CodeCache → CodeCache → Prop := Relation.ReflTransGen Step

variable {c c' : CodeCache} {k : BlobKind} {r : Region} {p : Region → Bool}

theorem balanced_ofCapacities (n m l : UInt64) : (ofCapacities n m l).Balanced where
  fresh r hr := absurd hr List.not_mem_nil
  nodup := List.nodup_nil
  used k := by cases k <;> rfl
  fits k := by cases k <;> exact UInt64.zero_le

/-! ### Allocation and release -/

/-- What an allocation that succeeds makes of a cache. -/
theorem allocate_ok {size : UInt64} (h : c.allocate k size = (.ok r, c')) :
    r = ⟨c.nextId, k, size⟩ ∧ c'.regions = r :: c.regions ∧ c'.nextId = c.nextId + 1 ∧
      (c.segment k).used.toNat + size.toNat ≤ (c.segment k).capacity.toNat ∧
      ∀ l, c'.segment l =
        if l = k then { c.segment k with used := (c.segment k).used + size } else c.segment l := by
  rw [allocate] at h
  split at h
  · rename_i s hs
    rw [Segment.reserve?] at hs
    split at hs
    · rename_i hfits
      obtain rfl := Option.some.inj hs
      obtain ⟨hr, rfl⟩ := Prod.mk.inj h
      obtain rfl := Except.ok.inj hr
      refine ⟨rfl, rfl, rfl, hfits, fun l => ?_⟩
      cases k <;> cases l <;> rfl
    · cases hs
  · cases h

/-- An allocation that fails changes neither regions nor segments. -/
theorem allocate_error {size : UInt64} {e : SegmentFull} (h : c.allocate k size = (.error e, c')) :
    c'.regions = c.regions ∧ c'.nextId = c.nextId ∧ ∀ l, c'.segment l = c.segment l := by
  rw [allocate] at h
  split at h
  · cases h
  · obtain ⟨-, rfl⟩ := Prod.mk.inj h
    exact ⟨rfl, rfl, fun l => by cases l <;> rfl⟩

/-- What a release makes of a cache in which the region is live. -/
theorem release_some (id : Nat) (h : c.region? id = some r) :
    (c.release id).2.regions = c.regions.filter (·.id != id) ∧
      (c.release id).2.nextId = c.nextId ∧
      ∀ l, (c.release id).2.segment l = if l = r.kind then (c.segment l).giveBack r.size
        else c.segment l := by
  rw [release, h]
  refine ⟨rfl, ?_, fun l => ?_⟩
  · obtain ⟨i, k, n⟩ := r
    cases k <;> rfl
  · obtain ⟨i, k, n⟩ := r
    cases k <;> cases l <;> rfl

theorem release_none (id : Nat) (h : c.region? id = none) : (c.release id).2 = c := by
  rw [release, h]

theorem bytes_cons {rs : List Region} (h : c.regions = r :: rs) (p : Region → Bool) :
    c.bytes p = (if p r then r.size.toNat else 0) + ((rs.filter p).map (·.size.toNat)).sum := by
  rw [bytes, h, List.filter_cons]
  split <;> simp

/-- Taking the one region with a number out takes its bytes away. -/
theorem bytes_of_region? {id : Nat} (hnodup : (c.regions.map (·.id)).Nodup)
    (h : c.region? id = some r) (p : Region → Bool) :
    c.bytes p = (if p r then r.size.toNat else 0)
      + (((c.regions.filter (·.id != id)).filter p).map (·.size.toNat)).sum := by
  obtain ⟨hid, as, bs, heq, has⟩ := List.find?_eq_some_iff_append.1 h
  have hid : r.id = id := beq_iff_eq.1 hid
  rw [heq, List.map_append, List.map_cons, List.nodup_append, List.nodup_cons] at hnodup
  have hbs : bs.filter (·.id != id) = bs := by
    refine List.filter_eq_self.2 fun x hx => bne_iff_ne.2 fun he => hnodup.2.1.1 ?_
    exact List.mem_map.2 ⟨x, hx, he.trans hid.symm⟩
  have has : as.filter (·.id != id) = as := by
    refine List.filter_eq_self.2 fun x hx => ?_
    have := has x hx
    exact this
  rw [bytes, heq, List.filter_append, List.filter_append, has, List.filter_cons,
    List.filter_cons, hbs]
  simp only [hid, bne_self_eq_false, Bool.false_eq_true, if_false, List.filter_append,
    List.map_append, List.sum_append]
  split
  · rw [List.map_cons, List.sum_cons]
    omega
  · omega

/-! ### Balance -/

theorem Balanced.of_eq (h : c.Balanced) (hregions : c'.regions = c.regions)
    (hnext : c'.nextId = c.nextId) (hsegment : ∀ l, c'.segment l = c.segment l) : c'.Balanced where
  fresh := by
    rw [hregions, hnext]
    exact h.fresh
  nodup := hregions ▸ h.nodup
  used l := by
    rw [hsegment, h.used, bytes, bytes, hregions]
  fits l := hsegment l ▸ h.fits l

theorem Balanced.allocate (h : c.Balanced) (k : BlobKind) (size : UInt64) :
    (c.allocate k size).2.Balanced := by
  rcases hc : c.allocate k size with ⟨_ | r, c'⟩
  · obtain ⟨hregions, hnext, hsegment⟩ := allocate_error hc
    exact h.of_eq hregions hnext hsegment
  · obtain ⟨rfl, hregions, hnext, hfits, hsegment⟩ := allocate_ok hc
    have hadd : ((c.segment k).used + size).toNat = (c.segment k).used.toNat + size.toNat := by
      rw [UInt64.toNat_add, Nat.mod_eq_of_lt]
      exact hfits.trans_lt (c.segment k).capacity.toNat_lt
    change c'.Balanced
    refine ⟨fun x hx => ?_, ?_, fun l => ?_, fun l => ?_⟩
    · rw [hregions, List.mem_cons] at hx
      rcases hx with rfl | hx
      · exact hnext ▸ Nat.lt_succ_self _
      · exact hnext ▸ (h.fresh x hx).trans (Nat.lt_succ_self _)
    · rw [hregions, List.map_cons, List.nodup_cons]
      refine ⟨fun hr => ?_, h.nodup⟩
      obtain ⟨x, hx, he⟩ := List.mem_map.1 hr
      exact Nat.ne_of_lt (h.fresh x hx) he
    · rw [hsegment, bytes_cons hregions, ofKind]
      by_cases hl : l = k
      · subst hl
        simp only [if_true, beq_self_eq_true, hadd, h.used, bytes]
        omega
      · simp [hl, Ne.symm hl, h.used, bytes]
    · rw [hsegment]
      split
      · exact UInt64.le_iff_toNat_le.2 (hadd ▸ hfits)
      · exact h.fits l

/-- A live region lies within the used bytes of its segment. -/
theorem Balanced.size_le (h : c.Balanced) {id : Nat} (hr : c.region? id = some r) :
    r.size ≤ (c.segment r.kind).used := by
  have hbytes := bytes_of_region? h.nodup hr (ofKind r.kind)
  rw [← h.used, ofKind, beq_self_eq_true, if_pos rfl] at hbytes
  exact UInt64.le_iff_toNat_le.2 (by omega)

theorem Balanced.release (h : c.Balanced) (id : Nat) : (c.release id).2.Balanced := by
  cases hr : c.region? id with
  | none => rwa [release_none id hr]
  | some r =>
    obtain ⟨hregions, hnext, hsegment⟩ := release_some id hr
    have hsub := UInt64.toNat_sub_of_le _ _ (h.size_le hr)
    refine ⟨?_, ?_, fun l => ?_, fun l => ?_⟩
    · rw [hregions, hnext]
      exact fun x hx => h.fresh x (List.mem_of_mem_filter hx)
    · rw [hregions]
      exact h.nodup.sublist (List.filter_sublist.map _)
    · have hused := h.used l
      rw [bytes_of_region? h.nodup hr, ofKind] at hused
      rw [hsegment, bytes, hregions]
      by_cases hl : l = r.kind
      · subst hl
        rw [if_pos rfl, Segment.giveBack, hsub]
        simp only [beq_self_eq_true, if_true] at hused
        omega
      · rw [if_neg hl, hused]
        simp [Ne.symm hl]
    · rw [hsegment]
      split
      · rename_i hl
        subst hl
        have := UInt64.le_iff_toNat_le.1 (h.fits r.kind)
        exact UInt64.le_iff_toNat_le.2 (by simp only [Segment.giveBack]; omega)
      · exact h.fits l

/-- Allocations and releases keep the accounts. -/
theorem Step.balanced (hc : c.Balanced) (h : c.Step c') : c'.Balanced := by
  cases h with
  | same => exact hc
  | allocate k size => exact hc.allocate k size
  | release id => exact hc.release id

theorem Steps.balanced (hc : c.Balanced) (h : c.Steps c') : c'.Balanced := by
  induction h with
  | refl => exact hc
  | tail _ h ih => exact h.balanced ih

/-! ### Room -/

/-- The room of a segment is what its live regions leave of it. -/
theorem Balanced.unallocated (h : c.Balanced) (k : BlobKind) :
    (c.unallocated k).toNat + c.bytes (ofKind k) = (c.segment k).capacity.toNat := by
  have hfits := h.fits k
  have hle := UInt64.le_iff_toNat_le.1 hfits
  have hmin : min (c.segment k).used (c.segment k).capacity = (c.segment k).used :=
    if_pos hfits
  rw [CodeCache.unallocated, Segment.free, hmin, UInt64.toNat_sub_of_le _ _ hfits, ← h.used]
  omega

/-- Numbers only grow. -/
theorem Step.nextId_le (h : c.Step c') : c.nextId ≤ c'.nextId := by
  cases h with
  | same => exact Nat.le_refl _
  | allocate k size =>
    rcases hc : c.allocate k size with ⟨_ | r, c'⟩
    · exact (allocate_error hc).2.1.ge
    · exact (allocate_ok hc).2.2.1 ▸ Nat.le_succ _
  | release id =>
    cases hr : c.region? id with
    | none => rw [release_none id hr]
    | some r => exact (release_some id hr).2.1.ge

/-- The capacity of a segment stays. -/
theorem Step.capacity (h : c.Step c') (k : BlobKind) :
    (c'.segment k).capacity = (c.segment k).capacity := by
  cases h with
  | same => rfl
  | allocate l size =>
    rcases hc : c.allocate l size with ⟨_ | r, c'⟩
    · exact congrArg Segment.capacity ((allocate_error hc).2.2 k)
    · change (c'.segment k).capacity = _
      rw [(allocate_ok hc).2.2.2.2]
      split
      · rename_i hk
        rw [hk]
      · rfl
  | release id =>
    cases hr : c.region? id with
    | none => rw [release_none id hr]
    | some r =>
      rw [(release_some id hr).2.2]
      split <;> rfl

/-- The bytes of regions that were numbered before do not become more. -/
theorem Step.bytes_le (hc : c.Balanced) (h : c.Step c') {n : Nat} (hn : n ≤ c.nextId)
    (k : BlobKind) :
    (c'.bytes fun r => ofKind k r && !since k n r) ≤ c.bytes fun r => ofKind k r && !since k n r := by
  cases h with
  | same => exact Nat.le_refl _
  | allocate l size =>
    rcases ha : c.allocate l size with ⟨_ | r, c'⟩
    · change c'.bytes _ ≤ _
      rw [bytes, (allocate_error ha).1, bytes]
    · obtain ⟨rfl, hregions, -⟩ := allocate_ok ha
      change c'.bytes _ ≤ _
      rw [bytes_cons hregions, bytes]
      simp [ofKind, since, hn]
  | release id =>
    cases hr : c.region? id with
    | none => rw [release_none id hr]
    | some r =>
      rw [bytes_of_region? hc.nodup hr, bytes, (release_some id hr).1]
      exact Nat.le_add_left _ _

/-- The bytes of a kind are those of regions numbered before and those of regions numbered
since. -/
theorem bytes_since (c : CodeCache) (k : BlobKind) (n : Nat) :
    c.bytes (ofKind k) = (c.bytes fun r => ofKind k r && !since k n r) + c.bytes (since k n) := by
  unfold bytes
  induction c.regions with
  | nil => rfl
  | cons r rs ih =>
    simp only [List.filter_cons, ofKind, since] at ih ⊢
    by_cases hk : r.kind = k <;> by_cases hn : n ≤ r.id <;> simp [hk, hn] at ih ⊢ <;> omega

/-- Room that a segment had is still there, but for what was allocated in it since and is live. -/
theorem Steps.unallocated_le (hc : c.Balanced) (h : c.Steps c') (k : BlobKind) :
    (c.unallocated k).toNat ≤ (c'.unallocated k).toNat + c'.bytes (since k c.nextId) := by
  have hsteps : c.nextId ≤ c'.nextId ∧ (c'.segment k).capacity = (c.segment k).capacity ∧
      (c'.bytes fun r => ofKind k r && !since k c.nextId r) ≤ c.bytes (ofKind k) := by
    induction h with
    | refl =>
      have := c.bytes_since k c.nextId
      exact ⟨Nat.le_refl _, rfl, by omega⟩
    | tail hsteps hstep ih =>
      obtain ⟨hn, hcapacity, hle⟩ := ih
      exact ⟨hn.trans hstep.nextId_le, (hstep.capacity k).trans hcapacity,
        (hstep.bytes_le (Steps.balanced hc hsteps) hn k).trans hle⟩
  obtain ⟨-, hcapacity, hle⟩ := hsteps
  have hbefore := hc.unallocated k
  have hafter := (h.balanced hc).unallocated k
  rw [hcapacity, c'.bytes_since k c.nextId] at hafter
  omega

end JitBroker.CodeCache
