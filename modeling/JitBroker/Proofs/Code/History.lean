import Mathlib.Data.List.Nodup
import Mathlib.Logic.Function.Basic
import JitBroker.Proofs.Code.Balance

/-!
# The history of code caches

Caches are asked to allocate space and to release regions, and what a cache has answered makes its
history. The history alone tells which regions are live: those that the cache has handed out and
that were not released into it since (`CodeCache.Live`). The regions that the cache keeps are these
(`CodeCache.Tells`), and so its accounts, which agree with the regions it keeps, agree with its
history.

Of several caches each has a history of its own, and a region may be released into any of them. The
region that is released only gives a number, under which another cache may keep a region of its own
or none at all; what the caller's region says of its size does not matter.

* `CodeCache.Tells.answer`: one order keeps cache and history in agreement;
* `CodeCache.kept_of_run`: what holds of every cache after any row of orders.
-/

namespace JitBroker.CodeCache

/-! ### Orders and answers -/

/-- What a cache may be asked to do. -/
inductive Order where
  /-- Allocate space. -/
  | allocate (k : BlobKind) (size : UInt64)
  /-- Release a region, whichever cache has handed it out. -/
  | release (r : Region)

/-- What a cache answers. -/
inductive Answer where
  /-- This region was allocated. -/
  | region (r : Region)
  /-- The segment has no room. -/
  | full (e : SegmentFull)
  /-- The region with this number was live, and is no more, or was not live. -/
  | released (id : Nat) (found : Bool)

/-- The region that was allocated. -/
def Answer.region? : Answer → Option Region
  | .region r => some r
  | _ => none

/-- Whether an allocation failed. -/
def Answer.isFull : Answer → Bool
  | .full _ => true
  | _ => false

/-- The answer of a cache to an order, and the cache after it. -/
def answer (c : CodeCache) : Order → Answer × CodeCache
  | .allocate k size =>
    match c.allocate k size with
    | (.ok r, c') => (.region r, c')
    | (.error e, c') => (.full e, c')
  | .release r => (.released r.id (c.release r.id).1, (c.release r.id).2)

/-- A region is live after a history: it was allocated, and its number was not released since. -/
def Live (h : List Answer) (r : Region) : Prop :=
  ∃ before since, h = before ++ .region r :: since ∧ ∀ found, .released r.id found ∉ since

/-- The regions allocated in a history. -/
def allocated (h : List Answer) : List Region := h.filterMap Answer.region?

variable {c c' : CodeCache} {k : BlobKind} {size : UInt64} {r x : Region} {h : List Answer}
  {a : Answer}

/-- A region is live after one more answer if it has just been allocated, or was live and has not
just been released. -/
theorem live_concat : Live (h ++ [a]) r ↔
    a = .region r ∨ (Live h r ∧ ∀ found, a ≠ .released r.id found) := by
  constructor
  · rintro ⟨before, since, heq, hsince⟩
    rcases List.eq_nil_or_concat since with rfl | ⟨since, y, rfl⟩
    · obtain ⟨-, hy⟩ := List.append_inj' heq rfl
      exact .inl (List.cons.inj hy).1
    · rw [List.concat_eq_append, ← List.cons_append, ← List.append_assoc] at heq
      obtain ⟨rfl, hy⟩ := List.append_inj' heq rfl
      obtain rfl := (List.cons.inj hy).1
      rw [List.concat_eq_append] at hsince
      exact .inr ⟨⟨before, since, rfl, fun found hm => hsince found (List.mem_append_left _ hm)⟩,
        fun found he => hsince found (List.mem_append_right _ (List.mem_singleton.2 he.symm))⟩
  · rintro (rfl | ⟨⟨before, since, rfl, hsince⟩, hne⟩)
    · exact ⟨h, [], rfl, fun _ => List.not_mem_nil⟩
    · refine ⟨before, since ++ [a], by simp, fun found hm => ?_⟩
      rcases List.mem_append.1 hm with hm | hm
      · exact hsince found hm
      · exact hne found (List.mem_singleton.1 hm).symm

/-! ### One order -/

theorem fullCount_withSegment (c : CodeCache) (k : BlobKind) (s : Segment) :
    (c.withSegment k s).fullCount = c.fullCount := by
  cases k <;> rfl

/-- Bytes that fit into what is free are allocated. -/
theorem Balanced.allocate_of_le (hc : c.Balanced) (hsize : size ≤ c.unallocated k) :
    ∃ c', c.allocate k size = (.ok ⟨c.nextId, k, size⟩, c') ∧ c'.fullCount = c.fullCount := by
  have hfree := hc.unallocated k
  have hsize := UInt64.le_iff_toNat_le.1 hsize
  have hroom : (c.segment k).used.toNat + size.toNat ≤ (c.segment k).capacity.toNat := by
    rw [hc.used]
    omega
  rw [CodeCache.allocate, Segment.reserve?, if_pos hroom]
  exact ⟨_, rfl, fullCount_withSegment c k _⟩

/-- Bytes that do not fit are refused; that is counted, and changes nothing else. -/
theorem Balanced.allocate_of_lt (hc : c.Balanced) (hsize : c.unallocated k < size) :
    c.allocate k size =
      (.error ⟨k, size, c.unallocated k⟩, { c with fullCount := c.fullCount + 1 }) := by
  have hfree := hc.unallocated k
  have hsize := UInt64.lt_iff_toNat_lt.1 hsize
  have hroom : ¬ (c.segment k).used.toNat + size.toNat ≤ (c.segment k).capacity.toNat := by
    rw [hc.used]
    omega
  have hmin : min (c.segment k).used (c.segment k).capacity = (c.segment k).used :=
    if_pos (hc.fits k)
  rw [CodeCache.allocate, Segment.reserve?, if_neg hroom, CodeCache.unallocated, Segment.free, hmin]

/-- A number under which a region is live is released. -/
theorem release_of_mem (hx : x ∈ c.regions) : ∃ r, c.region? x.id = some r ∧
    (c.release x.id).1 = true ∧ (c.release x.id).2.fullCount = c.fullCount := by
  obtain ⟨r, hr⟩ : ∃ r, c.region? x.id = some r :=
    Option.isSome_iff_exists.1 (List.find?_isSome.2 ⟨x, hx, beq_self_eq_true x.id⟩)
  refine ⟨r, hr, ?_⟩
  rw [release, hr]
  exact ⟨rfl, fullCount_withSegment c _ _⟩

/-- Under any other number there is nothing to release. -/
theorem release_of_notMem {id : Nat} (hid : ∀ x ∈ c.regions, x.id ≠ id) :
    c.release id = (false, c) := by
  have hnone : c.region? id = none :=
    List.find?_eq_none.2 fun x hx he => hid x hx (beq_iff_eq.1 he)
  rw [release, hnone]

/-- What a cache does at an order is an allocation or a release. -/
theorem step_answer (c : CodeCache) (o : Order) : c.Step (c.answer o).2 := by
  cases o with
  | allocate k size =>
    have hstep := Step.allocate (c := c) k size
    rw [answer]
    split <;> rwa [‹c.allocate k size = _›] at hstep
  | release r => exact .release r.id

/-! ### Agreement with the history -/

/-- A cache with these capacities is as its history says. -/
structure Tells (c : CodeCache) (capacity : BlobKind → UInt64) (h : List Answer) : Prop where
  /-- The capacities stay. -/
  capacity : ∀ k, c.capacity k = capacity k
  /-- Its accounts agree with the regions it keeps. -/
  balanced : c.Balanced
  /-- It keeps the regions that are live. -/
  live : ∀ r, r ∈ c.regions ↔ Live h r
  /-- The numbers it has used are below the next one. -/
  below : ∀ r ∈ allocated h, r.id < c.nextId
  /-- It has used none of them twice. -/
  nodup : ((allocated h).map (·.id)).Nodup
  /-- It has counted the allocations that failed. -/
  full : c.fullCount = h.countP Answer.isFull

variable {capacity : BlobKind → UInt64}

theorem tells_ofCapacities (capacity : BlobKind → UInt64) :
    (ofCapacities (capacity .nonMethod) (capacity .profiled) (capacity .nonProfiled)).Tells
      capacity [] where
  capacity k := by cases k <;> rfl
  balanced := balanced_ofCapacities _ _ _
  live r := by
    refine ⟨fun hr => absurd hr List.not_mem_nil, ?_⟩
    rintro ⟨before, since, heq, -⟩
    cases before <;> cases heq
  below r hr := absurd hr List.not_mem_nil
  nodup := List.nodup_nil
  full := rfl

/-- A step with an answer by which no region is allocated. -/
theorem Tells.keep (ht : c.Tells capacity h) (hstep : c.Step c') (hnone : a.region? = none)
    (hnext : c'.nextId = c.nextId)
    (hlive : ∀ r, r ∈ c'.regions ↔ r ∈ c.regions ∧ ∀ found, a ≠ .released r.id found)
    (hfull : c'.fullCount = c.fullCount + a.isFull.toNat) : c'.Tells capacity (h ++ [a]) := by
  have hsame : allocated (h ++ [a]) = allocated h := by
    rw [allocated, List.filterMap_append, List.filterMap_cons_none hnone]
    exact List.append_nil _
  refine ⟨fun k => (hstep.capacity k).trans (ht.capacity k), hstep.balanced ht.balanced,
    fun r => ?_, by rw [hsame, hnext]; exact ht.below, by rw [hsame]; exact ht.nodup, ?_⟩
  · rw [hlive, ht.live, live_concat]
    refine ⟨.inr, fun h => h.resolve_left ?_⟩
    rintro rfl
    cases hnone
  · rw [hfull, ht.full, List.countP_append, List.countP_singleton]
    cases a.isFull <;> rfl

/-- A step by which a region is allocated. -/
theorem Tells.allocate (ht : c.Tells capacity h) (hstep : c.Step c') (hid : r.id = c.nextId)
    (hregions : c'.regions = r :: c.regions) (hnext : c'.nextId = c.nextId + 1)
    (hfull : c'.fullCount = c.fullCount) : c'.Tells capacity (h ++ [.region r]) := by
  have hmore : allocated (h ++ [.region r]) = allocated h ++ [r] := List.filterMap_append
  refine ⟨fun k => (hstep.capacity k).trans (ht.capacity k), hstep.balanced ht.balanced,
    fun x => ?_, fun x hx => ?_, ?_, ?_⟩
  · rw [hregions, List.mem_cons, ht.live, live_concat]
    simp [eq_comm]
  · rw [hmore, List.mem_append, List.mem_singleton] at hx
    rw [hnext]
    rcases hx with hx | rfl
    · exact (ht.below x hx).trans (Nat.lt_succ_self _)
    · exact hid ▸ Nat.lt_succ_self _
  · rw [hmore, List.map_append, List.nodup_append]
    refine ⟨ht.nodup, List.nodup_singleton _, fun n hn m hm => ?_⟩
    obtain ⟨x, hx, rfl⟩ := List.mem_map.1 hn
    obtain rfl : m = c.nextId := (List.mem_singleton.1 hm).trans hid
    exact (ht.below x hx).ne
  · rw [hfull, ht.full, List.countP_append]
    rfl

/-- An order keeps cache and history in agreement. -/
theorem Tells.answer (ht : c.Tells capacity h) (o : Order) :
    (c.answer o).2.Tells capacity (h ++ [(c.answer o).1]) := by
  have hstep := c.step_answer o
  have hc := ht.balanced
  cases o with
  | allocate k size =>
    rw [CodeCache.answer] at hstep ⊢
    by_cases hsize : size ≤ c.unallocated k
    · obtain ⟨c', heq, hfull⟩ := hc.allocate_of_le hsize
      obtain ⟨-, hregions, hnext, -⟩ := allocate_ok heq
      rw [heq] at hstep ⊢
      exact ht.allocate hstep rfl hregions hnext hfull
    · rw [hc.allocate_of_lt (UInt64.not_le.1 hsize)] at hstep ⊢
      exact ht.keep hstep rfl rfl (fun r => by simp) rfl
  | release r =>
    rw [CodeCache.answer] at hstep ⊢
    by_cases hid : ∀ x ∈ c.regions, x.id ≠ r.id
    · rw [release_of_notMem hid] at hstep ⊢
      refine ht.keep hstep rfl rfl (fun x => ?_) rfl
      simp only [ne_eq, Answer.released.injEq, not_and]
      exact ⟨fun hx => ⟨hx, fun _ he => absurd he.symm (hid x hx)⟩, And.left⟩
    · push Not at hid
      obtain ⟨y, hy, hid⟩ := hid
      obtain ⟨z, hz, -, hfull⟩ := release_of_mem hy
      rw [hid] at hz hfull
      obtain ⟨hregions, hnext, -⟩ := release_some r.id hz
      refine ht.keep hstep rfl hnext (fun x => ?_) hfull
      rw [hregions, List.mem_filter, bne_iff_ne]
      simp [eq_comm]

/-- What holds of a cache with these capacities after a history that left these regions live. -/
structure Kept (c : CodeCache) (capacity : BlobKind → UInt64) (h : List Answer)
    (live : List Region) : Prop where
  /-- These are the regions that were allocated and not released since. -/
  live_iff : ∀ r, r ∈ live ↔ Live h r
  /-- Each of them is listed once. -/
  nodup : live.Nodup
  /-- No two regions that the cache ever allocated have the same number. -/
  ids : ((allocated h).map (·.id)).Nodup
  /-- The capacities are those of the start. -/
  capacity_eq : ∀ k, c.capacity k = capacity k
  /-- The used bytes of a segment are those of the live regions of its kind. -/
  used : ∀ k, (c.segment k).used.toNat = ((live.filter (ofKind k)).map (·.size.toNat)).sum
  /-- They fit into the segment. -/
  fits : ∀ k, (c.segment k).used ≤ capacity k
  /-- The free bytes are the others. -/
  unallocated : ∀ k, (c.unallocated k).toNat = (capacity k).toNat - (c.segment k).used.toNat
  /-- The live regions are counted. -/
  regionCount : c.regionCount = live.length
  /-- So are the allocations that failed. -/
  fullCount : c.fullCount = h.countP Answer.isFull
  /-- An allocation succeeds if the bytes fit into what is free. -/
  allocate : ∀ k size, size ≤ c.unallocated k →
    ∃ id c', c.allocate k size = (.ok ⟨id, k, size⟩, c') ∧ c'.fullCount = c.fullCount
  /-- It fails otherwise, reports the free bytes, and changes nothing but the count of failures. -/
  allocate_full : ∀ k size, c.unallocated k < size → c.allocate k size =
    (.error ⟨k, size, c.unallocated k⟩, { c with fullCount := c.fullCount + 1 })
  /-- A release succeeds under the number of a live region. -/
  release : ∀ r : Region, (∃ x ∈ live, x.id = r.id) → (c.release r.id).1 = true
  /-- Under any other number it fails and changes nothing. -/
  release_other : ∀ r : Region, (∀ x ∈ live, x.id ≠ r.id) → c.release r.id = (false, c)

theorem Tells.kept (ht : c.Tells capacity h) : c.Kept capacity h c.regions where
  live_iff := ht.live
  nodup := .of_map _ ht.balanced.nodup
  ids := ht.nodup
  capacity_eq := ht.capacity
  used := ht.balanced.used
  fits k := ht.capacity k ▸ ht.balanced.fits k
  unallocated k := by
    have hfree := ht.balanced.unallocated k
    have hcapacity : (c.segment k).capacity = capacity k := ht.capacity k
    rw [← ht.balanced.used, hcapacity] at hfree
    omega
  regionCount := rfl
  fullCount := ht.full
  allocate k size hsize := by
    obtain ⟨c', heq, hfull⟩ := ht.balanced.allocate_of_le hsize
    exact ⟨_, c', heq, hfull⟩
  allocate_full k size hsize := ht.balanced.allocate_of_lt hsize
  release r := by
    rintro ⟨x, hx, hid⟩
    obtain ⟨-, -, htrue, -⟩ := release_of_mem hx
    exact hid ▸ htrue
  release_other r hid := release_of_notMem hid

/-! ### Several caches -/

/-- Several caches, and what each of them has answered. -/
structure Row (ι : Type) where
  /-- The caches. -/
  cache : ι → CodeCache
  /-- The answers of each cache, oldest first. -/
  history : ι → List Answer

namespace Row

variable {ι : Type}

/-- Caches that have not been asked anything, with these capacities. -/
def fresh (capacity : ι → BlobKind → UInt64) : Row ι where
  cache i := ofCapacities (capacity i .nonMethod) (capacity i .profiled) (capacity i .nonProfiled)
  history _ := []

variable [DecidableEq ι]

/-- The caches after an order to one of them. -/
def obey (s : Row ι) (o : ι × Order) : Row ι where
  cache := Function.update s.cache o.1 ((s.cache o.1).answer o.2).2
  history := Function.update s.history o.1 (s.history o.1 ++ [((s.cache o.1).answer o.2).1])

variable {s : Row ι} {capacity : ι → BlobKind → UInt64}

/-- An order keeps every cache in agreement with its history. -/
theorem tells_obey (hs : ∀ i, (s.cache i).Tells (capacity i) (s.history i)) (o : ι × Order)
    (i : ι) : ((s.obey o).cache i).Tells (capacity i) ((s.obey o).history i) := by
  simp only [obey]
  by_cases hi : i = o.1
  · subst hi
    rw [Function.update_self, Function.update_self]
    exact (hs o.1).answer o.2
  · rw [Function.update_of_ne hi, Function.update_of_ne hi]
    exact hs i

theorem tells_foldl (hs : ∀ i, (s.cache i).Tells (capacity i) (s.history i))
    (os : List (ι × Order)) (i : ι) :
    ((os.foldl obey s).cache i).Tells (capacity i) ((os.foldl obey s).history i) := by
  induction os generalizing s with
  | nil => exact hs i
  | cons o os ih => exact ih fun i => tells_obey hs o i

end Row

/-- Whatever several caches were asked to do, in any order, the accounts of each of them agree with
its history. -/
theorem kept_of_run {ι : Type} [DecidableEq ι] (capacity : ι → BlobKind → UInt64)
    (os : List (ι × Order)) (i : ι) :
    ∃ live, ((os.foldl Row.obey (.fresh capacity)).cache i).Kept (capacity i)
      ((os.foldl Row.obey (.fresh capacity)).history i) live :=
  ⟨_, (Row.tells_foldl (fun i => tells_ofCapacities (capacity i)) os i).kept⟩

end JitBroker.CodeCache
