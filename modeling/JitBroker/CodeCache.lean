/-!
# The segmented code cache

Generated code lives in a cache of three segments, one for each kind of code. A segment has a
fixed capacity and a count of the bytes in use; the cache also keeps the live regions themselves,
numbered from one in the order of their allocation.

* An allocation succeeds exactly if the bytes fit into what is left of the segment. It never
  moves or evicts anything; a failure only counts.
* A release names a region by number. The space given back is the one recorded for that number,
  so releasing a region twice, or into a cache that never held it, cannot unbalance the segment.

Sizes are machine words. The total over the segments is a sum of words, which wraps.
-/

namespace JitBroker

/-- The kinds of code, each with a segment of its own. -/
inductive BlobKind where
  /-- Stubs, adapters and other code that belongs to no method. -/
  | nonMethod
  /-- Code with profiling instrumentation. -/
  | profiled
  /-- Fully optimized code. -/
  | nonProfiled
  deriving Repr, DecidableEq, Inhabited

namespace BlobKind

/-- The kinds in the order of the segments. -/
def order : List BlobKind := [.nonMethod, .profiled, .nonProfiled]

/-- The name used in configurations. -/
def name : BlobKind → String
  | .nonMethod => "non-method"
  | .profiled => "profiled"
  | .nonProfiled => "non-profiled"

/-- The kind with the given name. -/
def ofName? : String → Option BlobKind
  | "non-method" => some .nonMethod
  | "profiled" => some .profiled
  | "non-profiled" => some .nonProfiled
  | _ => none

/-- The name used in messages. -/
def label : BlobKind → String
  | .nonMethod => "NonMethod"
  | .profiled => "Profiled"
  | .nonProfiled => "NonProfiled"

theorem ofName?_name (k : BlobKind) : ofName? k.name = some k := by
  cases k <;> rfl

end BlobKind

/-- A block of allocated code space. -/
structure Region where
  /-- The number of the region in its cache. -/
  id : Nat
  /-- The segment it lies in. -/
  kind : BlobKind
  /-- Its size in bytes. -/
  size : UInt64
  deriving Repr, DecidableEq, Inhabited

/-- The failure of an allocation. -/
structure SegmentFull where
  /-- The segment that has no room. -/
  kind : BlobKind
  /-- The bytes asked for. -/
  requested : UInt64
  /-- The bytes that were free. -/
  available : UInt64
  deriving Repr, DecidableEq

/-- The text of an allocation failure. -/
def SegmentFull.message (e : SegmentFull) : String :=
  s!"Code cache segment {e.kind.label} is full ({e.requested} bytes requested, "
    ++ s!"{e.available} available)"

/-- The accounts of one segment. -/
structure Segment where
  /-- The bytes the segment can hold. -/
  capacity : UInt64
  /-- The bytes in use. -/
  used : UInt64 := 0
  deriving Repr, DecidableEq, Inhabited

namespace Segment

/-- The bytes not in use. -/
def free (s : Segment) : UInt64 := s.capacity - min s.used s.capacity

/-- The segment with `size` more bytes in use, if they fit. -/
def reserve? (s : Segment) (size : UInt64) : Option Segment :=
  if s.used.toNat + size.toNat ≤ s.capacity.toNat then some { s with used := s.used + size }
  else none

/-- The segment with `size` fewer bytes in use. -/
def giveBack (s : Segment) (size : UInt64) : Segment := { s with used := s.used - size }

end Segment

/-- A code cache: its segments and the regions that are live. -/
structure CodeCache where
  /-- The segment of code that belongs to no method. -/
  nonMethod : Segment
  /-- The segment of profiled code. -/
  profiled : Segment
  /-- The segment of optimized code. -/
  nonProfiled : Segment
  /-- The live regions, latest first. -/
  regions : List Region := []
  /-- The number of the next region. -/
  nextId : Nat := 1
  /-- How many allocations have failed. -/
  fullCount : Nat := 0
  deriving Repr, DecidableEq

namespace CodeCache

/-- An empty cache with the given capacities. -/
def ofCapacities (nonMethod profiled nonProfiled : UInt64) : CodeCache where
  nonMethod := ⟨nonMethod, 0⟩
  profiled := ⟨profiled, 0⟩
  nonProfiled := ⟨nonProfiled, 0⟩

/-- An empty cache whose segments all have the given capacity. -/
def uniform (capacity : UInt64) : CodeCache := ofCapacities capacity capacity capacity

/-- The cache a broker uses unless it is given one: 64 MiB for each kind of method code, an eighth
of that for the rest. -/
def standard : CodeCache := ofCapacities 0x800000 0x4000000 0x4000000

instance : Inhabited CodeCache := ⟨standard⟩

/-- The segment of a kind of code. -/
def segment (c : CodeCache) : BlobKind → Segment
  | .nonMethod => c.nonMethod
  | .profiled => c.profiled
  | .nonProfiled => c.nonProfiled

/-- The cache with the segment of one kind replaced. -/
def withSegment (c : CodeCache) (k : BlobKind) (s : Segment) : CodeCache :=
  match k with
  | .nonMethod => { c with nonMethod := s }
  | .profiled => { c with profiled := s }
  | .nonProfiled => { c with nonProfiled := s }

/-- The capacity of a segment. -/
def capacity (c : CodeCache) (k : BlobKind) : UInt64 := (c.segment k).capacity

/-- The free bytes of a segment. -/
def unallocated (c : CodeCache) (k : BlobKind) : UInt64 := (c.segment k).free

/-- Allocates `size` bytes in the segment of `k`. -/
def allocate (c : CodeCache) (k : BlobKind) (size : UInt64) :
    Except SegmentFull Region × CodeCache :=
  match (c.segment k).reserve? size with
  | some s =>
    let region : Region := ⟨c.nextId, k, size⟩
    (.ok region,
      { c.withSegment k s with regions := region :: c.regions, nextId := c.nextId + 1 })
  | none =>
    (.error ⟨k, size, (c.segment k).capacity - (c.segment k).used⟩,
      { c with fullCount := c.fullCount + 1 })

/-- The live region with the given number. -/
def region? (c : CodeCache) (id : Nat) : Option Region := c.regions.find? (·.id == id)

/-- Gives the space of the live region numbered `id` back to its segment; tells whether there was
one. -/
def release (c : CodeCache) (id : Nat) : Bool × CodeCache :=
  match c.region? id with
  | some r =>
    (true, { c.withSegment r.kind ((c.segment r.kind).giveBack r.size) with
      regions := c.regions.filter (·.id != id) })
  | none => (false, c)

/-- The bytes in use over all segments, as a machine word. -/
def totalUsed (c : CodeCache) : UInt64 := c.nonMethod.used + c.profiled.used + c.nonProfiled.used

/-- How many regions are live. -/
def regionCount (c : CodeCache) : Nat := c.regions.length

/-! ### Segments -/

@[simp] theorem segment_withSegment_self (c : CodeCache) (k : BlobKind) (s : Segment) :
    (c.withSegment k s).segment k = s := by
  cases k <;> rfl

theorem segment_withSegment_of_ne (c : CodeCache) {k l : BlobKind} (s : Segment) (h : k ≠ l) :
    (c.withSegment k s).segment l = c.segment l := by
  cases k <;> cases l <;> first | rfl | exact absurd rfl h

@[simp] theorem regions_withSegment (c : CodeCache) (k : BlobKind) (s : Segment) :
    (c.withSegment k s).regions = c.regions := by
  cases k <;> rfl

end CodeCache

end JitBroker
