import JitBroker.Backend.Stub
import JitBroker.Proofs.Code.History
import JitBroker.Proofs.Fittings
import JitBroker.Proofs.Jobs.Stop
import JitBroker.Proofs.Kinds

/-!
# The arithmetic of sizes

Sizes are machine words, and a cache admits any capacities. An allocation is refused unless the
bytes fit into the segment, so the account of a segment is exact. Two computations are not guarded:
the total adds three segments, and a stub multiplies the size of its code by three before it takes a
quarter.

A broker whose back-ends are stubs is followed while others use its code cache as well
(`System.Incident`):

* `CodeCache.Balanced.summed`: the total is the sum of the sizes of the live regions, reduced to a
  word, and so is exact if and only if the sum is below `2 ^ 64`;
* `StubBehavior.toNat_instructions`: the instructions of a stub are a quarter of the triple, reduced
  to a word, and so three quarters if and only if the triple is below `2 ^ 64`;
* `WorkerStep.exists_install_of_attach`: code is attached only after a back-end has asked for it;
* `System.sizes_of_run`: both of these in every run.
-/

namespace JitBroker

/-! ### The total -/

namespace CodeCache

/-- The bytes of all live regions. -/
def liveBytes (c : CodeCache) : Nat := (c.regions.map (·.size.toNat)).sum

/-- What a cache tells of the bytes in use. -/
structure Summed (c : CodeCache) : Prop where
  /-- The account of each segment is exact. -/
  segments : ∀ k, (c.segment k).used.toNat = c.bytes (ofKind k)
  /-- The total is the sum of the sizes of the live regions, reduced to a word. -/
  total : c.totalUsed.toNat = c.liveBytes % 2 ^ 64
  /-- It is exact if and only if that sum is a word. -/
  exact_iff : c.totalUsed.toNat = c.liveBytes ↔ c.liveBytes < 2 ^ 64

variable {c c' : CodeCache}

/-- Each live region is in one of the three segments. -/
theorem liveBytes_eq (c : CodeCache) : c.liveBytes =
    c.bytes (ofKind .nonMethod) + c.bytes (ofKind .profiled) + c.bytes (ofKind .nonProfiled) := by
  simp only [liveBytes, bytes]
  induction c.regions with
  | nil => rfl
  | cons r rs ih =>
    obtain ⟨id, k, size⟩ := r
    rw [List.map_cons, List.sum_cons, ih]
    cases k <;> simp [ofKind] <;> omega

theorem Balanced.summed (h : c.Balanced) : c.Summed := by
  have htotal : c.totalUsed.toNat = c.liveBytes % 2 ^ 64 := by
    have hsum : c.liveBytes =
        c.nonMethod.used.toNat + c.profiled.used.toNat + c.nonProfiled.used.toNat := by
      rw [liveBytes_eq, ← h.used, ← h.used, ← h.used]
      rfl
    rw [hsum, totalUsed, UInt64.toNat_add, UInt64.toNat_add, Nat.mod_add_mod]
  refine ⟨h.used, htotal, htotal ▸ ⟨fun heq => ?_, Nat.mod_eq_of_lt⟩⟩
  exact heq ▸ Nat.mod_lt _ (by decide)

/-- The live regions lie within the capacities. -/
theorem Balanced.liveBytes_le (h : c.Balanced) : c.liveBytes ≤
    (c.capacity .nonMethod).toNat + (c.capacity .profiled).toNat
      + (c.capacity .nonProfiled).toNat := by
  have hfits (k : BlobKind) : c.bytes (ofKind k) ≤ (c.capacity k).toNat :=
    h.used k ▸ UInt64.le_iff_toNat_le.1 (h.fits k)
  have hnonMethod := hfits .nonMethod
  have hprofiled := hfits .profiled
  have hnonProfiled := hfits .nonProfiled
  rw [liveBytes_eq]
  omega

/-- The accounts agree with the regions, and the capacities are these. -/
structure Holds (c : CodeCache) (capacity : BlobKind → UInt64) : Prop where
  /-- The accounts. -/
  balanced : c.Balanced
  /-- The capacities. -/
  capacity : ∀ k, c.capacity k = capacity k

theorem Holds.step {capacity : BlobKind → UInt64} (h : c.Holds capacity) (hstep : c.Step c') :
    c'.Holds capacity :=
  ⟨hstep.balanced h.balanced, fun k => (hstep.capacity k).trans (h.capacity k)⟩

end CodeCache

/-! ### Three quarters -/

/-- The instructions of a stub are a quarter of the triple of the size, reduced to a word. -/
theorem StubBehavior.toNat_instructions (size : UInt64) :
    (instructions size).toNat = 3 * size.toNat % 2 ^ 64 / 4 := by
  rw [instructions, UInt64.toNat_div, UInt64.toNat_mul, Nat.mul_comm]
  rfl

/-- They are less than the code, also where the triple is no word. -/
theorem StubBehavior.instructions_le (size : UInt64) : instructions size ≤ size := by
  have hmod := Nat.mod_le (3 * size.toNat) (2 ^ 64)
  rw [UInt64.le_iff_toNat_le, toNat_instructions]
  omega

/-- What is to be said of the instructions of code that a stub has installed. -/
structure InstalledCode.ThreeQuarters (c : InstalledCode) : Prop where
  /-- They are a quarter of the triple of the size, reduced to a word. -/
  instructions : c.instructionsSize.toNat = 3 * c.totalSize.toNat % 2 ^ 64 / 4
  /-- They are three quarters if and only if the triple is a word. -/
  exact_iff : c.instructionsSize.toNat = 3 * c.totalSize.toNat / 4 ↔ 3 * c.totalSize.toNat < 2 ^ 64

/-- Code with the size of instructions that a stub asks for. -/
theorem InstalledCode.threeQuarters {c : InstalledCode}
    (h : c.instructionsSize = StubBehavior.instructions c.totalSize) : c.ThreeQuarters := by
  have hins : c.instructionsSize.toNat = 3 * c.totalSize.toNat % 2 ^ 64 / 4 := by
    rw [h, StubBehavior.toNat_instructions]
  exact ⟨hins, by omega⟩

/-- A move that a stub makes: it passes the pause gate between its two phases, uses scratch memory,
ends as it was told to, and returns. -/
def BackendMove.OfStub (m : BackendMove) : Prop :=
  m = .checkpoint ∨ (∃ x, m = .arena (StubBehavior.scratch x)) ∨
    (∃ (s : StubBehavior) (x : Method) (installs : Bool), m ∈ s.moves x installs) ∨ m = .finish

/-- Whatever size a stub installs, it asks for these instructions. -/
theorem BackendMove.OfStub.instructions_eq {total instructions : UInt64}
    (h : (install total instructions).OfStub) : instructions = StubBehavior.instructions total := by
  rcases h with h | ⟨x, h⟩ | ⟨s, x, installs, h⟩ | h
  · cases h
  · cases h
  · cases s <;> cases installs <;> simp [StubBehavior.moves] at h
    rw [h.1, h.2]
  · cases h

/-! ### Where code comes from -/

variable {me : Caller} {ch : Choices} {b : Broker} {turn : Turn} {w : WorkerId} {c : CompileRun}
  {code : InstalledCode}

/-- Code is to be attached after an installation of its size was asked for. -/
structure InstalledCode.AskedFor (code : InstalledCode) (ch : Choices)
    (total instructions : UInt64) : Prop where
  /-- A back-end has asked for it. -/
  move : ch.move = some (.install total instructions)
  /-- Its size is the one asked for. -/
  size : code.totalSize = total
  /-- So are its instructions, but for what would be more than the code. -/
  quarters : code.instructionsSize = if instructions ≤ total then instructions else total

namespace WorkerStep

variable {v : WorkerId} {s : WorkerStep} {worker : Worker} {unit : TierUnit}

/-- No step with which a call begins attaches code. -/
theorem attach_notMem_call (call : Call) : .worker v (.attach c code) ∉ call.agenda := by
  intro h
  have hkind := Call.kind_of_mem h
  simp [Action.kind] at hkind

theorem obey_attach {run : CompileRun} {task : Task} {move : BackendMove}
    (hmove : ch.move = some move) (h : obey b w run task unit move = some turn)
    (hmem : .worker v (.attach c code) ∈ turn.next) : ∃ total instructions, code.AskedFor ch total instructions := by
  cases move with
  | install total instructions =>
    refine ⟨total, instructions, ?_⟩
    rw [obey] at h
    rcases ha : b.cache.allocate unit.config.blobKind total with ⟨full | region, cache⟩
    · rw [ha] at h
      obtain rfl := Option.some.inj h
      simp at hmem
    · rw [ha] at h
      obtain rfl := Option.some.inj h
      simp only [List.mem_singleton, Action.worker.injEq, attach.injEq] at hmem
      obtain ⟨rfl, -⟩ := CodeCache.allocate_ok ha
      obtain ⟨-, -, rfl⟩ := hmem
      exact ⟨hmove, rfl, rfl⟩
  | call call =>
    obtain rfl := Option.some.inj h
    rcases List.mem_append.1 hmem with hmem | hmem
    · exact absurd hmem (attach_notMem_call call)
    · simp at hmem
  | _ =>
    rw [obey] at h
    repeat' split at h
    all_goals
      obtain rfl := Option.some.inj h
      simp at hmem

/-- Only the back-end brings code that is to be attached. -/
theorem exists_install_of_attach (h : s.run me ch b w worker unit = some turn)
    (hmem : .worker v (.attach c code) ∈ turn.next) :
    ∃ total instructions, code.AskedFor ch total instructions := by
  cases s with
  | compile run =>
    rw [WorkerStep.run] at h
    split at h
    · obtain rfl := Option.some.inj h
      simp at hmem
    · cases h
    · exact obey_attach ‹_› h hmem
  | choose =>
    have hstale (ts : List TaskId) : .worker v (.attach c code) ∉ ts.flatMap Action.stale := by
      intro hm
      cases Action.kind_stale ts _ hm
    rw [run] at h
    repeat' split at h
    all_goals
      obtain rfl := Option.some.inj h
      simp [hstale] at hmem
  | judge run =>
    rw [WorkerStep.run] at h
    obtain rfl := Option.some.inj h
    simp at hmem
  | settle =>
    rw [run] at h
    obtain rfl := Option.some.inj h
    rcases List.mem_append.1 hmem with hmem | hmem
    · split at hmem <;> simp at hmem
    · simp at hmem
  | _ =>
    rw [run] at h
    (try simp only at h)
    repeat' split at h
    all_goals first
      | (obtain rfl := Option.some.inj h
         simp at hmem)
      | cases h

end WorkerStep

/-- Whoever brings code that is to be attached, a back-end has asked for it. -/
theorem Action.exists_install_of_attach {a : Action} {v : WorkerId} (h : a.run me ch b = some turn)
    (hmem : .worker v (.attach c code) ∈ turn.next) :
    ∃ total instructions, code.AskedFor ch total instructions := by
  have hkind := Action.brings_of_run h _ hmem
  cases a with
  | worker w s =>
    rw [run] at h
    repeat' split at h
    · obtain rfl := Option.some.inj h
      simp at hmem
    · obtain rfl := Option.some.inj h
      simp at hmem
    · exact WorkerStep.exists_install_of_attach h hmem
  | task s => rcases Action.kind_task s with hk | hk <;> rw [hk] at hkind <;> cases hkind
  | request s | control s => cases s <;> cases hkind
  | _ => cases hkind

/-! ### Runs -/

namespace System

/-- What may happen to a broker and to its code cache, which others may use too. -/
inductive Incident where
  /-- The system moves. -/
  | move (m : Move)
  /-- Somebody else asks the cache for space, or gives some back. -/
  | order (o : CodeCache.Order)

/-- The system after an incident. -/
def occur (s : System) : Incident → System
  | .move m => s.move m
  | .order o => { s with broker.cache := (s.broker.cache.answer o).2 }

/-- The back-end that an incident leaves to move, if there is one, is a stub. -/
def Incident.OfStub : Incident → Prop
  | .move (.step _ ch) => ∀ m ∈ ch.move, m.OfStub
  | _ => True

/-- The code that an incident attaches to a method. -/
def attached? (s : System) : Incident → Option InstalledCode
  | .move m =>
    match s.ran m with
    | some (.worker _ (.attach _ code)) => some code
    | _ => none
  | .order _ => none

/-- The codes that are attached to methods in a row of incidents. -/
def attachments (s : System) : List Incident → List InstalledCode
  | [] => []
  | e :: es => (s.attached? e).toList ++ (s.occur e).attachments es

/-- The code that threads are to attach has three quarters of instructions. -/
def Quartered (s : System) : Prop :=
  ∀ w c code, .worker w (.attach c code) ∈ s.pending → code.ThreeQuarters

variable {s : System} {e : Incident}

/-- Incidents allocate space and release it. -/
theorem step_occur (s : System) (e : Incident) : s.broker.cache.Step (s.occur e).broker.cache := by
  cases e with
  | move m =>
    cases hran : s.ran m with
    | none => exact (steady_of_ran_eq_none hran).cache ▸ .same
    | some a => exact (regular_of_ran hran).cache
  | order o => exact s.broker.cache.step_answer o

theorem Quartered.occur (h : s.Quartered) (he : e.OfStub) : (s.occur e).Quartered := by
  cases e with
  | order o => exact h
  | move m =>
    intro w c code hmem
    cases m with
    | operate o => exact h w c code hmem
    | call call n =>
      rcases mem_pending_call.1 hmem with hmem | hmem
      · exact h w c code hmem
      · exact absurd hmem (WorkerStep.attach_notMem_call call)
    | step i ch =>
      cases hstep : s.step i ch with
      | none =>
        rw [System.occur, System.move, hstep, Option.getD_none] at hmem
        exact h w c code hmem
      | some s' =>
        obtain ⟨t, a, rest, turn, ht, ha, hrun, rfl⟩ := step_eq_some_iff.1 hstep
        rw [System.occur, System.move, hstep, Option.getD_some] at hmem
        rcases mem_turned_cases ht ha hmem (fun w h => by cases h) with hmem | hmem
        · exact h w c code hmem
        · obtain ⟨total, instructions, hasked⟩ := Action.exists_install_of_attach hrun hmem
          have hins := (he _ hasked.move).instructions_eq
          refine InstalledCode.threeQuarters ?_
          rw [hasked.quarters, hins, hasked.size, if_pos (StubBehavior.instructions_le total)]

/-- What an incident attaches was to be attached before it. -/
theorem Quartered.of_attached {code : InstalledCode} (h : s.Quartered)
    (hcode : s.attached? e = some code) : code.ThreeQuarters := by
  cases e with
  | order o => cases hcode
  | move m =>
    rw [attached?] at hcode
    split at hcode
    · rename_i w c code' hran
      obtain rfl := Option.some.inj hcode
      obtain ⟨i, ch, th, rest, turn, hruns⟩ := exists_runs hran
      exact h w c code' hruns.mem_pending
    · cases hcode

theorem Quartered.of_attachments {es : List Incident} {code : InstalledCode} (h : s.Quartered)
    (hes : ∀ e ∈ es, e.OfStub) (hcode : code ∈ s.attachments es) : code.ThreeQuarters := by
  induction es generalizing s with
  | nil => exact absurd hcode List.not_mem_nil
  | cons e es ih =>
    rcases List.mem_append.1 hcode with hcode | hcode
    · exact h.of_attached (Option.mem_toList.1 hcode)
    · exact ih (h.occur (hes e List.mem_cons_self))
        (fun e' he' => hes e' (List.mem_cons_of_mem _ he')) hcode

theorem holds_foldl {capacity : BlobKind → UInt64} (h : s.broker.cache.Holds capacity)
    (es : List Incident) : (es.foldl occur s).broker.cache.Holds capacity := by
  induction es generalizing s with
  | nil => exact h
  | cons e es ih => exact ih (h.step (s.step_occur e))

/-- In every run of a broker, whoever else uses its code cache, the total of the cache is the sum of
the sizes of the live regions reduced to a word: exact while the sum is a word, as it always is if
the capacities together are one. If the back-ends are stubs, all code that is attached to a method
has a quarter of three times its size, reduced to a word, as the size of its instructions: three
quarters exactly if three times the size is a word. -/
theorem sizes_of_run {config : Config} {parts : Broker.Parts} {b : Broker}
    (h : Broker.assemble config parts = .ok b) {capacity : BlobKind → UInt64}
    (hcache : parts.cache =
      .ofCapacities (capacity .nonMethod) (capacity .profiled) (capacity .nonProfiled))
    (es : List Incident) :
    (es.foldl occur (launch b)).broker.cache.Summed ∧
      ((capacity .nonMethod).toNat + (capacity .profiled).toNat + (capacity .nonProfiled).toNat <
          2 ^ 64 →
        (es.foldl occur (launch b)).broker.cache.totalUsed.toNat =
          (es.foldl occur (launch b)).broker.cache.liveBytes) ∧
      ((∀ e ∈ es, e.OfStub) → ∀ code ∈ (launch b).attachments es, code.ThreeQuarters) := by
  have hfirst : (launch b).broker.cache = parts.cache := by
    obtain ⟨units, -, rfl⟩ := Broker.exists_of_assemble h
    rfl
  have hempty : (launch b).broker.cache.Holds capacity := by
    rw [hfirst, hcache]
    exact ⟨CodeCache.balanced_ofCapacities _ _ _, fun k => by cases k <;> rfl⟩
  have hlast := holds_foldl hempty es
  refine ⟨hlast.balanced.summed, fun hsum => ?_, fun hes code hcode => ?_⟩
  · have hle := hlast.balanced.liveBytes_le
    rw [hlast.capacity, hlast.capacity, hlast.capacity] at hle
    exact hlast.balanced.summed.exact_iff.2 (hle.trans_lt hsum)
  · refine Quartered.of_attachments (fun w c code hmem => ?_) hes hcode
    cases mem_pending_launch hmem

end System

/-! ### Sizes at the limit -/

namespace Broker

/-- As much code space as there can be, in two of the segments. -/
def vastCapacity : BlobKind → UInt64
  | .nonMethod => 0
  | .profiled | .nonProfiled => 0xffffffffffffffff

/-- What a broker with two tiers is built from, with that code space. -/
def Parts.vast : Parts :=
  { Parts.duo with
    cache := .ofCapacities (vastCapacity .nonMethod) (vastCapacity .profiled)
      (vastCapacity .nonProfiled) }

/-- A broker with two tiers and as much code space as there can be. -/
def vast : Broker := (assemble .duo .vast).toOption.getD default

theorem assemble_vast : assemble .duo .vast = .ok vast := rfl

end Broker

namespace System

/-- The broker starts, and a method is requested; the compile goes on to its second phase. -/
def vastCompile : List Move :=
  times 0 8 ++ [Move.step 1 {}, .step 1 { started := some (.ok ()) },
    .operate (.addClass { name := "C" }), .operate (.addMethod { name := "f", className := "C" }),
    .call (.request { method := 0, tier := 1 }) 0]
    ++ times 3 20 ++ times 1 11

/-- A stub installs half of what a word can count, and somebody else allocates as much again in
another segment. -/
def vastIncidents : List Incident :=
  vastCompile.map .move
    ++ [Incident.move (.step 1 { move := some (.install 0x8000000000000000
        (StubBehavior.instructions 0x8000000000000000)) }),
      .move (.step 1 {}), .order (.allocate .nonProfiled 0x8000000000000000)]

theorem ofStub_vastIncidents : ∀ e ∈ vastIncidents, e.OfStub := by
  have hinstall : (BackendMove.install 0x8000000000000000
      (StubBehavior.instructions 0x8000000000000000)).OfStub :=
    .inr (.inr (.inl ⟨.succeed 0x8000000000000000, default, true, by simp [StubBehavior.moves]⟩))
  simpa [vastIncidents, vastCompile, times, Incident.OfStub, or_imp, forall_and] using hinstall

/-- There the total is zero though two regions of half a word's count are live, and the code that
was installed has a quarter of instructions. -/
theorem sizes_of_vastIncidents :
    (vastIncidents.foldl occur (launch .vast)).broker.cache.Summed ∧
      (∀ code ∈ (launch .vast).attachments vastIncidents, code.ThreeQuarters) ∧
      (vastIncidents.foldl occur (launch .vast)).broker.cache.totalUsed = 0 ∧
      (vastIncidents.foldl occur (launch .vast)).broker.cache.liveBytes = 2 ^ 64 ∧
      ((launch .vast).attachments vastIncidents).map (fun c => (c.totalSize, c.instructionsSize)) =
        [(0x8000000000000000, 0x2000000000000000)] := by
  have hcache : Broker.Parts.vast.cache = .ofCapacities (Broker.vastCapacity .nonMethod)
      (Broker.vastCapacity .profiled) (Broker.vastCapacity .nonProfiled) := rfl
  have hsizes := sizes_of_run Broker.assemble_vast hcache vastIncidents
  exact ⟨hsizes.1, hsizes.2.2 ofStub_vastIncidents, by decide +kernel, by decide +kernel,
    by decide +kernel⟩

end System

end JitBroker
