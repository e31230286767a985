import Mathlib.Data.Multiset.Filter
import JitBroker.Proofs.Code.Transfer

/-!
# Where the code space is

Every live region of the code cache is somewhere: it is attached to a method, it is in the hands of
a thread that is to attach it or to give it back, or it was pushed out of its place by other code
and is lost. That these add up, each region counted once, is the invariant `Accounted`, which every
transfer preserves (`Accounted.transfer`).

So while no thread has code in hand, the live regions are those that methods refer to, and those
lost. Nothing is ever lost except by attaching standard code to a method that has standard code
(`System.overwritten`); and what is lost stays live for good, as nothing refers to it by which it
could be given back.
-/

namespace JitBroker

/-! ### Accounts -/

/-- The region of code that is to be attached. -/
def Cargo.region? : Cargo → Option Region
  | .attach r => some r
  | .release _ => none

/-- The number of a region that is to be given back. -/
def Cargo.released? : Cargo → Option Nat
  | .attach _ => none
  | .release id => some id

/-- The regions that are to be attached. -/
def attaching (hand : Multiset Cargo) : Multiset Region := hand.filterMap Cargo.region?

/-- The numbers of the regions that are to be given back. -/
def releasing (hand : Multiset Cargo) : Multiset Nat := hand.filterMap Cargo.released?

section hand

variable (hand : Multiset Cargo) (r : Region) (id : Nat)

@[simp] theorem attaching_attach : attaching (.attach r ::ₘ hand) = r ::ₘ attaching hand :=
  Multiset.filterMap_cons_some _ _ _ rfl

@[simp] theorem attaching_release : attaching (.release id ::ₘ hand) = attaching hand :=
  Multiset.filterMap_cons_none _ _ rfl

@[simp] theorem releasing_attach : releasing (.attach r ::ₘ hand) = releasing hand :=
  Multiset.filterMap_cons_none _ _ rfl

@[simp] theorem releasing_release : releasing (.release id ::ₘ hand) = id ::ₘ releasing hand :=
  Multiset.filterMap_cons_some _ _ _ rfl

end hand

/-- All regions in a table of them. -/
def gathered (ms : Table (List Region)) : Multiset Region := ↑ms.toList.flatten

section gathered

variable {ms : Table (List Region)}

@[simp] theorem gathered_add_nil (ms : Table (List Region)) : gathered (ms.add []) = gathered ms := by
  simp [gathered]

/-- The regions of one record, and those of all others. -/
theorem exists_gathered {m : Nat} {rs : List Region} (h : ms[m]? = some rs) :
    ∃ others : Multiset Region, gathered ms = ↑rs + others ∧
      ∀ rs', gathered (ms.modify m fun _ => rs') = ↑rs' + others := by
  obtain ⟨l, r, hl, hr⟩ := Table.toList_split h
  have hsplit (xs : List Region) : (↑(l ++ xs :: r).flatten : Multiset Region) =
      ↑xs + (↑l.flatten + ↑r.flatten) := by
    rw [List.flatten_append, List.flatten_cons, ← Multiset.coe_add, ← Multiset.coe_add]
    abel
  refine ⟨↑l.flatten + ↑r.flatten, ?_, fun rs' => ?_⟩
  · rw [gathered, hl, hsplit]
  · rw [gathered, hr, hsplit]

end gathered

/-- Each live region is attached, in the hands of somebody, or lost. -/
structure Accounted (c : CodeCache) (ms : Table (List Region)) (hand : Multiset Cargo)
    (lost : List Region) : Prop where
  /-- Numbers that are still to come are not in use. -/
  fresh : ∀ r ∈ c.regions, r.id < c.nextId
  /-- No number is in use twice. -/
  nodup : (c.regions.map (·.id)).Nodup
  /-- The regions add up. -/
  balance : ∃ rs : Multiset Region, rs.map (·.id) = releasing hand ∧
    (↑c.regions : Multiset Region) = gathered ms + attaching hand + rs + ↑lost

namespace Accounted

variable {c c' : CodeCache} {ms ms' : Table (List Region)} {hand hand' : Multiset Cargo}
  {lost out : List Region}

theorem of_regions (h : Accounted c ms hand lost) (hregions : c'.regions = c.regions)
    (hnext : c'.nextId = c.nextId) : Accounted c' ms hand lost := by
  obtain ⟨fresh, nodup, balance⟩ := h
  constructor <;> rw [hregions]
  · rwa [hnext]
  · exact nodup
  · exact balance

/-- What is allocated is in hand. -/
theorem allocate (h : Accounted c ms hand lost) {r : Region} (hid : r.id = c.nextId)
    (hregions : c'.regions = r :: c.regions) (hnext : c'.nextId = c.nextId + 1) :
    Accounted c' ms (.attach r ::ₘ hand) lost := by
  obtain ⟨rs, hids, hbalance⟩ := h.balance
  refine ⟨fun x hx => ?_, ?_, rs, by rw [releasing_attach, hids], ?_⟩
  · rw [hregions, List.mem_cons] at hx
    rcases hx with rfl | hx
    · omega
    · have := h.fresh x hx
      omega
  · rw [hregions, List.map_cons, List.nodup_cons]
    refine ⟨fun hr => ?_, h.nodup⟩
    obtain ⟨x, hx, he⟩ := List.mem_map.1 hr
    have := h.fresh x hx
    omega
  · rw [hregions, ← Multiset.cons_coe, hbalance, attaching_attach]
    simp only [← Multiset.singleton_add]
    abel

/-- What is attached is in hand no more, and what it pushes out is lost. -/
theorem attach {m : MethodId} {r : Region} {rs rs' : List Region}
    (h : Accounted c ms (.attach r ::ₘ hand) lost) (hm : ms[m]? = some rs)
    (hperm : (rs' ++ out).Perm (r :: rs)) :
    Accounted c (ms.modify m fun _ => rs') hand (lost ++ out) := by
  obtain ⟨rs₀, hids, hbalance⟩ := h.balance
  rw [releasing_attach] at hids
  obtain ⟨others, hgathered, hmodify⟩ := exists_gathered hm
  have hperm : (↑rs' : Multiset Region) + ↑out = {r} + ↑rs := by
    rw [Multiset.coe_add, ← Multiset.coe_singleton, Multiset.coe_add]
    exact Multiset.coe_eq_coe.2 hperm
  refine ⟨h.fresh, h.nodup, rs₀, hids, ?_⟩
  rw [hbalance, hgathered, hmodify, attaching_attach, ← Multiset.coe_add, ← Multiset.singleton_add]
  calc ↑rs + others + ({r} + attaching hand) + rs₀ + ↑lost
      = ({r} + ↑rs) + others + attaching hand + rs₀ + ↑lost := by abel
    _ = (↑rs' + ↑out) + others + attaching hand + rs₀ + ↑lost := by rw [hperm]
    _ = ↑rs' + others + attaching hand + rs₀ + (↑lost + ↑out) := by abel

/-- What is detached is in hand. -/
theorem detach {m : MethodId} {r : Region} {rs rs' : List Region} (h : Accounted c ms hand lost)
    (hm : ms[m]? = some rs) (hperm : rs.Perm (r :: rs')) :
    Accounted c (ms.modify m fun _ => rs') (.release r.id ::ₘ hand) lost := by
  obtain ⟨rs₀, hids, hbalance⟩ := h.balance
  obtain ⟨others, hgathered, hmodify⟩ := exists_gathered hm
  refine ⟨h.fresh, h.nodup, r ::ₘ rs₀, by rw [Multiset.map_cons, hids, releasing_release], ?_⟩
  rw [hbalance, hgathered, hmodify, attaching_release, Multiset.coe_eq_coe.2 hperm,
    ← Multiset.cons_coe]
  simp only [← Multiset.singleton_add]
  abel

theorem nextId_release (c : CodeCache) (id : Nat) : (c.release id).2.nextId = c.nextId := by
  unfold CodeCache.release
  split
  · rename_i r _
    cases r.kind <;> rfl
  · rfl

/-- Giving a region back takes it, and nothing else, out of the cache. -/
theorem release {id : Nat} (h : Accounted c ms (.release id ::ₘ hand) lost) :
    Accounted (c.release id).2 ms hand lost := by
  obtain ⟨rs₀, hids, hbalance⟩ := h.balance
  rw [releasing_release, ← Multiset.map_eq_cons] at hids
  obtain ⟨r, hr, rfl, hids⟩ := hids
  -- The region to be given back is live, and the only one with its number.
  have hlive : (↑c.regions : Multiset Region) =
      r ::ₘ (gathered ms + attaching hand + rs₀.erase r + ↑lost) := by
    rw [hbalance, attaching_release, ← Multiset.cons_erase hr, Multiset.erase_cons_head]
    simp only [← Multiset.singleton_add]
    abel
  have hnodup : (Multiset.map (·.id) (↑c.regions : Multiset Region)).Nodup := by
    simpa using h.nodup
  rw [hlive, Multiset.map_cons, Multiset.nodup_cons] at hnodup
  obtain ⟨x, hx⟩ : ∃ x, c.region? r.id = some x := by
    have : r ∈ c.regions := Multiset.mem_coe.1 (hlive ▸ Multiset.mem_cons_self r _)
    exact Option.isSome_iff_exists.1 (List.find?_isSome.2 ⟨r, this, beq_self_eq_true _⟩)
  have hregions : (c.release r.id).2.regions = c.regions.filter (·.id ≠ r.id) := by
    simp only [CodeCache.release, hx]
    exact List.filter_congr fun y _ => by rw [bne, decide_not, beq_eq_decide]
  refine ⟨?_, ?_, rs₀.erase r, hids, ?_⟩
  · rw [hregions, nextId_release]
    exact fun y hy => h.fresh y (List.mem_of_mem_filter hy)
  · rw [hregions]
    exact h.nodup.sublist (List.filter_sublist.map _)
  · rw [hregions, ← Multiset.filter_coe, hlive, Multiset.filter_cons_of_neg _ (by simp)]
    refine Multiset.filter_eq_self.2 fun y hy he => hnodup.1 ?_
    exact Multiset.mem_map.2 ⟨y, hy, he⟩

/-- Every transfer keeps the accounts. -/
theorem transfer {k : Option Cargo} {new : List Cargo} (h : Accounted c ms hand lost)
    (ht : Transfer c ms k new out c' ms') (hk : ∀ k' ∈ k, k' ∈ hand)
    (hhand : hand' + ↑k.toList = hand + ↑new) : Accounted c' ms' hand' (lost ++ out) := by
  cases ht with
  | same hregions hnext =>
    obtain rfl : hand' = hand := by simpa using hhand
    rw [List.append_nil]
    exact h.of_regions hregions hnext
  | know =>
    obtain rfl : hand' = hand := by simpa using hhand
    obtain ⟨fresh, nodup, balance⟩ := h
    rw [List.append_nil]
    exact ⟨fresh, nodup, by rwa [gathered_add_nil]⟩
  | @allocate _ r hid hregions hnext =>
    obtain rfl : hand' = .attach r ::ₘ hand := by
      rw [← Multiset.singleton_add, add_comm]
      simpa using hhand
    rw [List.append_nil]
    exact h.allocate hid hregions hnext
  | @attach _ r _ _ _ hm hperm =>
    obtain rfl : hand = .attach r ::ₘ hand' := by
      rw [← Multiset.singleton_add, add_comm]
      simpa using hhand.symm
    exact h.attach hm hperm
  | @detach _ r _ _ hm hperm =>
    obtain rfl : hand' = .release r.id ::ₘ hand := by
      rw [← Multiset.singleton_add, add_comm]
      simpa using hhand
    rw [List.append_nil]
    exact h.detach hm hperm
  | release id =>
    obtain rfl : hand = .release id ::ₘ hand' := by
      rw [← Multiset.singleton_add, add_comm]
      simpa using hhand.symm
    rw [List.append_nil]
    exact h.release

end Accounted

/-! ### The space of a system -/

/-- The regions of the codes attached to methods. -/
def Broker.codeRegions (b : Broker) : Multiset Region := ↑(b.methods.toList.flatMap Method.regions)

theorem Broker.gathered_attached (b : Broker) : gathered b.attached = b.codeRegions := by
  rw [gathered, attached, Table.toList_map, codeRegions, List.flatMap_def]

namespace System

variable {s s' : System} {i : ThreadId} {ch : Choices} {gone : List Region}

/-- What the threads have in hand. -/
def hand (s : System) : Multiset Cargo := s.pending.filterMap Action.cargo?

theorem mem_hand {k : Cargo} : k ∈ s.hand ↔ ∃ a ∈ s.pending, a.cargo? = some k := by
  simp [hand]

/-- A step uses up what its action had in hand, and brings what those in its place have. -/
theorem hand_turned {t : Thread} {a : Action} {rest : List Action} {turn : Turn}
    (ht : s.threads[i]? = some t) (ha : t.agenda = a :: rest) :
    (s.turned i turn).hand + ↑a.cargo?.toList = s.hand + ↑(cargo turn.next) := by
  have h := congrArg (Multiset.filterMap Action.cargo?) (@pending_turned s i t a turn rest ht ha)
  rw [Multiset.filterMap_add, Multiset.filterMap_add, Multiset.filterMap_coe] at h
  have hone : Multiset.filterMap Action.cargo? {a} = ↑a.cargo?.toList := by
    rw [← Multiset.coe_singleton, Multiset.filterMap_coe, List.filterMap_cons]
    cases a.cargo? <;> rfl
  have hbrings : List.filterMap Action.cargo? turn.brings = cargo turn.next := by
    unfold Turn.brings
    rw [List.filterMap_append]
    cases turn.hired <;> simp [cargo, Action.cargo?]
  rw [hone, hbrings] at h
  exact h

@[simp] theorem hand_call (s : System) (c : Call) (n : Nat) : (s.call c n).hand = s.hand := by
  have h := cargo_call c
  rw [cargo] at h
  simp [hand, call, h]

@[simp] theorem hand_operate (s : System) (o : Operation) : (s.operate o).hand = s.hand := rfl

/-- The regions that a move pushes out of their places. -/
def overwritten (s : System) (m : Move) : List Region := (s.ran m).toList.flatMap s.broker.replaced

/-- The regions that are pushed out of their places in a row of moves. -/
def lost (s : System) : List Move → List Region
  | [] => []
  | m :: ms => s.overwritten m ++ (s.move m).lost ms

/-- The live regions of a system are accounted for, if these are lost. -/
def Accounts (s : System) (gone : List Region) : Prop :=
  Accounted s.broker.cache s.broker.attached s.hand gone

/-- Every move keeps the accounts. -/
theorem Accounts.move (h : s.Accounts gone) (hs : s.Lawful) (m : Move) :
    (s.move m).Accounts (gone ++ s.overwritten m) := by
  cases m with
  | call c n =>
    have : (s.call c n).Accounts gone := by
      rw [Accounts, hand_call]
      exact h
    simpa [System.move, overwritten, ran] using this
  | operate o =>
    have : (s.operate o).Accounts (gone ++ []) :=
      Accounted.transfer h (s.broker.operate_transfer o) (by simp) rfl
    simpa [System.move, overwritten, ran] using this
  | step i ch =>
    cases hstep : s.step i ch with
    | none => simpa [System.move, overwritten, ran, hstep] using h
    | some s' =>
      obtain ⟨t, a, rest, turn, ht, ha, hrun, rfl, hshift⟩ := hs.shift hstep
      have hready (d : Duty) (hd : d ∈ a.duty?) : Duty.Ready s.broker.ledger d :=
        hs.ready d (hshift.mem d hd)
      have hmem (k : Cargo) (hk : k ∈ a.cargo?) : k ∈ s.hand :=
        mem_hand.2 ⟨a, mem_pending.2 ⟨i, t, ht, by simp [ha]⟩, hk⟩
      have hhand : (s.turned i turn).hand + ↑a.cargo?.toList = s.hand + ↑(cargo turn.next) :=
        hand_turned ht ha
      have := Accounted.transfer h (Action.transfer hs.sound hready hrun) hmem hhand
      simpa [Accounts, System.move, hstep, overwritten, ran, ht, ha] using this

/-- Rows of moves keep the accounts. -/
theorem Accounts.foldl (h : s.Accounts gone) (hs : s.Lawful) (ms : List Move) :
    (ms.foldl System.move s).Accounts (gone ++ s.lost ms) := by
  induction ms generalizing s gone with
  | nil => simpa [System.lost] using h
  | cons m ms ih =>
    rw [List.foldl_cons, System.lost, ← List.append_assoc]
    exact ih (h.move hs m) (hs.move m)

/-- Where the code space of a system is, if these regions were pushed out of their places. -/
structure Space (s : System) (gone : List Region) : Prop where
  /-- No two live regions have the same number. -/
  nodup : (s.broker.cache.regions.map (·.id)).Nodup
  /-- The live regions are those attached to methods, those that threads are to attach or to give
  back, and those pushed out of their places. -/
  balance : ∃ rs : Multiset Region, rs.map (·.id) = releasing s.hand ∧
    (↑s.broker.cache.regions : Multiset Region) =
      s.broker.codeRegions + attaching s.hand + rs + ↑gone
  /-- While no thread has code in hand, the live regions are exactly those attached to methods, if
  and only if none was ever pushed out of its place. -/
  conserved : s.hand = 0 →
    ((↑s.broker.cache.regions : Multiset Region) = s.broker.codeRegions ↔ gone = [])

theorem Accounts.space (h : s.Accounts gone) : s.Space gone where
  nodup := h.nodup
  balance := s.broker.gathered_attached ▸ h.balance
  conserved hhand := by
    obtain ⟨rs, hids, hbalance⟩ := h.balance
    rw [hhand, show releasing 0 = 0 from rfl, Multiset.map_eq_zero] at hids
    rw [hbalance, hids, hhand, show attaching 0 = 0 from rfl, Broker.gathered_attached, add_zero,
      add_zero, add_eq_left, Multiset.coe_eq_zero]

/-- At the start no region is live. -/
theorem accounts_launch {config : Config} {parts : Broker.Parts} {b : Broker}
    (h : Broker.assemble config parts = .ok b) (hempty : parts.cache.regions = []) :
    (launch b).Accounts [] := by
  obtain ⟨units, -, rfl⟩ := Broker.exists_of_assemble h
  refine ⟨?_, ?_, 0, rfl, ?_⟩
  all_goals simp only [launch, hempty]
  · exact fun r hr => absurd hr List.not_mem_nil
  · exact List.nodup_nil
  · rw [Broker.gathered_attached]
    rfl

/-- In every run of a broker that starts with an empty code cache, the live regions are those that
methods refer to, unless code was pushed out of its place by other code. -/
theorem space_of_run {config : Config} {parts : Broker.Parts} {b : Broker}
    (h : Broker.assemble config parts = .ok b) (hempty : parts.cache.regions = [])
    (moves : List Move) : (moves.foldl move (launch b)).Space ((launch b).lost moves) :=
  ((accounts_launch h hempty).foldl (lawful_launch (Broker.fresh_assemble h)) moves).space

/-- A method is requested, and its code is installed. -/
def soloInstall (i : ThreadId) : List Move :=
  [.call (.request { method := 0, tier := 1, reason := .normal, blocking := true }) 0]
    ++ times i 21 ++ times 1 11
    ++ [.step 1 { move := some (.install 256 128) }, .step 1 {}, .step 1 { move := some .finish }]
    ++ times 1 12 ++ times i 6

/-- The code of a method is closed to new entries, and the method is compiled again. -/
def soloRecompile : List Move :=
  soloStart ++ soloInstall 2 ++ [.operate (.close 0 1)] ++ soloInstall 3

/-- There the first code is lost: two regions are live, and the method refers to one of them. -/
theorem space_of_soloRecompile :
    (soloRecompile.foldl move (launch .solo)).Space ((launch .solo).lost soloRecompile) ∧
      (launch .solo).lost soloRecompile = [⟨1, .profiled, 256⟩] ∧
      (soloRecompile.foldl move (launch .solo)).broker.cache.regions.length = 2 :=
  ⟨space_of_run Broker.assemble_solo rfl _, by decide +kernel⟩

end System

end JitBroker
