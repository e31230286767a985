import Mathlib.Algebra.BigOperators.Group.Multiset.Basic
import JitBroker.Proofs.Backend.Startup
import JitBroker.Proofs.Counters.Frame
import JitBroker.Proofs.Counters.Record
import JitBroker.Proofs.Numbers.Event

/-!
# The statistics agree

The statistics count every compile over all tiers and for its tier, and the back-end counts those
that were successful. Back-end and statistics are told one after the other, by two steps of the
worker, so the back-end may be ahead of the counters of its tier by the compiles that a worker is
between the two steps with (`System.ahead`).

As long as no counter wraps, in every state of every run (`System.agree_of_run`):

* each counter over all tiers is the sum of those of the tiers;
* each success of a tier is a standard compile or one for an OSR entry;
* each counter of a back-end is the one of its tier, and the gain of the compiles by which it is
  ahead; so it is the same number when no worker is between the two steps.
-/

namespace JitBroker

/-! ### What a back-end is ahead by -/

namespace Broker

/-- A compile as it is counted. -/
def compiled? (b : Broker) (f : Finished) : Option Compiled := do
  let x ← b.tasks[f.task]?
  let m ← b.methods[x.method]?
  return ⟨x.isOsr, m.bytecodeSize, f.result, f.invalidated, f.elapsed⟩

/-- The compile that an action is to count, if the back-end of a unit has counted it before. -/
def ahead? (b : Broker) (u : UnitId) : Action → Option Compiled
  | .worker w (.count f) => do
    let worker ← b.workers[w]?
    if worker.unit = u ∧ f.result.success then b.compiled? f else none
  | _ => none

/-- What the back-end of a unit shows. -/
def reading? (b : Broker) (u : UnitId) (c : Counter) : Option Nat :=
  b.units[u]?.bind (·.stats.reading? c)

/-- No counter is lower in the second broker. -/
structure Rises (b b' : Broker) : Prop where
  /-- None of the statistics. -/
  stats : b.stats.Rises b'.stats
  /-- None of a back-end. -/
  backend : ∀ u < b.units.size, ∀ c, ∀ n ∈ b.reading? u c, ∀ n' ∈ b'.reading? u c, n ≤ n'

instance (b b' : Broker) : Decidable (b.Rises b') :=
  decidable_of_iff (b.stats.Rises b'.stats ∧
    ∀ u < b.units.size, ∀ c, ∀ n ∈ b.reading? u c, ∀ n' ∈ b'.reading? u c, n ≤ n')
    ⟨fun h => ⟨h.1, h.2⟩, fun h => ⟨h.1, h.2⟩⟩

variable {b : Broker} {f : Finished} {u : UnitId} {a : Action}

theorem compiled_eq {x : Task} {m : Method} (hx : b.tasks[f.task]? = some x)
    (hm : b.methods[x.method]? = some m) :
    b.compiled? f = some ⟨x.isOsr, m.bytecodeSize, f.result, f.invalidated, f.elapsed⟩ := by
  simp [compiled?, hx, hm]

theorem ahead_eq {w : WorkerId} {worker : Worker} (hw : b.workers[w]? = some worker) :
    b.ahead? u (.worker w (.count f)) =
      if worker.unit = u ∧ f.result.success then b.compiled? f else none := by
  simp [ahead?, hw]

theorem ahead_of_counts (h : a.counts = false) : b.ahead? u a = none := by
  unfold ahead?
  split
  · cases h
  · rfl

/-- A back-end is not ahead by a failure. -/
theorem ahead_of_failure {w : WorkerId} (h : f.result.success = false) :
    b.ahead? u (.worker w (.count f)) = none := by
  unfold ahead?
  cases b.workers[w]? <;> simp [h]

/-- A back-end that is told of a success raises its counters by the gain, if none wraps. -/
theorem reading_record {x : Compiled} {v : UnitId} {c : Counter} {k : Nat}
    (hsuccess : x.result.success = true)
    (hk : (b.modifyUnit v fun y =>
      { y with stats := y.stats.record x.osr x.bytecodes x.result x.elapsed }).reading? u c = some k)
    (hle : ∀ n ∈ b.reading? u c, n ≤ k) :
    ∃ n, b.reading? u c = some n ∧ k = n + if v = u then x.gain c else 0 := by
  obtain ⟨unit', hunit', hk⟩ := Option.bind_eq_some_iff.1 hk
  obtain ⟨unit, hunit, ⟨hne, rfl⟩ | ⟨rfl, rfl⟩⟩ := Table.exists_of_modify hunit'
  · exact ⟨k, by rw [reading?, hunit]; exact hk, by rw [if_neg hne, Nat.add_zero]⟩
  · obtain ⟨n, hn⟩ := Option.isSome_iff_exists.1
      ((BackendStatistics.isSome_reading unit.stats _ c).trans (Option.isSome_of_eq_some hk))
    have hreading : b.reading? v c = some n := by rw [reading?, hunit]; exact hn
    refine ⟨n, hreading, ?_⟩
    rw [if_pos rfl]
    exact BackendStatistics.reading_record hsuccess hn hk (hle n hreading)

end Broker

namespace System

variable {s : System} {m : Move} {u : UnitId} {c : Counter}

/-- The compiles that the back-end of a unit has counted, and the statistics have not. -/
def ahead (s : System) (u : UnitId) : Multiset Compiled := s.pending.filterMap (s.broker.ahead? u)

/-- What the back-end of a unit is ahead by in a counter. -/
def lead (s : System) (u : UnitId) (c : Counter) : Nat := ((s.ahead u).map (·.gain c)).sum

/-- No counter wraps in a run: none goes down. -/
def NeverWraps (s : System) : List Move → Prop
  | [] => True
  | m :: ms => s.broker.Rises (s.move m).broker ∧ (s.move m).NeverWraps ms

instance decidableNeverWraps (s : System) : (ms : List Move) → Decidable (s.NeverWraps ms)
  | [] => .isTrue trivial
  | m :: ms =>
    have := decidableNeverWraps (s.move m) ms
    inferInstanceAs (Decidable (_ ∧ _))

theorem filterMap_congr {α β : Type} {f g : α → Option β} {l : Multiset α}
    (h : ∀ a ∈ l, f a = g a) : l.filterMap f = l.filterMap g := by
  induction l using Quotient.inductionOn with
  | h l => exact congrArg _ (List.filterMap_congr h)

/-- What an action is to count stays the same. -/
theorem ahead_move (hs : s.Lawful) (hsized : s.broker.Sized (s.move m).broker) (u : UnitId)
    {a : Action} (ha : a ∈ s.pending) : (s.move m).broker.ahead? u a = s.broker.ahead? u a := by
  cases hcounts : a.counts with
  | false => rw [Broker.ahead_of_counts hcounts, Broker.ahead_of_counts hcounts]
  | true =>
    unfold Action.counts at hcounts
    split at hcounts
    · -- The worker keeps its unit, its task the method and the entry, and the method its size.
      rename_i w f
      have hknown := hs.known _ (mem_duties.2 ⟨_, ha, rfl⟩)
      have hext := hs.extends_move m
      obtain ⟨worker, hw⟩ := Table.exists_getElem? (t := s.broker.workers)
        (by simpa using show w < s.broker.ledger.posts.size from hknown.1)
      obtain ⟨p, hp, hunit⟩ := hext.post
        (show s.broker.ledger.posts[w]? = some worker.post by simp [hw])
      obtain ⟨worker', hw', rfl⟩ := Option.map_eq_some_iff.1
        ((Table.getElem?_map _ _ _).symm.trans hp)
      obtain ⟨x, hx⟩ := Table.exists_getElem? (hknown.2 f.task rfl)
      obtain ⟨x', hx', hev⟩ := hext.task hx
      obtain ⟨n, hn⟩ := hs.sound.exists_method hx
      obtain ⟨n', hn', hsize⟩ := hsized hn
      rw [Broker.ahead_eq hw, Broker.ahead_eq hw', show worker'.unit = worker.unit from hunit,
        Broker.compiled_eq hx hn, Broker.compiled_eq hx' (hev.method ▸ hn'), hsize, Task.isOsr,
        hev.entryBci]
      rfl
    · cases hcounts

/-! ### Every move -/

/-- What the statistics and the back-ends have counted, and what is still to be counted, agree. -/
structure Counted (s : System) : Prop where
  /-- The counters over all tiers are the sums of those of the tiers. -/
  summed : s.broker.stats.Summed
  /-- What a back-end may be told of was judged. -/
  judged : ∀ a ∈ s.pending, ∀ f ∈ a.ruled?, f.Judged
  /-- A back-end has counted what is counted for its tier, and what it is ahead by. -/
  backend : ∀ {u : UnitId} {tier : Tier}, s.broker.tierOf u = some tier → ∀ {c : Counter} {n : Nat},
    s.broker.reading? u c = some n → n = (s.broker.stats.tier tier).reading c + s.lead u c

/-- A move that counts nothing, and after which no more is to be counted than before. -/
theorem Counted.uncounted (h : s.Counted) (hb : s.broker.Uncounted (s.move m).broker)
    (hjudged : ∀ a ∈ (s.move m).pending, ∀ f ∈ a.ruled?, f.Judged)
    (hlead : ∀ u c, (s.move m).lead u c = s.lead u c) : (s.move m).Counted := by
  refine ⟨?_, hjudged, fun {u tier} hu {c n} hn => ?_⟩
  · refine ⟨by rw [hb.tiers]; exact h.summed.ascending, fun c => ?_, ?_⟩
    · rw [hb.tiers, hb.total, h.summed.total]
    · rw [hb.tiers]
      exact h.summed.successes
  · have hreading : (s.move m).broker.reading? u c = s.broker.reading? u c := by
      have hunit := congrArg (fun t => t[u]?.bind (·.reading? c)) hb.backends
      simpa [Broker.reading?, Option.bind_map, Function.comp_def] using hunit
    rw [Broker.tierOf_congr (unitConfigs_move s m)] at hu
    rw [Statistics.tier, hb.tiers, hlead]
    exact h.backend hu (hreading ▸ hn)

section Runs

variable {i : ThreadId} {ch : Choices} {th : Thread} {a : Action} {rest : List Action} {turn : Turn}
  {w : WorkerId} {f : Finished}

/-- A step counts what was to be counted, and brings what is to be counted after it. -/
theorem Runs.lead_move (hs : s.Lawful) (hruns : s.Runs m i ch th a rest turn)
    (hsized : s.broker.Sized (s.move m).broker) (u : UnitId) (c : Counter) :
    (s.move m).lead u c + ((s.broker.ahead? u a).map (·.gain c)).getD 0 = s.lead u c +
      ((turn.brings.filterMap ((s.move m).broker.ahead? u)).map (·.gain c)).sum := by
  have hsame : s.pending.filterMap ((s.move m).broker.ahead? u) =
      s.pending.filterMap (s.broker.ahead? u) :=
    filterMap_congr fun a ha => ahead_move hs hsized u ha
  have hpending := hruns.filterMap_pending ((s.move m).broker.ahead? u)
  rw [ahead_move hs hsized u hruns.mem_pending, hsame] at hpending
  have hsum := congrArg (fun l => (l.map (·.gain c)).sum) hpending
  simp only [Multiset.map_add, Multiset.sum_add, Multiset.map_coe, Multiset.sum_coe] at hsum
  rw [lead, lead, ahead, ahead, ← hsum]
  cases s.broker.ahead? u a <;> rfl

theorem Runs.judged_move (h : s.Counted) (hruns : s.Runs m i ch th a rest turn)
    (hnew : ∀ a ∈ turn.brings, ∀ f ∈ a.ruled?, f.Judged) :
    ∀ a ∈ (s.move m).pending, ∀ f ∈ a.ruled?, f.Judged := by
  intro a ha
  rw [hruns.turned] at ha
  exact (mem_pending_turned hruns.thread hruns.agenda ha).elim (h.judged a) (hnew a)

theorem Runs.lead_of_none (hs : s.Lawful) (hruns : s.Runs m i ch th a rest turn)
    (hsized : s.broker.Sized (s.move m).broker) (hran : s.broker.ahead? u a = none)
    (hnew : ∀ a ∈ turn.brings, (s.move m).broker.ahead? u a = none) (c : Counter) :
    (s.move m).lead u c = s.lead u c := by
  have hlead := hruns.lead_move hs hsized u c
  rwa [List.filterMap_eq_nil_iff.2 hnew, hran] at hlead

/-- Most steps neither count nor lead to a count. -/
theorem Counted.other (h : s.Counted) (hs : s.Lawful) (hruns : s.Runs m i ch th a rest turn)
    (hscores : a.scores = false) : (s.move m).Counted := by
  have hb : s.broker.Uncounted (s.move m).broker := by
    rw [hruns.turned]
    exact Action.run_uncounted hscores hruns.run
  have hfair : ∀ a ∈ turn.brings, a.Fair := by
    refine List.forall_mem_append.2 ⟨Action.run_fair hscores hruns.run, fun a ha => ?_⟩
    obtain ⟨w, -, rfl⟩ := List.mem_map.1 ha
    exact Action.fair_of_scores rfl
  refine h.uncounted hb (hruns.judged_move h fun a ha => (hfair a ha).2) fun u c => ?_
  exact hruns.lead_of_none hs hb.sizes (Broker.ahead_of_counts (Action.fair_of_scores hscores).1)
    (fun a ha => Broker.ahead_of_counts (hfair a ha).1) c

/-- A worker that has the result of a compile finds the task and its method, and is of the unit of
the tier. -/
theorem Runs.exists_worker (hs : s.Lawful) (ht : s.Tiered) {st : WorkerStep}
    (h : s.Runs m i ch th (.worker w st) rest turn) {t : TaskId} (hphase : st.phase.task? = some t) :
    ∃ worker unit x n, s.broker.workers[w]? = some worker ∧
      s.broker.tierOf worker.unit = some x.tier ∧ s.broker.tasks[t]? = some x ∧
      s.broker.methods[x.method]? = some n ∧
      st.run (th.caller i) ch s.broker w worker unit = some turn := by
  have hduty := mem_duties.2 ⟨_, h.mem_pending, rfl⟩
  have hknown := hs.known _ hduty
  obtain ⟨worker, unit, hw, -, hrun⟩ := Action.worker_run hs.sound hknown.1 h.run
  obtain ⟨x, p, hx, hp, htier⟩ := ht.task.duty _ hduty t hphase
  obtain ⟨n, hn⟩ := hs.sound.exists_method hx
  obtain rfl : worker.post = p := by
    have hpost : s.ledger.posts[w]? = some worker.post := by simp [ledger, hw]
    exact Option.some.inj (hpost.symm.trans hp)
  exact ⟨worker, unit, x, n, hw, htier, hx, hn, hrun⟩

/-- A worker tells its back-end of a success, or marks the method after a failure, and is to count
the compile in both cases. -/
theorem Runs.rule (hs : s.Lawful) (ht : s.Tiered)
    (hruns : s.Runs m i ch th (.worker w (.rule f)) rest turn) :
    ∃ f' worker x n, f'.task = f.task ∧ f'.result = f.result ∧
      turn.brings = [.worker w (.count f')] ∧ s.broker.workers[w]? = some worker ∧
      s.broker.tasks[f.task]? = some x ∧ s.broker.methods[x.method]? = some n ∧
      (f.result.failure.isSome = true ∧
          turn.broker = s.broker.modifyMethod x.method
            (·.afterFailure x.isOsr x.tier f.scope) ∨
        f.result.failure.isSome = false ∧
          turn.broker = s.broker.modifyUnit worker.unit fun y =>
            { y with stats := y.stats.record x.isOsr n.bytecodeSize f.result f'.elapsed }) := by
  obtain ⟨worker, unit, x, n, hw, -, hx, hn, hrun⟩ := hruns.exists_worker hs ht rfl
  simp only [WorkerStep.run, hx, hn] at hrun
  split at hrun <;> obtain rfl := Option.some.inj hrun <;> rename_i hfailure
  · exact ⟨_, worker, x, n, by rfl, by rfl, rfl, hw, hx, hn, .inl ⟨hfailure, rfl⟩⟩
  · exact ⟨_, worker, x, n, by rfl, by rfl, rfl, hw, hx, hn,
      .inr ⟨Bool.eq_false_iff.2 hfailure, rfl⟩⟩

theorem Counted.rule (h : s.Counted) (hs : s.Lawful) (ht : s.Tiered)
    (hruns : s.Runs m i ch th (.worker w (.rule f)) rest turn)
    (hrises : s.broker.Rises (s.move m).broker) : (s.move m).Counted := by
  obtain ⟨f', worker, x, n, htask, hresult, hbrings, hw, hx, hn, hturn⟩ := hruns.rule hs ht
  have hjudged : f.result.success = f.result.failure.isNone := h.judged _ hruns.mem_pending f rfl
  have hbroker : (s.move m).broker = turn.broker := by rw [hruns.turned, broker_turned]
  have hjudged' : ∀ a ∈ (s.move m).pending, ∀ f ∈ a.ruled?, f.Judged := by
    refine hruns.judged_move h ?_
    rw [hbrings]
    exact List.forall_mem_singleton.2 fun _ hf => by cases hf
  rw [← hresult, ← Option.not_isSome] at hjudged
  rw [← hresult] at hturn
  rcases hturn with ⟨hfailure, hturn⟩ | ⟨hfailure, hturn⟩ <;> rw [hfailure] at hjudged
  · -- After a failure only the method is marked, and the back-end is not ahead by it.
    have hb : s.broker.Uncounted (s.move m).broker := by
      rw [hbroker, hturn]
      exact s.broker.uncounted_modifyMethod (fun _ => by simp) _
    refine h.uncounted hb hjudged' fun u c => hruns.lead_of_none hs hb.sizes
      (Broker.ahead_of_counts rfl) ?_ c
    rw [hbrings]
    exact List.forall_mem_singleton.2 (Broker.ahead_of_failure hjudged)
  · -- After a success the counter of the back-end and its lead both rise by the gain.
    have hmove := hbroker.trans hturn
    have hsized : s.broker.Sized (s.move m).broker := by
      rw [hmove]
      exact fun hx => ⟨_, hx, rfl⟩
    have hstats : (s.move m).broker.stats = s.broker.stats := by rw [hmove]; rfl
    refine ⟨hstats ▸ h.summed, hjudged', fun {u tier} hu {c k} hk => ?_⟩
    rw [Broker.tierOf_congr (unitConfigs_move s m)] at hu
    have hle : ∀ n ∈ s.broker.reading? u c, n ≤ k := fun n hn => hrises.backend u
      (by
        obtain ⟨unit, hunit, -⟩ := Option.bind_eq_some_iff.1 hn
        exact Table.lt_size_of_getElem? hunit) c n hn k hk
    have hcompiled : (s.move m).broker.compiled? f' =
        some ⟨x.isOsr, n.bytecodeSize, f'.result, f'.invalidated, f'.elapsed⟩ :=
      Broker.compiled_eq (by rw [hmove, htask]; exact hx) (by rw [hmove]; exact hn)
    have hahead := Broker.ahead_eq (u := u) (f := f') (show (s.move m).broker.workers[w]? = some worker by
      rw [hmove]; exact hw)
    have hlead := hruns.lead_move hs hsized u c
    rw [Broker.ahead_of_counts rfl, hbrings, List.filterMap_cons, hahead, hcompiled, hjudged] at hlead
    rw [hmove] at hk
    obtain ⟨k₀, hk₀, hgain⟩ := Broker.reading_record
      (x := ⟨x.isOsr, n.bytecodeSize, f'.result, f'.invalidated, f'.elapsed⟩) hjudged hk hle
    have hbackend := h.backend hu hk₀
    rw [hstats]
    by_cases hunit : worker.unit = u
    · simp [hunit] at hgain hlead
      omega
    · simp [hunit] at hgain hlead
      omega

/-- A worker counts a compile, by which the back-end is no longer ahead. -/
theorem Counted.count (h : s.Counted) (hs : s.Lawful) (ht : s.Tiered) (htiers : s.broker.tiers.Nodup)
    (hruns : s.Runs m i ch th (.worker w (.count f)) rest turn)
    (hrises : s.broker.Rises (s.move m).broker) : (s.move m).Counted := by
  obtain ⟨worker, unit, x, n, hw, htier, hx, hn, hrun⟩ := hruns.exists_worker hs ht rfl
  simp only [WorkerStep.run, hx, hn] at hrun
  obtain rfl := Option.some.inj hrun
  have hmove : (s.move m).broker =
      { s.broker with stats := s.broker.stats.record x n f.result f.invalidated f.elapsed } := by
    rw [hruns.turned, broker_turned]
  have hsized : s.broker.Sized (s.move m).broker := by
    rw [hmove]
    exact fun hx => ⟨_, hx, rfl⟩
  have hstats := congrArg Broker.stats hmove
  have hrecord := hstats ▸ hrises.stats
  refine ⟨?_, hruns.judged_move h ?_, fun {u tier} hu {c k} hk => ?_⟩
  · rw [hstats]
    exact h.summed.record hrecord
  · exact List.forall_mem_singleton.2 fun _ hf => by cases hf
  · rw [Broker.tierOf_congr (unitConfigs_move s m)] at hu
    have hk : s.broker.reading? u c = some k := by
      rw [hmove] at hk
      exact hk
    have hbackend := h.backend hu hk
    have hlead : (s.move m).lead u c + _ = s.lead u c := hruns.lead_move hs hsized u c
    rw [Broker.ahead_eq hw, Broker.compiled_eq hx hn] at hlead
    rw [hstats, Statistics.reading_tier_record h.summed hrecord]
    by_cases htask : x.tier = tier
    · -- The counter of the tier rises by the gain, and the lead of its one unit falls by it.
      subst htask
      obtain rfl : worker.unit = u := Broker.tierOf_inj htiers htier hu
      cases hsuccess : f.result.success
      · obtain ⟨y, -, hy⟩ := Option.bind_eq_some_iff.1 hk
        have hgain := Compiled.gain_of_failure
          (x := ⟨x.isOsr, n.bytecodeSize, f.result, f.invalidated, f.elapsed⟩) hsuccess hy
        simp [hsuccess, hgain] at hlead ⊢
        omega
      · simp [hsuccess] at hlead ⊢
        omega
    · have hunit : worker.unit ≠ u := by
        rintro rfl
        exact htask (Option.some.inj (htier.symm.trans hu))
      simp [Ne.symm htask, hunit] at hlead ⊢
      omega

end Runs

/-- Every move that wraps no counter keeps the agreement. -/
theorem Counted.move (h : s.Counted) (hs : s.Lawful) (ht : s.Tiered) (htiers : s.broker.tiers.Nodup)
    (hrises : s.broker.Rises (s.move m).broker) : (s.move m).Counted := by
  cases hran : s.ran m with
  | some a =>
    obtain ⟨i, ch, th, rest, turn, hruns⟩ := exists_runs hran
    cases hscores : a.scores with
    | false => exact h.other hs hruns hscores
    | true =>
      unfold Action.scores at hscores
      split at hscores
      · exact h.rule hs ht hruns hrises
      · exact h.count hs ht htiers hruns hrises
      · cases hscores
  | none =>
    cases m with
    | step i ch => rwa [move_step_of_ran hran]
    | operate o =>
      have hb := s.broker.operate_uncounted o
      refine h.uncounted hb h.judged fun u c => ?_
      rw [lead, lead, ahead, ahead]
      exact congrArg (fun l => (l.map (·.gain c)).sum)
        (filterMap_congr fun a ha => ahead_move (m := .operate o) hs hb.sizes u ha)
    | call k n =>
      have hfair : ∀ a ∈ k.agenda, a.Fair := fun a ha => Action.fair_of_kind fun hkind => by
        have hcall := Call.kind_of_mem ha
        rw [hkind] at hcall
        revert hcall
        decide
      refine h.uncounted (.refl _) (fun a ha => ?_) fun u c => ?_
      · exact (mem_pending_call.1 ha).elim (h.judged a) fun ha => (hfair a ha).2
      · have hnone : k.agenda.filterMap (s.broker.ahead? u) = [] :=
          List.filterMap_eq_nil_iff.2 fun a ha => Broker.ahead_of_counts (hfair a ha).1
        have hahead : (s.move (.call k n)).ahead u = s.ahead u := by
          refine (congrArg _ (pending_spawn s _)).trans ?_
          rw [Multiset.filterMap_add, Multiset.filterMap_coe]
          exact (congrArg (s.ahead u + ·) (congrArg _ hnone)).trans (add_zero _)
        rw [lead, hahead, lead]

/-! ### Runs -/

variable {b : Broker} {config : Config} {parts : Broker.Parts}

theorem counted_launch (h : Broker.assemble config parts = .ok b) : (launch b).Counted := by
  have hstats : b.stats = {} := by
    obtain ⟨units, -, rfl⟩ := Broker.exists_of_assemble h
    rfl
  refine ⟨?_, fun a ha f hf => ?_, fun {u tier} hu {c n} hn => ?_⟩
  · rw [launch, hstats]
    exact Statistics.summed_empty
  · rw [mem_pending_launch ha] at hf
    cases hf
  · obtain ⟨unit, hunit, hn⟩ := Option.bind_eq_some_iff.1 hn
    obtain ⟨t, -, kind, rfl⟩ := Broker.unit_of_assemble h unit (Table.mem_toList_iff.2 ⟨u, hunit⟩)
    have hlead : (launch b).lead u c = 0 := by
      have hnone : (launch b).ahead u = 0 := by
        refine Multiset.eq_zero_of_forall_notMem fun x hx => ?_
        obtain ⟨a, ha, hx⟩ := (Multiset.mem_filterMap _ _).1 hx
        rw [mem_pending_launch ha] at hx
        cases hx
      rw [lead, hnone]
      rfl
    have htier : (launch b).broker.stats.tier tier = {} := by
      rw [launch, hstats]
      rfl
    rw [hlead, htier]
    cases c <;> cases hn <;> rfl

theorem counted_foldl (h : Broker.assemble config parts = .ok b) {ms : List Move}
    (hr : Reachable (launch b) s) (hs : s.Counted) (hwraps : s.NeverWraps ms) :
    (ms.foldl move s).Counted := by
  induction ms generalizing s with
  | nil => exact hs
  | cons m ms ih =>
    obtain ⟨hrises, hwraps⟩ := hwraps
    have hb := Broker.fresh_assemble h
    exact ih (hr.move m) (hs.move (hr.lawful hb) (hr.tiered hb) (hr.tiers_nodup h) hrises) hwraps

/-- The statistics agree in a state. -/
structure Agree (s : System) : Prop where
  /-- Each counter over all tiers is the sum of those of the tiers. -/
  total : ∀ c, s.broker.stats.total.reading c =
    (s.broker.stats.tiers.map fun p => p.2.reading c).sum
  /-- Each tier is counted once. -/
  nodup : (s.broker.stats.tiers.map (·.1)).Nodup
  /-- Each success of a tier is a standard compile or one for an OSR entry. -/
  successes : ∀ tier, (s.broker.stats.tier tier).successes =
    (s.broker.stats.tier tier).standard + (s.broker.stats.tier tier).osr
  /-- A back-end has counted what is counted for its tier, and the compiles by which it is ahead. -/
  backend : ∀ {u : UnitId} {unit : TierUnit}, s.broker.units[u]? = some unit →
    ∀ {c : Counter} {n : Nat}, unit.stats.reading? c = some n →
      n = (s.broker.stats.tier unit.config.level).reading c + s.lead u c
  /-- So it shows the same where no worker is between the two counts. -/
  settled : ∀ {u : UnitId} {unit : TierUnit}, s.broker.units[u]? = some unit → s.ahead u = 0 →
    ∀ {c : Counter} {n : Nat}, unit.stats.reading? c = some n →
      n = (s.broker.stats.tier unit.config.level).reading c

/-- In every run of a broker in which no counter wraps, the statistics agree. -/
theorem agree_of_run (h : Broker.assemble config parts = .ok b) (ms : List Move)
    (hwraps : (launch b).NeverWraps ms) : (ms.foldl move (launch b)).Agree := by
  have hs := counted_foldl h .first (counted_launch h) hwraps
  have hbackend {u : UnitId} {unit : TierUnit}
      (hunit : (ms.foldl move (launch b)).broker.units[u]? = some unit) {c : Counter} {n : Nat}
      (hn : unit.stats.reading? c = some n) : n = ((ms.foldl move (launch b)).broker.stats.tier
        unit.config.level).reading c + (ms.foldl move (launch b)).lead u c :=
    hs.backend (by rw [Broker.tierOf, hunit]; rfl) (by rw [Broker.reading?, hunit]; exact hn)
  refine ⟨hs.summed.total, ?_, fun tier => ?_, hbackend, fun hunit hzero c n hn => ?_⟩
  · exact hs.summed.ascending.imp fun hlt => UInt8.ne_of_lt hlt
  · cases hlookup : (ms.foldl move (launch b)).broker.stats.tiers.lookup tier with
    | none =>
      rw [Statistics.tier, hlookup]
      rfl
    | some x =>
      obtain ⟨l₁, l₂, hl, -⟩ := List.lookup_eq_some_iff.1 hlookup
      rw [Statistics.tier, hlookup]
      exact hs.summed.successes (tier, x) (by simp [hl])
  · have hn := hbackend hunit hn
    rwa [lead, hzero, Multiset.map_zero, Multiset.sum_zero, Nat.add_zero] at hn

/-- A thread requests code for an entry of the method and waits, and the back-end installs it. -/
def soloEntry (i : ThreadId) (bci : Int) : List Move :=
  .call (.request { method := 0, bci := bci, tier := 1, reason := .normal, blocking := true }) 0 ::
    (times i 21 ++ times 1 11 ++ ([.step 1 { move := some (.install 256 128) }, .step 1 {},
      .step 1 { move := some .finish }] : List Move))

/-- The method is compiled for an OSR entry, which is counted, and then for the standard entry, of
which the worker has just told the back-end. -/
def soloTold : List Move :=
  soloStart ++ soloEntry 2 5 ++ times 1 12 ++ times 2 6 ++ soloEntry 3 (-1) ++ times 1 3

/-- There the back-end is ahead by the second compile. -/
theorem agree_of_soloTold :
    (launch .solo).NeverWraps soloTold ∧ (soloTold.foldl move (launch .solo)).Agree ∧
      (soloTold.foldl move (launch .solo)).broker.reading? 0 .codeSize = some 512 ∧
      ((soloTold.foldl move (launch .solo)).broker.stats.tier 1).reading .codeSize = 256 ∧
      (soloTold.foldl move (launch .solo)).lead 0 .codeSize = 256 :=
  ⟨by decide +kernel, agree_of_run Broker.assemble_solo _ (by decide +kernel), by decide +kernel⟩

end System

end JitBroker
