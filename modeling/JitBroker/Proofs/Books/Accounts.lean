import Mathlib.Data.List.Induction
import Mathlib.Order.Bounds.Basic
import JitBroker.Proofs.Books.Entries
import JitBroker.Proofs.Ledger.Pool

/-!
# Every task in every account

The account of live tasks, the queues, the statistics and the events count the same tasks, each at
its own time. In every state of every run (`System.accounts_of_run`):

* a task that was handed out is live, or was given back in one of three ways;
* it was added to a queue, or is on its way to one;
* it is in a queue, or its compile is counted, or it is counted as stale, or one of the two is still
  to be done;
* an event is posted for each compile that is counted, or is about to be;
* the peaks are the largest numbers of live tasks and of queued tasks that there ever were.

What is on its way, or still to be done, is what threads have before them. Between whole steps that
is nothing but the compiles that workers are at (`System.Settled`), and the accounts agree exactly.
-/

namespace JitBroker

/-! ### Peaks -/

/-- A peak is the largest value that a quantity has in the states along a run. -/
def System.IsPeak (first : System) (ms : List System.Move) (f : System → Nat) (peak : Nat) : Prop :=
  IsGreatest {n | ∃ pre, pre <+: ms ∧ f (pre.foldl System.move first) = n} peak

namespace System

variable {first s : System} {ms : List Move}

/-- What is at first the value of a quantity, and is raised to it by every move, is its peak. -/
theorem isPeak_of_move (f peak : System → Nat) (hfirst : peak first = f first)
    (hmove : ∀ {s : System} (m : Move), Reachable first s →
      peak (s.move m) = max (peak s) (f (s.move m)))
    (ms : List Move) : first.IsPeak ms f (peak (ms.foldl move first)) := by
  induction ms using List.reverseRecOn with
  | nil =>
    refine ⟨⟨[], List.prefix_rfl, hfirst.symm⟩, ?_⟩
    rintro n ⟨pre, hpre, rfl⟩
    rw [List.prefix_nil.1 hpre]
    exact hfirst.ge
  | append_singleton ms m ih =>
    obtain ⟨⟨pre, hpre, hattained⟩, hbound⟩ := ih
    have hr : Reachable first (ms.foldl move first) := reachable_iff_foldl.2 ⟨ms, rfl⟩
    have hlast := hmove m hr
    rw [List.foldl_concat, hlast]
    constructor
    · rcases Nat.le_total (f ((ms.foldl move first).move m)) (peak (ms.foldl move first)) with h | h
      · exact ⟨pre, hpre.trans (List.prefix_append _ _), by rw [hattained, Nat.max_eq_left h]⟩
      · exact ⟨ms ++ [m], List.prefix_rfl, by rw [List.foldl_concat, Nat.max_eq_right h]⟩
    · rintro n ⟨pre, hpre, rfl⟩
      rcases List.prefix_concat_iff.1 hpre with rfl | hpre
      · rw [List.foldl_concat]
        exact Nat.le_max_right _ _
      · exact (hbound ⟨pre, hpre, rfl⟩).trans (Nat.le_max_left _ _)

end System

/-- The peak of a queue is raised by a task that comes, if need be, and by nothing else. -/
theorem Entry.peak {k k' : Books} {d : Option Due} {new : List Due} (h : Entry k d new k')
    (hk : ∀ q ∈ k.queues.toList, q.Balanced) {u : UnitId} {q' : QueueBook}
    (hq' : k'.queues[u]? = some q') :
    ∃ q, k.queues[u]? = some q ∧ q'.peak = max q.peak q'.size := by
  have same {q : QueueBook} (hq : k.queues[u]? = some q) :
      ∃ q₀, k.queues[u]? = some q₀ ∧ q.peak = max q₀.peak q.size :=
    ⟨q, hq, (Nat.max_eq_left (hk q (Table.mem_toList_iff.2 ⟨u, hq⟩)).2).symm⟩
  cases h with
  | gain hq =>
    obtain ⟨x, hx, ⟨-, rfl⟩ | ⟨rfl, rfl⟩⟩ := Table.exists_of_modify hq'
    · exact same hx
    · exact ⟨_, hq, rfl⟩
  | @shed v q hq n m hle =>
    obtain ⟨x, hx, ⟨-, rfl⟩ | ⟨rfl, rfl⟩⟩ := Table.exists_of_modify hq'
    · exact same hx
    · obtain ⟨-, hpeak⟩ := hk q (Table.mem_toList_iff.2 ⟨v, hq⟩)
      refine ⟨q, hq, ?_⟩
      simp only [QueueBook.lose]
      omega
  | _ => exact same hq'

theorem Entry.size {k k' : Books} {d : Option Due} {new : List Due} (h : Entry k d new k') :
    k'.queues.size = k.queues.size := by
  cases h with
  | gain hq => exact Table.size_modify _ _ _
  | shed hq hle => exact Table.size_modify _ _ _
  | _ => rfl

/-! ### The accounts -/

namespace System

variable {first s : System} {ms : List Move}

/-- How many tasks are queued in a unit. -/
def queued (u : UnitId) (s : System) : Nat := (s.broker.units[u]?.map (·.queue.size)).getD 0

/-- How many tasks are on their way to a queue. -/
def arriving (s : System) : Nat := s.duties.countP (·.carries)

/-- Nothing is on its way or to be entered but compiles, as it is between whole steps. -/
def Settled (s : System) : Prop := s.arriving = 0 ∧ ∀ d ∈ s.dues, d = .compile

instance (s : System) : Decidable s.Settled := inferInstanceAs (Decidable (_ ∧ _))

/-- The accounts agree in the state after a run. -/
structure Accounted (first : System) (ms : List Move) (s : System) : Prop where
  /-- A task that was handed out is live, or was given back. -/
  allocated : s.broker.pool.allocated = s.broker.pool.freedByWorker + s.broker.pool.freedByRequester +
    s.broker.pool.freedStale + s.broker.pool.live
  /-- Those are live that were not freed. -/
  live : s.broker.pool.live = s.broker.tasks.toList.countP (!·.freed)
  /-- They are no more than may be. -/
  live_le : s.broker.pool.live ≤ first.broker.config.maxLiveTasks.toNat
  /-- A task that was handed out was added to a queue, or will be. -/
  added : s.broker.units.total (·.queue.added) + s.arriving = s.broker.pool.allocated
  /-- A queue has what came and did not go, and these are the tasks in its list. -/
  queue : ∀ unit ∈ s.broker.units.toList,
    unit.queue.added = unit.queue.removed + unit.queue.size ∧
      unit.queue.size = unit.queue.list.toList.length
  /-- The peak of live tasks was reached and never passed. -/
  peakLive : first.IsPeak ms (·.broker.pool.live) s.broker.pool.peakLive
  /-- So was the peak of each queue. -/
  peak : ∀ {u : UnitId} {unit : TierUnit}, s.broker.units[u]? = some unit →
    first.IsPeak ms (queued u) unit.queue.peak
  /-- An event is posted for each compile, at once or soon. -/
  events : s.broker.stats.events.size + s.owed .event = s.broker.stats.total.compiles
  /-- A task that was added is compiled, stale, queued, or will be counted. -/
  counted : s.broker.pool.allocated = s.broker.stats.total.compiles + s.broker.stats.stale +
    s.broker.units.total (·.queue.size) + s.owed .compile + s.owed .stale + s.arriving
  /-- Between whole steps only compiles are missing, those that workers are at. -/
  settled : s.Settled →
    s.broker.units.total (·.queue.added) = s.broker.pool.allocated ∧
      s.broker.stats.events.size = s.broker.stats.total.compiles ∧
      s.broker.pool.allocated = s.broker.stats.total.compiles + s.broker.stats.stale +
        s.broker.units.total (·.queue.size) + s.owed .compile

variable {b : Broker} {config : Config} {parts : Broker.Parts}

theorem capacity_of_run (h : Broker.assemble config parts = .ok b) (hs : Reachable (launch b) s) :
    s.broker.pool.capacity = (launch b).broker.config.maxLiveTasks := by
  induction hs with
  | first =>
    obtain ⟨units, -, rfl⟩ := Broker.exists_of_assemble h
    rfl
  | move m hr ih =>
    rw [← ih]
    exact (hr.lawful (Broker.fresh_assemble h)).capacity_move m

theorem peakLive_of_run (h : Broker.assemble config parts = .ok b) (ms : List Move) :
    (launch b).IsPeak ms (·.broker.pool.live) (ms.foldl move (launch b)).broker.pool.peakLive := by
  refine isPeak_of_move _ (·.broker.pool.peakLive) ?_ (fun m hr => ?_) ms
  · obtain ⟨units, -, rfl⟩ := Broker.exists_of_assemble h
    rfl
  · exact (hr.pooled h).peakLive_move (hr.lawful (Broker.fresh_assemble h)) m

/-- The peak of the queue of a unit. -/
def queuePeak (u : UnitId) (s : System) : Nat := (s.broker.units[u]?.map (·.queue.peak)).getD 0

theorem queuePeak_move (hs : s.Lawful) (h : s.Balanced) (u : UnitId) (m : Move) :
    (s.move m).queuePeak u = max (s.queuePeak u) ((s.move m).queued u) := by
  obtain ⟨_, _, hentry, -⟩ := hs.entry_move m
  have book (s : System) : s.books.queues[u]? = s.broker.units[u]?.map (·.queue.book) :=
    Table.getElem?_map _ _ _
  unfold queuePeak queued
  cases hunit : (s.move m).broker.units[u]? with
  | none =>
    have hnone : s.broker.units[u]? = none := by
      have hsize := hentry.size
      simp only [books, Broker.books, Table.size_map] at hsize
      rwa [Table.getElem?_eq_none_iff, hsize, ← Table.getElem?_eq_none_iff] at hunit
    rw [hnone]
    rfl
  | some unit =>
    obtain ⟨q, hq, hpeak⟩ := hentry.peak h.queue (show _ = some unit.queue.book by rw [book, hunit]; rfl)
    rw [book, Option.map_eq_some_iff] at hq
    obtain ⟨unit₀, hunit₀, rfl⟩ := hq
    rw [hunit₀]
    exact hpeak

theorem peak_of_run (h : Broker.assemble config parts = .ok b) (u : UnitId) (ms : List Move) :
    (launch b).IsPeak ms (queued u) ((ms.foldl move (launch b)).queuePeak u) := by
  refine isPeak_of_move _ (queuePeak u) ?_ (fun m hr => ?_) ms
  · unfold queuePeak queued
    cases hunit : (launch b).broker.units[u]? with
    | none => rfl
    | some unit =>
      obtain ⟨tier, hqueue⟩ :=
        Broker.queue_of_assemble h unit (Table.mem_toList_iff.2 ⟨u, hunit⟩)
      rw [Option.map_some, Option.map_some, hqueue]
      rfl
  · exact queuePeak_move (hr.lawful (Broker.fresh_assemble h)) (hr.balanced h) u m

/-- What came to a queue is there, or went. -/
theorem Balanced.queue_of_unit (h : s.Balanced) {unit : TierUnit}
    (hunit : unit ∈ s.broker.units.toList) : unit.queue.book.Balanced := by
  refine h.queue _ ?_
  rw [books, Broker.books, Table.toList_map]
  exact List.mem_map_of_mem hunit

/-- What came to the queues is there, is counted, or will be. -/
theorem Balanced.added (h : s.Balanced) : s.broker.units.total (·.queue.added) =
    s.broker.stats.total.compiles + s.broker.stats.stale + s.broker.units.total (·.queue.size) +
      s.owed .compile + s.owed .stale := by
  have hsplit : s.broker.units.total (·.queue.added) =
      s.broker.units.total (·.queue.removed) + s.broker.units.total (·.queue.size) := by
    rw [← Table.total_sum]
    exact Table.total_congr fun u unit hu => (h.queue_of_unit (Table.mem_toList_iff.2 ⟨u, hu⟩)).1
  have hremoved : s.broker.units.total (·.queue.removed) = s.broker.stats.total.compiles +
      s.broker.stats.stale + s.owed .compile + s.owed .stale :=
    (Table.total_map s.broker.units (·.queue.book) (·.removed)).symm.trans h.removed
  omega

theorem Pooled.added (h : s.Pooled) :
    s.broker.units.total (·.queue.added) + s.arriving = s.broker.pool.allocated :=
  (congrArg (· + s.arriving) (Table.total_map s.broker.units (·.queue.stock) (·.added)).symm).trans
    (Ledger.Pooled.added h)

/-- In every run of a broker, whatever requesters and workers do, and in whatever order, the accounts
agree. -/
theorem accounts_of_run (h : Broker.assemble config parts = .ok b) (ms : List Move) :
    Accounted (launch b) ms (ms.foldl move (launch b)) := by
  have hr : Reachable (launch b) (ms.foldl move (launch b)) := reachable_iff_foldl.2 ⟨ms, rfl⟩
  have hs := hr.lawful (Broker.fresh_assemble h)
  have hp := hr.pooled h
  have hb := hr.balanced h
  constructor
  · exact hp.allocated
  · exact hp.live.trans (Table.total_toNat _ _)
  · rw [← capacity_of_run h hr]
    exact hp.fits
  · exact hp.added
  · intro unit hunit
    obtain ⟨u, hu⟩ := Table.mem_toList_iff.1 hunit
    have hst : (ms.foldl move (launch b)).ledger.stocks[u]? = some unit.queue.stock := by
      simp [ledger, hu]
    exact ⟨(hb.queue_of_unit hunit).1, (hs.sound.list hst).size_eq⟩
  · exact peakLive_of_run h ms
  · intro u unit hu
    have hpeak := peak_of_run h u ms
    rwa [queuePeak, hu] at hpeak
  · exact hb.events
  · rw [← hp.added, hb.added]
  · rintro ⟨harriving, hdues⟩
    have owed_eq_zero {d : Due} (hd : d ≠ .compile) : (ms.foldl move (launch b)).owed d = 0 :=
      Multiset.count_eq_zero.2 fun hmem => hd (hdues d hmem)
    have hadded := hp.added
    have hcounted := hb.added
    have hevents : (ms.foldl move (launch b)).broker.stats.events.size +
        (ms.foldl move (launch b)).owed .event = _ := hb.events
    rw [harriving, Nat.add_zero] at hadded
    rw [owed_eq_zero (d := .stale) (by decide), Nat.add_zero] at hcounted
    rw [owed_eq_zero (d := .event) (by decide), Nat.add_zero] at hevents
    exact ⟨hadded, hevents, hadded.symm.trans hcounted⟩

/-- A thread requests a compile and does not wait for it. -/
def soloRequest (i : ThreadId) (m : MethodId) : List Move :=
  .call (.request { method := m, tier := 1, reason := .normal }) 0 :: times i 20

/-- The worker of the small broker compiles one task in vain, and has taken another one to the
back-end when a third one is queued. -/
def soloThree : List Move :=
  soloStart ++ [.operate (.addMethod { name := "g", className := "C" }),
      .operate (.addMethod { name := "h", className := "C" })]
    ++ soloRequest 2 0 ++ times 1 11 ++ [.step 1 { move := some .finish }] ++ times 1 14
    ++ soloRequest 3 1 ++ times 1 11 ++ soloRequest 4 2

/-- There each task is in another account. -/
theorem accounts_of_soloThree :
    Accounted (launch .solo) soloThree (soloThree.foldl move (launch .solo)) ∧
      (soloThree.foldl move (launch .solo)).Settled ∧
      (soloThree.foldl move (launch .solo)).broker.pool.allocated = 3 ∧
      (soloThree.foldl move (launch .solo)).broker.stats.total.compiles = 1 ∧
      (soloThree.foldl move (launch .solo)).owed .compile = 1 ∧
      (soloThree.foldl move (launch .solo)).queued 0 = 1 :=
  ⟨accounts_of_run Broker.assemble_solo _, by decide +kernel⟩

end System

end JitBroker
