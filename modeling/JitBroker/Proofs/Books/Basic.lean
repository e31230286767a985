import JitBroker.Proofs.Agenda
import JitBroker.Proofs.Ledger.Withdrawal

/-!
# The books

Four counts of one thing are kept in four places: the account of live tasks, the queues, the
statistics and the events. The account of tasks is part of the ledger; the numbers that the queues
and the statistics keep, and the state of jobs, whose stops and restarts are counted, are the *books*
of the broker.

The numbers do not change at once with what they count. A worker that has fetched a task counts its
compile much later, and jobs are stopped one step before the stop is counted. What a pending action
is still to enter is its *due*.

* `Entry`: the ways in which the books change, each with the due that it settles and those that it
  brings;
* `Books.Entry.balanced`: what is entered and what is due add up.
-/

namespace JitBroker

/-! ### What is in the books -/

/-- The numbers that a queue keeps. -/
structure QueueBook where
  /-- How many tasks are queued. -/
  size : Nat
  /-- How many ever came. -/
  added : Nat
  /-- How many went. -/
  removed : Nat
  /-- The most that were ever queued. -/
  peak : Nat

/-- The numbers that the queues and the statistics keep. -/
structure Books where
  /-- Those of the queues. -/
  queues : Table QueueBook
  /-- The compiles that are counted. -/
  compiles : Nat
  /-- The events that were posted. -/
  events : Nat
  /-- The stale tasks that are counted. -/
  stale : Nat
  /-- The stops that are counted. -/
  stopped : Nat
  /-- The restarts that are counted. -/
  restarted : Nat
  /-- Whether jobs are taken. -/
  jobs : JobState

/-- The book of a queue. -/
def CompileQueue.book (q : CompileQueue) : QueueBook := ⟨q.size, q.added, q.removed, q.peak⟩

/-- The books of a broker. -/
def Broker.books (b : Broker) : Books where
  queues := b.units.map (·.queue.book)
  compiles := b.stats.total.compiles
  events := b.stats.events.size
  stale := b.stats.stale
  stopped := b.stats.stopped
  restarted := b.stats.restarted
  jobs := b.jobs

namespace QueueBook

/-- The book of a queue with one more task. -/
def gain (q : QueueBook) : QueueBook where
  size := q.size + 1
  added := q.added + 1
  removed := q.removed
  peak := max q.peak (q.size + 1)

/-- The book of a queue that has lost some tasks. -/
def lose (q : QueueBook) (n : Nat) : QueueBook :=
  { q with size := q.size - n, removed := q.removed + n }

/-- A queue has what came and did not go, and never had more than its peak. -/
def Balanced (q : QueueBook) : Prop := q.added = q.removed + q.size ∧ q.size ≤ q.peak

theorem Balanced.gain {q : QueueBook} (h : q.Balanced) : q.gain.Balanced := by
  obtain ⟨hadded, -⟩ := h
  exact ⟨by simp only [QueueBook.gain]; omega, Nat.le_max_right _ _⟩

theorem Balanced.lose {q : QueueBook} (h : q.Balanced) {n : Nat} (hn : n ≤ q.size) :
    (q.lose n).Balanced := by
  obtain ⟨hadded, hpeak⟩ := h
  constructor <;> simp only [QueueBook.lose] <;> omega

end QueueBook

/-- The books with that of one queue replaced. -/
def Books.setQueue (k : Books) (u : UnitId) (q : QueueBook) : Books :=
  { k with queues := k.queues.modify u fun _ => q }

/-! ### What is still to be entered -/

/-- What a pending action is to enter in the books, at once or later. -/
inductive Due where
  /-- A compile. -/
  | compile
  /-- The event of a compile. -/
  | event
  /-- A stale task. -/
  | stale
  /-- A stop. -/
  | stop
  /-- A restart. -/
  | restart
  deriving DecidableEq

/-- The due of a step of a worker: from the fetch of its task until the compile is counted, the
compile, and then the event. -/
def WorkerStep.due? : WorkerStep → Option Due
  | .leave _ | .adopt _ | .take _ | .consult _ | .begin _ | .examine _ | .clear _ | .giveUp _
  | .compile _ | .attach _ _ | .judge _ | .rule _ | .count _ => some .compile
  | .announce _ => some .event
  | _ => none

/-- The due of an action, if it has one. -/
def Action.due? : Action → Option Due
  | .task .count => some .stale
  | .control .countStop => some .stop
  | .control .countRestart => some .restart
  | .worker _ s => s.due?
  | _ => none

/-- The dues of a list of actions. -/
def dues (as : List Action) : List Due := as.filterMap Action.due?

@[simp] theorem dues_append (as bs : List Action) : dues (as ++ bs) = dues as ++ dues bs :=
  List.filterMap_append

theorem dues_eq_nil {as : List Action} (h : ∀ a ∈ as, a.due? = none) : dues as = [] :=
  List.filterMap_eq_nil_iff.2 h

/-- Each task that will not run is to be counted. -/
@[simp] theorem dues_stale (ts : List TaskId) :
    dues (ts.flatMap Action.stale) = List.replicate ts.length .stale := by
  induction ts with
  | nil => rfl
  | cons t ts ih =>
    rw [List.flatMap_cons, dues_append, ih]
    rfl

@[simp] theorem dues_call (c : Call) : dues c.agenda = [] := by
  cases c <;> rfl

/-! ### Entries -/

/-- The entries: the books before, the due of the step, the dues in its place, and the books after. -/
inductive Entry (k : Books) : Option Due → List Due → Books → Prop where
  /-- Nothing is entered. -/
  | plain (d : Option Due) : Entry k d d.toList k
  /-- A task comes to a queue. -/
  | gain {u : UnitId} {q : QueueBook} (hq : k.queues[u]? = some q) :
    Entry k none [] (k.setQueue u q.gain)
  /-- Tasks go from a queue: some are stale, and the others are to be compiled. -/
  | shed {u : UnitId} {q : QueueBook} (hq : k.queues[u]? = some q) {n m : Nat}
    (hle : n + m ≤ q.size) :
    Entry k none (List.replicate n .stale ++ List.replicate m .compile)
      (k.setQueue u (q.lose (n + m)))
  /-- A compile is counted. -/
  | compile : Entry k (some .compile) [.event] { k with compiles := k.compiles + 1 }
  /-- An event is posted. -/
  | event : Entry k (some .event) [] { k with events := k.events + 1 }
  /-- A stale task is counted. -/
  | stale : Entry k (some .stale) [] { k with stale := k.stale + 1 }
  /-- Jobs are stopped for want of code space. -/
  | stop (h : k.jobs = .run) : Entry k none [.stop] { k with jobs := .stoppedForCache }
  /-- A stop is counted. -/
  | countStop : Entry k (some .stop) [] { k with stopped := k.stopped + 1 }
  /-- Jobs go on after such a stop. -/
  | restart (h : k.jobs = .stoppedForCache) : Entry k none [.restart] { k with jobs := .run }
  /-- A restart is counted. -/
  | countRestart : Entry k (some .restart) [] { k with restarted := k.restarted + 1 }
  /-- Jobs are stopped by hand, or go on by hand. -/
  | accept {j : JobState} (h : k.jobs = .run ∧ j = .stopped ∨ k.jobs = .stopped ∧ j = .run) :
    Entry k none [] { k with jobs := j }
  /-- The broker is shut down. -/
  | shutdown : Entry k none [] { k with jobs := .shutDown }

namespace Entry

variable {k k' k'' : Books} {d : Option Due} {ds : List Due}

/-- The books after an entry may be given in another form. -/
theorem cast (e : Entry k d ds k') (h : k'' = k') : Entry k d ds k'' := h ▸ e

/-- If neither books nor dues change, nothing is entered. -/
theorem of_eq (hk : k' = k) (hds : ds = d.toList) : Entry k d ds k' := by
  subst hk hds
  exact .plain d

end Entry

/-! ### What adds up -/

/-- What is entered in the books and what is still due add up. -/
structure Books.Balanced (k : Books) (ds : Multiset Due) : Prop where
  /-- Each queue has what came and did not go. -/
  queue : ∀ q ∈ k.queues.toList, q.Balanced
  /-- An event is posted for each compile. -/
  events : k.events + ds.count .event = k.compiles
  /-- Each task that left its queue is compiled or stale. -/
  removed : k.queues.total (·.removed) =
    k.compiles + k.stale + ds.count .compile + ds.count .stale
  /-- Jobs were stopped as often as they went on, or once more. -/
  stops : k.restarted + ds.count .restart ≤ k.stopped + ds.count .stop ∧
    k.stopped + ds.count .stop ≤ k.restarted + ds.count .restart + 1
  /-- Until the broker is shut down, it was once more if and only if they are stopped. -/
  stopped : k.jobs ≠ .shutDown → (k.stopped + ds.count .stop = k.restarted + ds.count .restart + 1 ↔
    k.jobs = .stoppedForCache)

namespace Books.Balanced

variable {k k' : Books} {ds ds' : Multiset Due} {d : Option Due} {new : List Due}

/-- The book of a queue may be replaced by another one that is balanced. -/
theorem forall_setQueue (h : ∀ q ∈ k.queues.toList, q.Balanced) {u : UnitId} {q : QueueBook}
    (hq : q.Balanced) : ∀ x ∈ (k.setQueue u q).queues.toList, x.Balanced := by
  intro x hx
  obtain ⟨v, hv⟩ := Table.mem_toList_iff.1 hx
  obtain ⟨y, hy, ⟨-, heq⟩ | ⟨-, heq⟩⟩ := Table.exists_of_modify hv
  · exact heq ▸ h _ (Table.mem_toList_iff.2 ⟨v, hy⟩)
  · exact heq ▸ hq

/-- An entry keeps the balance, if the due that it settles was pending and those that it brings are
pending after it. -/
theorem entry (h : k.Balanced ds) (he : Entry k d new k') (hd : ds' + ↑d.toList = ds + ↑new) :
    k'.Balanced ds' := by
  obtain ⟨hqueue, hevents, hremoved, hstops, hstopped⟩ := h
  -- How the number of dues of each kind changes.
  have hcount (x : Due) : ds'.count x + d.toList.count x = ds.count x + new.count x := by
    have := congrArg (Multiset.count x) hd
    simpa only [Multiset.count_add, Multiset.coe_count] using this
  have hcompile := hcount .compile
  have hevent := hcount .event
  have hstale := hcount .stale
  have hstop := hcount .stop
  have hrestart := hcount .restart
  cases he with
  | plain d =>
    obtain rfl : ds' = ds := add_right_cancel hd
    exact ⟨hqueue, hevents, hremoved, hstops, hstopped⟩
  | @gain u q hq =>
    simp only [Option.toList_none, List.count_nil, Nat.add_zero] at *
    refine ⟨forall_setQueue hqueue (hqueue q (Table.mem_toList_iff.2 ⟨u, hq⟩)).gain, ?_, ?_, ?_, ?_⟩
    · simpa only [setQueue, hevent] using hevents
    · have := Table.total_modify hq (fun _ => q.gain) (·.removed)
      simp only [setQueue, QueueBook.gain] at this ⊢
      omega
    · simpa only [setQueue, hstop, hrestart] using hstops
    · simpa only [setQueue, hstop, hrestart] using hstopped
  | @shed u q hq n m hle =>
    simp only [Option.toList_none, List.count_nil, Nat.add_zero, List.count_append,
      List.count_replicate, beq_iff_eq, reduceCtorEq, if_false, if_true] at *
    refine ⟨forall_setQueue hqueue ((hqueue q (Table.mem_toList_iff.2 ⟨u, hq⟩)).lose hle),
      ?_, ?_, ?_, ?_⟩
    · simpa only [setQueue, hevent] using hevents
    · have := Table.total_modify hq (fun _ => q.lose (n + m)) (·.removed)
      simp only [setQueue, QueueBook.lose] at this ⊢
      omega
    · simpa only [setQueue, hstop, hrestart] using hstops
    · simpa only [setQueue, hstop, hrestart] using hstopped
  | _ =>
    simp only [Option.toList_none, Option.toList_some, List.count_nil, Nat.add_zero,
      List.count_singleton, beq_iff_eq, reduceCtorEq, if_false, if_true] at *
    refine ⟨hqueue, ?_, ?_, ?_, ?_⟩ <;> grind -linarith

end Books.Balanced

end JitBroker
