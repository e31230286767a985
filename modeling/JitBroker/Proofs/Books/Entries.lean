import JitBroker.Proofs.Books.Basic
import JitBroker.Proofs.Protocol

/-!
# Steps as entries

Every step of a thread makes one entry in the books (`Action.entry`), and most of them the plain one.
A worker that has a task does not lose it on the way to its count: in a lawful system it finds the
task and its method at every step. So with every move the books stay in balance
(`System.Reachable.balanced`).
-/

namespace JitBroker

/-- A list with sound links counts its tasks. -/
theorem TaskList.Sound.size_eq {l : TaskList} (h : l.Sound) : l.size = l.toList.length := by
  obtain ⟨es, h⟩ := h
  rw [h.size, h.toList_eq, List.length_map]

namespace Broker

variable {b b' : Broker}

/-! ### Changes of the books -/

/-- Brokers with the same statistics, state of jobs and queue books have the same books. -/
theorem books_congr (hstats : b'.stats = b.stats) (hjobs : b'.jobs = b.jobs)
    (hqueues : b'.units.map (·.queue.book) = b.units.map (·.queue.book)) : b'.books = b.books := by
  simp only [books, hstats, hjobs, hqueues]

theorem books_modifyQueue (b : Broker) (u : UnitId) (q : CompileQueue) :
    (b.modifyQueue u fun _ => q).books = b.books.setQueue u q.book := by
  have h : (b.units.modify u fun x => { x with queue := q }).map (·.queue.book) =
      (b.units.map (·.queue.book)).modify u fun _ => q.book := Table.map_modify (fun _ => by rfl) _ u
  simp only [books, modifyQueue, modifyUnit, Books.setQueue, h]

theorem books_giveBack (b : Broker) (u : UnitId) :
    (b.modifyQueue u CompileQueue.giveBack).books = b.books :=
  books_congr rfl rfl (Table.map_modify_of_eq (fun _ => by rfl) _ u)

theorem getElem?_queues {u : UnitId} {unit : TierUnit} (h : b.units[u]? = some unit) :
    b.books.queues[u]? = some unit.queue.book := by
  rw [books, Table.getElem?_map, h]
  rfl

/-- What does not change the books, done to one task after the other, does not change them. -/
theorem books_foldl {f : Broker → TaskId → Broker} (hf : ∀ b t, (f b t).books = b.books)
    (ts : List TaskId) (b : Broker) : (ts.foldl f b).books = b.books := by
  induction ts generalizing b with
  | nil => rfl
  | cons t ts ih => rw [List.foldl_cons, ih, hf]

theorem books_setStale (b : Broker) (t : TaskId) : (b.setStale t).books = b.books := by
  unfold setStale
  split <;> rfl

theorem books_operate (b : Broker) (o : Operation) : (b.operate o).books = b.books := by
  cases o with
  | pushDirectives sets =>
    rw [operate]
    split <;> rfl
  | unpause =>
    rw [operate]
    split <;> rfl
  | _ => rfl

end Broker

/-- Every compile is counted once, whatever its outcome. -/
theorem TierStatistics.compiles_record (s : TierStatistics) (t : Task) (bytecodes : UInt64)
    (r : TaskResult) (invalidated : Bool) (elapsed : Nat) :
    (s.record t bytecodes r invalidated elapsed).compiles = s.compiles + 1 := by
  simp only [record, compiles]
  repeat' split
  all_goals (simp only; omega)

theorem Broker.books_record (b : Broker) (t : Task) (m : Method) (r : TaskResult)
    (invalidated : Bool) (elapsed : Nat) :
    { b with stats := b.stats.record t m r invalidated elapsed }.books =
      { b.books with compiles := b.books.compiles + 1 } := by
  have h := b.stats.total.compiles_record t m.bytecodeSize r invalidated elapsed
  simp only [books, Statistics.record]
  split <;> simp only [h]

/-- The book of a queue that tasks were taken off. -/
theorem CompileQueue.book_unlinkAll {q q' : CompileQueue} {slots : List Nat} {ts : List TaskId}
    (hq : q.list.Sound) (h : q.unlinkAll? slots = some (ts, q')) :
    q'.book = q.book.lose ts.length ∧ ts.length ≤ q.size := by
  obtain ⟨es, hes⟩ := hq
  obtain ⟨hsheds, -, heq⟩ := unlinkAll?_sheds hes h
  have hsize := hsheds.perm.length_eq
  rw [List.length_append, ← hsheds.sound.size_eq, ← TaskList.Sound.size_eq ⟨es, hes⟩] at hsize
  constructor
  · rw [heq, book, size, QueueBook.lose, book, size, QueueBook.mk.injEq]
    exact ⟨by simp only; omega, rfl, rfl, rfl⟩
  · rw [size]
    omega

namespace Broker

variable {b b' : Broker} {u : UnitId} {unit : TierUnit}

/-- A worker takes off the tasks that it tells of. -/
theorem books_select {chosen : Option TaskId} {stale : List TaskId}
    (h : b.select? u unit.queue = some (chosen, stale, b')) (hq : unit.queue.list.Sound) :
    b'.books = b.books.setQueue u (unit.queue.book.lose (stale.length + chosen.toList.length)) ∧
      stale.length + chosen.toList.length ≤ unit.queue.size := by
  simp only [select?, Option.bind_eq_bind, Option.bind_eq_some_iff, Option.pure_def,
    Option.some.injEq, Prod.mk.injEq] at h
  obtain ⟨⟨stale, q₁⟩, h₁, ⟨ts, q₂⟩, h₂, rfl, rfl, rfl⟩ := h
  obtain ⟨es, hes⟩ := hq
  obtain ⟨hsheds, -, -⟩ := CompileQueue.unlinkAll?_sheds hes h₁
  -- A selector chooses one slot at most.
  have hone : ts.head?.toList = ts := by
    obtain ⟨es₁, hes₁⟩ := hsheds.sound
    obtain ⟨-, hlength, -⟩ := CompileQueue.unlinkAll?_sheds hes₁ h₂
    have hle := Option.length_toList_le
      (o := (unit.queue.selector.select (b.candidates unit.queue)).chosen)
    rcases ts with _ | ⟨t, _ | ⟨t', ts⟩⟩
    · rfl
    · rfl
    · simp only [List.length_cons] at hlength
      omega
  have hall := CompileQueue.unlinkAll?_append_eq_some.2 ⟨stale, q₁, ts, h₁, h₂, rfl⟩
  obtain ⟨hbook, hle⟩ := CompileQueue.book_unlinkAll ⟨es, hes⟩ hall
  rw [List.length_append] at hbook hle
  rw [hone]
  refine ⟨?_, hle⟩
  refine (books_foldl (fun _ _ => by rfl) _ _).trans ?_
  rw [books_foldl books_setStale, books_modifyQueue, hbook]

/-- Whoever drains a queue takes off the tasks that he tells of. -/
theorem books_drain {ts : List TaskId} (h : b.drain? u unit.queue = some (ts, b'))
    (hq : unit.queue.list.Sound) :
    b'.books = b.books.setQueue u (unit.queue.book.lose ts.length) ∧ ts.length ≤ unit.queue.size := by
  simp only [drain?, Option.bind_eq_bind, Option.bind_eq_some_iff, Option.pure_def,
    Option.some.injEq, Prod.mk.injEq] at h
  obtain ⟨⟨ts, q'⟩, hq', rfl, rfl⟩ := h
  obtain ⟨hbook, hle⟩ := CompileQueue.book_unlinkAll hq hq'
  refine ⟨?_, hle⟩
  refine (books_foldl (fun _ _ => by rfl) _ _).trans ?_
  rw [books_modifyQueue, ← hbook]
  rfl

end Broker

/-! ### Every action -/

variable {me : Caller} {ch : Choices} {b b' : Broker} {turn : Turn}

namespace Entry

/-- A turn that changes neither books nor dues enters nothing. -/
theorem of_some {turn' : Turn} {d : Option Due} (h : some turn' = some turn)
    (hk : turn'.broker.books = b.books) (hds : dues turn'.next = d.toList) :
    Entry b.books d (dues turn.next) turn.broker.books := by
  obtain rfl := Option.some.inj h
  exact .of_eq hk hds

end Entry

namespace RequestStep

variable {s : RequestStep} {q : Inquiry} {t : TaskId} {x : Task}

theorem leave_entry {gaveUp : Bool} (h : leave b' q t x gaveUp = some turn)
    (hb : b'.books = b.books) : Entry b.books none (dues turn.next) turn.broker.books := by
  unfold leave at h
  split at h <;> exact .of_some h hb rfl

theorem wakeUp_entry {watch : Option Watch} (h : wakeUp b ch q t x watch = some turn) :
    Entry b.books none (dues turn.next) turn.broker.books := by
  unfold wakeUp at h
  repeat' split at h
  all_goals first
    | exact leave_entry h rfl
    | exact .of_some h rfl rfl

/-- A request enters the task that it brings. -/
theorem entry (h : s.run me ch b = some turn) :
    Entry b.books none (dues turn.next) turn.broker.books := by
  cases s with
  | append q t =>
    rw [run] at h
    split at h
    · rename_i unit x hunit hx
      split at h
      · exact .of_some h rfl rfl
      · have hgain : (b.modifyQueue q.unit fun _ => (unit.queue.push t).2.giveBack).books =
            b.books.setQueue q.unit unit.queue.book.gain := b.books_modifyQueue _ _
        simp only at h
        split at h
        all_goals
          obtain rfl := Option.some.inj h
          exact Entry.cast (.gain (Broker.getElem?_queues hunit)) hgain
    · exact .of_some h rfl rfl
  | _ =>
    rw [run] at h
    (try simp only at h)
    repeat' split at h
    all_goals first
      | exact .of_some h rfl rfl
      | exact .of_some h (Broker.books_congr rfl rfl (Table.map_modify_of_eq (fun _ => by rfl) _ _)) rfl
      | exact wakeUp_entry h
      | exact leave_entry h rfl
      | cases h

end RequestStep

/-- A step that ends a task may enter that it went stale. -/
theorem TaskStep.entry {s : TaskStep} (h : s.run b = some turn) :
    Entry b.books (Action.task s).due? (dues turn.next) turn.broker.books := by
  cases s with
  | count =>
    obtain rfl := Option.some.inj h
    exact .stale
  | _ =>
    rw [run] at h
    (try simp only at h)
    repeat' split at h
    all_goals exact .of_some h rfl rfl

theorem GateStep.entry {s : GateStep} (h : s.run b = some turn) :
    Entry b.books none (dues turn.next) turn.broker.books := by
  cases s <;> rw [run] at h <;> repeat' split at h
  all_goals first
    | exact .of_some h rfl rfl
    | cases h

theorem CrewStep.entry {s : CrewStep} (h : s.run me ch b = some turn) :
    Entry b.books none (dues turn.next) turn.broker.books := by
  rcases s with u | ⟨u, n⟩ | ⟨u, n, k⟩ | ⟨u, n⟩ | ⟨u, n⟩ | (_ | ⟨u, us⟩) | ⟨u, _ | n, us⟩ | _ <;>
    rw [run] at h <;> (try simp only at h) <;> repeat' split at h
  all_goals first
    | exact .of_some h rfl rfl
    | exact .of_some h (Broker.books_congr rfl rfl (Table.map_modify_of_eq (fun _ => by rfl) _ _)) rfl
    | cases h

namespace ControlStep

theorem dues_control {ss : List ControlStep}
    (h : ∀ s ∈ ss, s ≠ .countStop ∧ s ≠ .countRestart) : dues (ss.map Action.control) = [] :=
  dues_eq_nil fun _ ha => by
    obtain ⟨s, hs, rfl⟩ := List.mem_map.1 ha
    obtain ⟨hstop, hrestart⟩ := h s hs
    cases s <;> first | rfl | contradiction

/-- Jobs that are stopped or allowed by hand are entered as such, if they were not before. -/
theorem accept_entry {on : Bool} (h : (ControlStep.accept on).run me b = some turn) :
    Entry b.books none (dues turn.next) turn.broker.books := by
  obtain rfl := Option.some.inj h
  cases on <;> simp only [Broker.accept, Broker.moveJobs, Bool.false_eq_true, if_true, if_false] <;>
    split
  · rename_i hjobs
    exact .accept (.inl ⟨hjobs, rfl⟩)
  · exact .plain none
  · rename_i hjobs
    exact .accept (.inr ⟨hjobs, rfl⟩)
  · exact .plain none

/-- A queue that is drained loses its tasks, and each of them is to be entered as stale. -/
theorem drain_entry {u : UnitId} (hsound : b.ledger.Sound)
    (h : (ControlStep.drain u).run me b = some turn) :
    Entry b.books none (dues turn.next) turn.broker.books := by
  rw [run] at h
  split at h
  · exact .of_some h rfl rfl
  · rename_i unit hunit
    split at h
    · split at h
      · rename_i ts b' hdrain
        obtain rfl := Option.some.inj h
        have hstock : b.ledger.stocks[u]? = some unit.queue.stock := by simp [hunit]
        obtain ⟨hbooks, hle⟩ := Broker.books_drain hdrain (hsound.list hstock)
        have hshed := Entry.shed (Broker.getElem?_queues hunit) (m := 0) hle
        rw [List.replicate_zero, List.append_nil] at hshed
        rw [dues_stale]
        exact hshed.cast hbooks
      · exact .of_some h rfl rfl
    · cases h

/-- Code that is detached is not in the books. -/
theorem detach_entry {d : Decompilation} (h : (ControlStep.detach d).run me b = some turn) :
    Entry b.books none (dues turn.next) turn.broker.books := by
  have hb : (b.detach d).2.books = b.books := by
    unfold Broker.detach
    split <;> rfl
  rw [run] at h
  split at h
  all_goals
    rename_i heq
    rw [heq] at hb
    refine .of_some h hb ?_
  · cases Broker.unitOf? _ _ <;> rfl
  · rfl

/-- A step of control may enter a stop or a restart. -/
theorem entry {s : ControlStep} (hsound : b.ledger.Sound) (h : s.run me b = some turn) :
    Entry b.books (Action.control s).due? (dues turn.next) turn.broker.books := by
  cases s with
  | resume =>
    rw [run] at h
    split at h
    · rename_i hjobs
      obtain rfl := Option.some.inj h
      exact .restart hjobs
    · exact .of_some h rfl rfl
  | react =>
    rw [run] at h
    split at h
    · split at h
      · rename_i hjobs
        obtain rfl := Option.some.inj h
        exact .stop hjobs
      · exact .of_some h rfl rfl
    · exact .of_some h rfl rfl
  | countStop =>
    obtain rfl := Option.some.inj h
    exact .countStop
  | countRestart =>
    obtain rfl := Option.some.inj h
    exact .countRestart
  | accept on => exact accept_entry h
  | shutdown =>
    rw [run] at h
    split at h
    · exact .of_some h rfl rfl
    · obtain rfl := Option.some.inj h
      rw [show dues _ = [] from dues_control (by grind)]
      exact .shutdown
  | disable =>
    rw [run] at h
    split at h
    · exact .of_some h rfl rfl
    · exact .of_some h rfl (dues_control (by grind))
  | drain u => exact drain_entry hsound h
  | rouse =>
    rw [run] at h
    split at h
    · cases h
    · exact .of_some h rfl (dues_control (by grind))
  | nudge w =>
    rw [run] at h
    split at h
    · exact .of_some h rfl rfl
    · rename_i worker _
      refine .of_some h rfl ?_
      cases worker.current <;> rfl
  | joinAll =>
    rw [run] at h
    split at h
    · cases h
    · exact .of_some h rfl (dues_control (by grind))
  | detach d => exact detach_entry h
  | again ds summary =>
    cases ds with
    | nil => exact .of_some h rfl rfl
    | cons d ds =>
      rw [run] at h
      repeat' split at h
      all_goals exact .of_some h rfl rfl
  | _ =>
    rw [run] at h
    repeat' split at h
    all_goals first
      | exact .of_some h rfl rfl
      | exact .of_some h (Broker.books_congr rfl rfl (Table.map_modify_of_eq (fun _ => by rfl) _ _)) rfl
      | cases h

end ControlStep

namespace WorkerStep

variable {w : WorkerId} {worker : Worker} {unit : TierUnit} {s : WorkerStep} {c : CompileRun}

/-- What a back-end does is not entered. -/
theorem obey_entry {task : Task} {move : BackendMove} (h : obey b w c task unit move = some turn) :
    Entry b.books (some .compile) (dues turn.next) turn.broker.books := by
  cases move with
  | call c' =>
    refine .of_some h rfl ?_
    rw [dues_append, dues_call]
    rfl
  | operate o => exact .of_some h (b.books_operate o) rfl
  | _ =>
    rw [obey] at h
    repeat' split at h
    all_goals exact .of_some h rfl rfl

/-- A worker enters the tasks that it takes off its queue. -/
theorem choose_entry (hu : b.units[worker.unit]? = some unit) (hsound : b.ledger.Sound)
    (h : run me ch b w worker unit .choose = some turn) :
    Entry b.books none (dues turn.next) turn.broker.books := by
  have hstock : b.ledger.stocks[worker.unit]? = some unit.queue.stock := by simp [hu]
  rw [run] at h
  split at h
  · exact .of_some h (b.books_giveBack _) rfl
  · split at h
    · exact .of_some h rfl rfl
    · rename_i chosen stale b' hselect
      obtain ⟨hbooks, hle⟩ := Broker.books_select hselect (hsound.list hstock)
      have hshed := Entry.shed (Broker.getElem?_queues hu) hle
      have hunlock := (b'.books_giveBack worker.unit).trans hbooks
      split at h
      · rename_i hstale
        obtain rfl := List.isEmpty_iff.1 hstale
        cases chosen with
        | some t =>
          obtain rfl := Option.some.inj h
          exact hshed.cast hunlock
        | none =>
          obtain rfl := Option.some.inj h
          exact hshed.cast hbooks
      · obtain rfl := Option.some.inj h
        rw [dues_append, dues_stale]
        cases chosen <;> exact hshed.cast hunlock

/-- A worker that has a task finds it at each step, and enters its compile. -/
theorem task_entry {t : TaskId} {task : Task} {m : Method} (hs : s.phase.task? = some t)
    (ht : b.tasks[t]? = some task) (hm : b.methods[task.method]? = some m)
    (h : run me ch b w worker unit s = some turn) :
    Entry b.books s.due? (dues turn.next) turn.broker.books := by
  cases s with
  | compile c =>
    cases hs
    rw [run, ht] at h
    cases hmove : ch.move with
    | none => simp [hmove] at h
    | some move =>
      rw [hmove] at h
      exact obey_entry h
  | judge c =>
    refine .of_some h rfl ?_
    cases c.report.cacheFull <;> rfl
  | count f =>
    cases hs
    rw [run, ht] at h
    simp only [hm] at h
    obtain rfl := Option.some.inj h
    exact Entry.cast .compile (b.books_record ..)
  | announce f =>
    cases hs
    rw [run, ht] at h
    obtain rfl := Option.some.inj h
    refine Entry.cast .event ?_
    simp [Broker.books, Statistics.post]
  | _ =>
    cases hs <;> rw [run] at h <;> (try simp only [ht, hm] at h) <;> repeat' split at h
    all_goals first
      | exact .of_some h rfl rfl
      | exact .of_some h (Broker.books_congr rfl rfl (Table.map_modify_of_eq (fun _ => by rfl) _ _)) rfl
      | cases h

/-- What a step of a worker enters. -/
theorem entry (hu : b.units[worker.unit]? = some unit)
    (hsound : b.ledger.Sound) (hready : Duty.Ready b.ledger (.post w s.phase))
    (h : run me ch b w worker unit s = some turn) :
    Entry b.books s.due? (dues turn.next) turn.broker.books := by
  cases ht : s.phase.task? with
  | some t =>
    obtain ⟨task, htask⟩ := Table.exists_getElem? (hready.2 t ht)
    obtain ⟨m, hm⟩ := hsound.exists_method htask
    exact task_entry ht htask hm h
  | none =>
    cases s with
    | choose => exact choose_entry hu hsound h
    | settle =>
      refine .of_some h rfl ?_
      split <;> rfl
    | _ =>
      cases ht <;> rw [run] at h <;> repeat' split at h
      all_goals first
        | exact .of_some h rfl rfl
        | exact .of_some h
            (Broker.books_congr rfl rfl (Table.map_modify_of_eq (fun _ => by rfl) _ _)) rfl
        | cases h

end WorkerStep

/-- What a step of a thread enters in the books. -/
theorem Action.entry {a : Action} (hsound : b.ledger.Sound)
    (hready : ∀ d ∈ a.duty?, Duty.Ready b.ledger d) (h : a.run me ch b = some turn) :
    Entry b.books a.due? (dues turn.next) turn.broker.books := by
  cases a with
  | request s => exact RequestStep.entry h
  | task s => exact TaskStep.entry h
  | control s => exact ControlStep.entry hsound h
  | gate s => exact GateStep.entry h
  | worker w s =>
    have hready := hready _ rfl
    obtain ⟨worker, unit, hw, hu, h⟩ := worker_run hsound hready.1 h
    exact WorkerStep.entry hu hsound hready h
  | crew s => exact CrewStep.entry h
  | answer r => exact .of_some h rfl rfl
  | fault => cases h

/-! ### Runs -/

namespace System

variable {s s' first : System} {i : ThreadId}

/-- The books of the broker. -/
def books (s : System) : Books := s.broker.books

/-- What the threads are still to enter. -/
def dues (s : System) : Multiset Due := s.pending.filterMap Action.due?

/-- How often something is still to be entered. -/
def owed (s : System) (d : Due) : Nat := s.dues.count d

/-- The books of a system are in balance with what its threads are still to enter. -/
def Balanced (s : System) : Prop := s.books.Balanced s.dues

/-- In a lawful system every step makes an entry. -/
theorem Lawful.entry (hs : s.Lawful) (h : s.step i ch = some s') :
    ∃ d new, Entry s.books d new s'.books ∧ s'.dues + ↑d.toList = s.dues + ↑new := by
  obtain ⟨t, a, rest, turn, ht, ha, hrun, rfl⟩ := step_eq_some_iff.1 h
  have hmem : a ∈ s.pending := mem_pending.2 ⟨i, t, ht, ha ▸ List.mem_cons_self⟩
  have hentry := Action.entry hs.sound (fun d hd => hs.ready d (mem_duties.2 ⟨a, hmem, hd⟩)) hrun
  refine ⟨a.due?, _, hentry, ?_⟩
  -- A worker who is hired is not to enter anything yet.
  have hbrings : turn.brings.filterMap Action.due? = JitBroker.dues turn.next := by
    rw [Turn.brings, List.filterMap_append]
    cases turn.hired <;> exact List.append_nil _
  exact hbrings ▸ filterMap_pending_turned Action.due? ht ha

/-- So does every other move. -/
theorem Lawful.entry_move (hs : s.Lawful) (m : Move) :
    ∃ d new, Entry s.books d new (s.move m).books ∧
      (s.move m).dues + ↑d.toList = s.dues + ↑new := by
  cases m with
  | step i ch =>
    cases h : s.step i ch with
    | none =>
      rw [System.move, h]
      exact ⟨none, [], .plain none, rfl⟩
    | some s' =>
      rw [System.move, h]
      exact hs.entry h
  | call c n =>
    refine ⟨none, [], .plain none, ?_⟩
    have hcall := JitBroker.dues_call c
    rw [JitBroker.dues] at hcall
    simp [dues, System.move, System.call, hcall]
  | operate o => exact ⟨none, [], Entry.of_eq (s.broker.books_operate o) rfl, rfl⟩

theorem Balanced.move (h : s.Balanced) (hs : s.Lawful) (m : Move) : (s.move m).Balanced := by
  obtain ⟨d, new, hentry, hdues⟩ := hs.entry_move m
  exact Books.Balanced.entry h hentry hdues

end System

/-- The books of a broker that is assembled are empty. -/
theorem Broker.books_assemble {config : Config} {parts : Parts} (h : assemble config parts = .ok b) :
    (∀ q ∈ b.books.queues.toList, q = ⟨0, 0, 0, 0⟩) ∧
      b.books = ⟨b.books.queues, 0, 0, 0, 0, 0, if config.acceptDefault then .run else .stopped⟩ := by
  refine ⟨fun q hq => ?_, ?_⟩
  · rw [books, Table.toList_map, List.mem_map] at hq
    obtain ⟨x, hx, rfl⟩ := hq
    obtain ⟨tier, hqueue⟩ := queue_of_assemble h x hx
    rw [hqueue]
    rfl
  · obtain ⟨units, -, rfl⟩ := exists_of_assemble h
    rfl

namespace System

variable {s : System}

/-- A system starts with its books in balance. -/
theorem balanced_launch {config : Config} {parts : Broker.Parts}
    (h : Broker.assemble config parts = .ok b) : (launch b).Balanced := by
  obtain ⟨hqueues, hbooks⟩ := Broker.books_assemble h
  have hdues : (launch b).dues = 0 := rfl
  rw [Balanced, hdues, show (launch b).books = b.books from rfl, hbooks]
  refine ⟨fun q hq => ?_, rfl, ?_, ⟨Nat.le_refl _, Nat.zero_le _⟩, fun _ => ?_⟩
  · rw [hqueues q hq]
    exact ⟨rfl, Nat.le_refl _⟩
  · simp only [Multiset.count_zero]
    refine Table.total_eq_zero_iff.2 fun i q hq => ?_
    rw [hqueues q (Table.mem_toList_iff.2 ⟨i, hq⟩)]
  · simp only [Multiset.count_zero]
    split <;> simp

/-- The books are in balance in every state that a system can get into. -/
theorem Reachable.balanced {config : Config} {parts : Broker.Parts}
    (hb : Broker.assemble config parts = .ok b) (h : Reachable (launch b) s) : s.Balanced := by
  induction h with
  | first => exact balanced_launch hb
  | move m hr ih => exact ih.move (hr.lawful (Broker.fresh_assemble hb)) m

end System

end JitBroker
