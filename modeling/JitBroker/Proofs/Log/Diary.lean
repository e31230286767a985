import Mathlib.Data.List.DropRight
import JitBroker.Proofs.Backend.Opened
import JitBroker.Proofs.Crew.Change
import JitBroker.Proofs.Kinds
import JitBroker.Proofs.Log.Frame
import JitBroker.Proofs.Task.Picked

/-!
# What compile logs tell

What a worker does with its tasks, one after the other, makes its *diary* (`System.diary`): it takes
up a task, and looks up then whether the compile is to be logged; it begins the compile; it ends it
with a result; and it writes the result into the task. A diary is a row of complete passes through
these four, and of one that may still be going on (`Diary.Ongoing`).

The log of a worker holds the last entries, as many as fit, of what the diary tells
(`System.logged_of_run`): two entries in a row for each pass that was to be logged, and one for a
logged compile that has begun and has not ended. The directive is asked once for each pass, so that
it does not matter what becomes of the directives afterwards.

* `CompileLog.push_keeping`: a log keeps the last entries of all that were written;
* `WorkerStep.run_at`: each step of a worker leads to one that fits the diary after it;
* `System.Kept.move`: every move keeps logs and diaries in agreement.
-/

namespace JitBroker

namespace CompileLog

/-- The log of these entries: the last of them that fit. -/
def keeping (capacity : Nat) (es : List LogEntry) : CompileLog where
  capacity := capacity
  entries := es.rtake capacity

/-- One more entry, and the oldest one makes room for it if need be. -/
@[simp] theorem keeping_nil (capacity : Nat) : keeping capacity [] = { capacity := capacity } := by
  simp [keeping]

theorem push_keeping (capacity : Nat) (es : List LogEntry) (e : LogEntry) :
    (keeping capacity es).push e = keeping capacity (es ++ [e]) := by
  have happend : es.drop (es.length - capacity) ++ [e] = (es ++ [e]).drop (es.length - capacity) :=
    (List.drop_append_of_le_length (Nat.sub_le _ _)).symm
  have hlength : es.length - capacity + (es.length - (es.length - capacity) + 1 - capacity) =
      es.length + 1 - capacity := by omega
  rw [push, keeping, keeping, List.rtake, List.rtake, happend, List.length_drop, List.drop_drop,
    hlength, List.length_append, List.length_singleton]

theorem foldl_push_keeping (capacity : Nat) (es added : List LogEntry) :
    added.foldl push (keeping capacity es) = keeping capacity (es ++ added) := by
  induction added generalizing es with
  | nil => rw [List.foldl_nil, List.append_nil]
  | cons e added ih =>
    rw [List.foldl_cons, push_keeping, ih, List.append_assoc, List.singleton_append]

end CompileLog

/-! ### Diaries -/

namespace Diary

/-- A task as a worker takes it up. -/
structure Job where
  /-- The task. -/
  task : TaskId
  /-- Its compile number. -/
  compileId : UInt32
  /-- Its tier. -/
  tier : Tier
  /-- The method, with the entry if it is no standard one. -/
  label : String
  /-- Whether the compile is to be logged, by the configuration or by the directive. -/
  logged : Bool
  deriving DecidableEq

/-- What a worker does with a task. -/
inductive Note where
  /-- It takes the task up. -/
  | takenUp (j : Job)
  /-- It begins the compile. -/
  | begun (t : TaskId)
  /-- The compile has ended, with this result, after so much time. -/
  | ended (t : TaskId) (r : TaskResult) (elapsed : Nat)
  /-- The result is written into the task. -/
  | written (t : TaskId) (r : TaskResult)
  deriving DecidableEq

/-- The entry for the begin of a compile. -/
def Job.opening (j : Job) : LogEntry where
  compileId := j.compileId
  tier := j.tier
  method := j.label
  event := .begin

/-- A compile from the time its task is taken up until its result is written. -/
structure Pass where
  /-- The task. -/
  job : Job
  /-- The result. -/
  result : TaskResult
  /-- The time the compile took. -/
  elapsed : Nat

/-- The entry for its end. -/
def Pass.closing (p : Pass) : LogEntry where
  compileId := p.job.compileId
  tier := p.job.tier
  method := p.job.label
  event := if p.result.success then .done else .failure
  elapsed := some p.elapsed
  detail := some (CompileLog.detail p.result)

/-- What the worker does. -/
def Pass.notes (p : Pass) : List Note :=
  [.takenUp p.job, .begun p.job.task, .ended p.job.task p.result p.elapsed,
    .written p.job.task p.result]

/-- What it logs. -/
def Pass.entries (p : Pass) : List LogEntry :=
  if p.job.logged then [p.job.opening, p.closing] else []

/-- What a worker has done with a task whose result it has not written yet, and what it has logged
of it. -/
inductive Ongoing : List Note → List LogEntry → Prop where
  /-- There is no such task. -/
  | nothing : Ongoing [] []
  /-- The task is taken up. -/
  | takenUp (j : Job) : Ongoing [.takenUp j] []
  /-- The compile has begun. -/
  | begun (j : Job) :
    Ongoing [.takenUp j, .begun j.task] (if j.logged then [j.opening] else [])
  /-- The compile has ended. -/
  | ended (j : Job) (r : TaskResult) (elapsed : Nat) :
    Ongoing [.takenUp j, .begun j.task, .ended j.task r elapsed] (Pass.entries ⟨j, r, elapsed⟩)

end Diary

open Diary

/-- The task that a worker takes up. -/
def Broker.job? (b : Broker) (w : WorkerId) (t : TaskId) : Option Job := do
  let worker ← b.workers[w]?
  let unit ← b.units[worker.unit]?
  let task ← b.tasks[t]?
  let m ← b.methods[task.method]?
  return {
    task := t
    compileId := task.compileId
    tier := task.tier
    label := task.label m
    logged := b.config.logCompilation || (b.directiveFor m unit.kind).log }

/-- What a step of a worker adds to its diary. -/
def WorkerStep.note? (b : Broker) (w : WorkerId) : WorkerStep → Option Note
  | .consult t => (b.job? w t).map .takenUp
  | .begin c => some (.begun c.task)
  | .close f => some (.ended f.task f.result f.elapsed)
  | .publish f => some (.written f.task f.result)
  | _ => none

namespace System

/-- What a move adds to the diary of a worker. -/
def note? (w : WorkerId) (s : System) (m : Move) : Option Note :=
  match s.ran m with
  | some (.worker v st) => if v = w then st.note? s.broker w else none
  | _ => none

/-- The diary of a worker. -/
def diary (s : System) (w : WorkerId) (ms : List Move) : List Note := s.gather (note? w) ms

end System

/-! ### Steps and diaries -/

variable {me : Caller} {ch : Choices} {b b' : Broker} {turn : Turn} {rest : List Note}

/-- The compile is the one of the job. -/
def CompileRun.IsOf (c : CompileRun) (j : Job) : Prop := c.task = j.task ∧ c.logged = j.logged

/-- The compile whose result is known is the one of the job. -/
def Finished.IsOf (f : Finished) (j : Job) : Prop := f.task = j.task ∧ f.logged = j.logged

/-- A step fits what the worker has done with a task whose result it has not written yet. -/
def WorkerStep.At (rest : List Note) : WorkerStep → Prop
  | .begin c => ∃ j, rest = [.takenUp j] ∧ c.IsOf j
  | .examine c | .clear c | .giveUp c | .compile c | .attach c _ | .judge c =>
    ∃ j, rest = [.takenUp j, .begun j.task] ∧ c.IsOf j
  | .rule f | .count f | .announce f | .close f =>
    ∃ j, rest = [.takenUp j, .begun j.task] ∧ f.IsOf j
  | .drop f | .unmark f | .publish f =>
    ∃ j, rest = [.takenUp j, .begun j.task, .ended j.task f.result f.elapsed] ∧ f.task = j.task
  | _ => rest = []

/-- What is left to be done with a task after one more note: nothing, once the result is written. -/
def Diary.after (rest : List Note) : Option Note → List Note
  | some (.written _ _) => []
  | note => rest ++ note.toList

@[simp] theorem Diary.after_none (rest : List Note) : Diary.after rest none = rest :=
  List.append_nil rest

/-- Every step of a worker that a turn brings fits. -/
def Turn.At (rest : List Note) (turn : Turn) : Prop :=
  ∀ ⦃w : WorkerId⦄ ⦃s : WorkerStep⦄, .worker w s ∈ turn.next → s.At rest

theorem Turn.At.of_some {turn' : Turn} (h : some turn' = some turn) (ht : turn'.At rest) :
    turn.At rest := by
  obtain rfl := Option.some.inj h
  exact ht

/-- A turn after which a worker is to take one step, and before it others that are no worker's. -/
theorem Turn.at_concat (as : List Action) {w : WorkerId} {s : WorkerStep} {r : Option Reply}
    (has : ∀ v x, .worker v x ∉ as) (hs : s.At rest) :
    Turn.At rest { broker := b, next := as ++ [.worker w s], reply := r } := by
  intro v x hmem
  rcases List.mem_append.1 hmem with hmem | hmem
  · exact absurd hmem (has v x)
  · obtain ⟨-, rfl⟩ := Action.worker.inj (List.mem_singleton.1 hmem)
    exact hs

theorem Turn.at_single {w : WorkerId} {s : WorkerStep} {r : Option Reply} (hs : s.At rest) :
    Turn.At rest { broker := b, next := [.worker w s], reply := r } :=
  at_concat [] (fun _ _ => List.not_mem_nil) hs

theorem Turn.at_fault : Turn.At rest { broker := b, next := [.fault] } := by
  intro v x hmem
  cases List.mem_singleton.1 hmem

namespace WorkerStep

variable {w : WorkerId} {worker : Worker} {unit : TierUnit} {s : WorkerStep} {c : CompileRun}

/-- A back-end goes on with the compile, whatever it does. -/
theorem obey_at {task : Task} {move : BackendMove} (hat : (compile c).At rest)
    (h : obey b w c task unit move = some turn) : turn.At rest := by
  obtain ⟨j, rfl, hc⟩ := hat
  cases move with
  | call call =>
    refine .of_some h (Turn.at_concat _ (fun v x hmem => ?_) ⟨j, rfl, hc⟩)
    have hkind := Call.kind_of_mem hmem
    cases x <;> simp [Action.kind] at hkind
  | install total instructions =>
    rw [obey] at h
    split at h
    · exact .of_some h (Turn.at_single ⟨j, rfl, hc⟩)
    · exact .of_some h (Turn.at_single ⟨j, rfl, hc⟩)
  | checkpoint => exact .of_some h (Turn.at_concat [.gate .poll] (by simp) ⟨j, rfl, hc⟩)
  | finish =>
    rw [obey] at h
    split at h
    · exact .of_some h (Turn.at_concat [.gate .poll] (by simp) ⟨j, rfl, hc⟩)
    · exact .of_some h (Turn.at_single ⟨j, rfl, hc⟩)
  | _ => exact .of_some h (Turn.at_single ⟨j, rfl, hc⟩)

/-- Each step of a worker leads to one that fits the diary after it. -/
theorem run_at (hw : b.workers[w]? = some worker) (hu : b.units[worker.unit]? = some unit)
    (hat : s.At rest) (h : s.run me ch b w worker unit = some turn) :
    turn.At (Diary.after rest (s.note? b w)) := by
  have hstale (ts : List TaskId) (v : WorkerId) (x : WorkerStep) :
      .worker v x ∉ ts.flatMap Action.stale := by
    intro hmem
    obtain ⟨t, -, hmem⟩ := List.mem_flatMap.1 hmem
    obtain ⟨y, -, heq⟩ := List.mem_map.1 hmem
    cases heq
  have silent (hnote : s.note? b w = none) (ht : turn.At rest) :
      turn.At (Diary.after rest (s.note? b w)) := by
    rw [hnote, Diary.after_none]
    exact ht
  cases s with
  | consult t =>
    obtain rfl : rest = [] := hat
    rw [run] at h
    split at h
    · exact .of_some h Turn.at_fault
    · rename_i task ht
      split at h
      · exact .of_some h Turn.at_fault
      · rename_i m hm
        have hjob : b.job? w t = some ⟨t, task.compileId, task.tier, task.label m,
            b.config.logCompilation || (b.directiveFor m unit.kind).log⟩ := by
          simp [Broker.job?, hw, hu, ht, hm]
        rw [note?, hjob]
        exact .of_some h (Turn.at_single ⟨_, rfl, rfl, rfl⟩)
  | begin c =>
    obtain ⟨j, rfl, hc⟩ := hat
    rw [run] at h
    repeat' split at h
    · exact .of_some h Turn.at_fault
    · exact .of_some h Turn.at_fault
    all_goals exact .of_some h (Turn.at_single ⟨j, by rw [note?, hc.1]; rfl, hc⟩)
  | compile c =>
    refine silent rfl ?_
    rw [run] at h
    split at h
    · exact .of_some h Turn.at_fault
    · cases h
    · exact obey_at hat h
  | examine c | clear c | giveUp c | attach c code =>
    obtain ⟨j, rfl, hc⟩ := hat
    refine silent rfl ?_
    rw [run] at h
    repeat' split at h
    all_goals first
      | exact .of_some h Turn.at_fault
      | exact .of_some h (Turn.at_single ⟨j, rfl, hc⟩)
  | judge c =>
    obtain ⟨j, rfl, hc⟩ := hat
    refine silent rfl ?_
    refine .of_some h (Turn.at_concat _ (fun v x hmem => ?_) ⟨j, rfl, hc⟩)
    obtain ⟨kind, -, heq⟩ := List.mem_map.1 hmem
    cases heq
  | rule f | count f | announce f | drop f | unmark f =>
    obtain ⟨j, rfl, hf⟩ := hat
    refine silent rfl ?_
    rw [run] at h
    (try simp only at h)
    repeat' split at h
    all_goals first
      | exact .of_some h Turn.at_fault
      | exact .of_some h (Turn.at_single ⟨j, rfl, hf⟩)
  | close f =>
    obtain ⟨j, rfl, hf⟩ := hat
    rw [run] at h
    repeat' split at h
    · exact .of_some h Turn.at_fault
    · exact .of_some h Turn.at_fault
    all_goals exact .of_some h (Turn.at_single ⟨j, by rw [note?, hf.1]; rfl, hf.1⟩)
  | publish f =>
    exact .of_some h (Turn.at_concat [.task (.complete f.task .worker)] (by simp) rfl)
  | choose =>
    obtain rfl : rest = [] := hat
    refine silent rfl ?_
    rw [run] at h
    repeat' split at h
    all_goals first
      | exact .of_some h Turn.at_fault
      | exact .of_some h (Turn.at_single rfl)
      | exact .of_some h (Turn.at_concat _ (hstale _) rfl)
  | settle =>
    obtain rfl : rest = [] := hat
    refine silent rfl ?_
    refine .of_some h (Turn.at_concat _ (fun v x hmem => ?_) rfl)
    split at hmem <;> simp at hmem
  | quit =>
    exact .of_some h fun v x hmem => absurd hmem List.not_mem_nil
  | _ =>
    obtain rfl : rest = [] := hat
    refine silent rfl ?_
    rw [run] at h
    repeat' split at h
    all_goals first
      | exact .of_some h (Turn.at_single rfl)
      | exact .of_some h (Turn.at_concat [_] (by simp) rfl)
      | cases h

end WorkerStep

/-! ### Steps and logs -/

/-- What the job tells of its task is what the broker knows of it. -/
def Broker.Carries (b : Broker) (j : Job) : Prop :=
  ∃ task m, b.tasks[j.task]? = some task ∧ b.methods[task.method]? = some m ∧
    task.compileId = j.compileId ∧ task.tier = j.tier ∧ task.label m = j.label

theorem Broker.carries_of_job {w : WorkerId} {t : TaskId} {j : Job} (h : b.job? w t = some j) :
    b.Carries j := by
  simp only [job?, Option.bind_eq_bind, Option.bind_eq_some_iff, Option.pure_def,
    Option.some.injEq] at h
  obtain ⟨worker, -, unit, -, task, ht, m, hm, rfl⟩ := h
  exact ⟨task, m, ht, hm, rfl, rfl, rfl⟩

/-- A worker that adds the note to its diary, and these entries to its log, tells the same in
both. -/
def Diary.Tells (rest : List Note) (tail : List LogEntry) (note : Option Note)
    (added : List LogEntry) : Prop :=
  ∃ (passes : List Pass) (tail' : List LogEntry), Ongoing (after rest note) tail' ∧
    rest ++ note.toList = passes.flatMap Pass.notes ++ after rest note ∧
      tail ++ added = passes.flatMap Pass.entries ++ tail'

variable {tail added : List LogEntry} {note : Option Note}

theorem Diary.mem_after {n : Note} (h : n ∈ after rest note) : n ∈ rest ∨ note = some n := by
  unfold after at h
  split at h
  · exact absurd h List.not_mem_nil
  · exact (List.mem_append.1 h).imp_right Option.mem_toList.1

theorem Diary.tells_nothing (h : Ongoing rest tail) : Tells rest tail none [] :=
  ⟨[], tail, (after_none rest).symm ▸ h, by simp, List.append_nil tail⟩

/-- Whatever does not write the result does not complete a pass. -/
theorem Diary.tells_of_after (h : Ongoing (rest ++ note.toList) (tail ++ added))
    (hafter : after rest note = rest ++ note.toList) : Tells rest tail note added :=
  ⟨[], tail ++ added, hafter ▸ h, hafter.symm, rfl⟩

namespace WorkerStep

variable {w : WorkerId} {worker : Worker} {unit : TierUnit} {s : WorkerStep}

/-- A step of a worker tells the same in its diary and in its log. -/
theorem tells (hw : b.workers[w]? = some worker) (hat : s.At rest) (ho : Ongoing rest tail)
    (hcarries : ∀ j, .takenUp j ∈ rest → b.Carries j)
    (h : s.run me ch b w worker unit = some turn) :
    ∃ added, Tells rest tail (s.note? b w) added ∧
      turn.broker.workers[w]?.map (·.log) = some (added.foldl CompileLog.push worker.log) := by
  have same (hlogs : b.Unlogged turn.broker) :
      turn.broker.workers[w]?.map (·.log) = some worker.log := by
    rw [← Table.getElem?_map, hlogs.logs, Table.getElem?_map, hw]
    rfl
  -- The log of the worker with another entry, if the compile is to be logged.
  have written {logged : Bool} {f : CompileLog → CompileLog} {e : LogEntry}
      (hf : f worker.log = worker.log.push e)
      (hb : turn.broker =
        if logged then b.modifyWorker w fun x => { x with log := f x.log } else b) :
      turn.broker.workers[w]?.map (·.log) =
        some ((if logged then [e] else []).foldl CompileLog.push worker.log) := by
    rw [hb]
    cases logged with
    | false => exact congrArg _ hw
    | true => exact (congrArg _ (Table.getElem?_modify_self hw _)).trans (congrArg some hf)
  cases s with
  | consult t =>
    obtain rfl : rest = [] := hat
    obtain rfl : tail = [] := by cases ho; rfl
    refine ⟨[], ?_, same (unlogged h (by simp) (by simp))⟩
    rw [note?]
    cases b.job? w t with
    | none => exact tells_nothing .nothing
    | some j => exact tells_of_after (.takenUp j) rfl
  | begin c =>
    obtain ⟨j, rfl, hc⟩ := hat
    obtain rfl : tail = [] := by cases ho; rfl
    obtain ⟨task, m, ht, hm, hid, htier, hlabel⟩ := hcarries j List.mem_cons_self
    simp only [run, hc.1, ht, hm] at h
    refine ⟨if j.logged then [j.opening] else [], ?_, ?_⟩
    · rw [note?, hc.1]
      exact tells_of_after (.begun j) rfl
    · refine written (f := (·.begin task m)) ?_ ?_
      · rw [CompileLog.begin, hid, htier, hlabel]
        rfl
      · rw [← hc.2]
        exact (Option.some.inj h) ▸ rfl
  | close f =>
    obtain ⟨j, rfl, hf⟩ := hat
    obtain rfl : tail = if j.logged then [j.opening] else [] := by cases ho; rfl
    obtain ⟨task, m, ht, hm, hid, htier, hlabel⟩ := hcarries j List.mem_cons_self
    simp only [run, hf.1, ht, hm] at h
    refine ⟨if j.logged then [Pass.closing ⟨j, f.result, f.elapsed⟩] else [], ?_, ?_⟩
    · rw [note?, hf.1]
      refine tells_of_after ?_ rfl
      have hentries : (if j.logged then [j.opening] else []) ++
          (if j.logged then [Pass.closing ⟨j, f.result, f.elapsed⟩] else []) =
            Pass.entries ⟨j, f.result, f.elapsed⟩ := by
        rw [Pass.entries]
        split <;> rfl
      exact hentries ▸ .ended j f.result f.elapsed
    · refine written (f := (·.finish task m f.result f.elapsed)) ?_ ?_
      · rw [CompileLog.finish, hid, htier, hlabel]
        rfl
      · rw [← hf.2]
        exact (Option.some.inj h) ▸ rfl
  | publish f =>
    obtain ⟨j, rfl, hf⟩ := hat
    obtain rfl : tail = Pass.entries ⟨j, f.result, f.elapsed⟩ := by cases ho; rfl
    refine ⟨[], ⟨[⟨j, f.result, f.elapsed⟩], [], .nothing, ?_, ?_⟩,
      same (unlogged h (by simp) (by simp))⟩
    · rw [note?, hf]
      rfl
    · simp
  | _ => exact ⟨[], tells_nothing ho, same (unlogged h (by simp) (by simp))⟩

end WorkerStep

/-! ### Moves -/

namespace System

variable {s : System} {m : Move} {w : WorkerId} {notes : List Note}

theorem note_of_ran {st : WorkerStep} (h : s.ran m = some (.worker w st)) :
    s.note? w m = st.note? s.broker w := by
  rw [System.note?, h]
  exact if_pos rfl

theorem note_of_ne (h : ∀ st, s.ran m ≠ some (.worker w st)) : s.note? w m = none := by
  unfold System.note?
  split
  · refine if_neg ?_
    rintro rfl
    exact h _ ‹_›
  · rfl

/-- What a job tells of its task stays true. -/
theorem carries_move (hs : s.Lawful) (m : Move) {j : Job} (h : s.broker.Carries j) :
    (s.move m).broker.Carries j := by
  obtain ⟨task, x, ht, hx, hid, htier, hlabel⟩ := h
  obtain ⟨task', ht', hev⟩ := (hs.extends_move m).task ht
  obtain ⟨x', hx', hname⟩ := s.named_move m hx
  refine ⟨task', x', ht', hev.method ▸ hx', hev.compileId.trans hid, hev.tier.trans htier, ?_⟩
  rw [← hlabel, Task.label, Task.label, Task.isOsr, Task.isOsr, hev.entryBci, hname]

/-- A step of a worker that is brought by a move is that of a worker just hired, or comes of the
step that is run. -/
theorem Brings.worker_cases {new : List Action} {st : WorkerStep} (h : s.Brings m new)
    (hs : s.Lawful) (ho : s.Ordered) (hmem : .worker w st ∈ new) :
    st = .start ∧ s.broker.workers[w]? = none ∨
      ∃ i ch th st₀ rest turn, s.Runs m i ch th (.worker w st₀) rest turn ∧
        .worker w st ∈ turn.next := by
  cases h with
  | call hm => cases (Call.none_of_mem hmem).2.2.1
  | nothing hran => exact absurd hmem List.not_mem_nil
  | @step i ch th a rest turn hruns =>
    rcases List.mem_append.1 hmem with hnext | hhired
    · obtain ⟨st₀, rfl⟩ := hruns.exists_of_worker_next hs ho hnext
      exact .inr ⟨i, ch, th, st₀, rest, turn, hruns, hnext⟩
    · obtain ⟨v, hv, heq⟩ := List.mem_map.1 hhired
      obtain ⟨rfl, rfl⟩ := Action.worker.inj heq
      obtain rfl := (hruns.shift hs).event.hired_eq v (Option.mem_toList.1 hv)
      refine .inl ⟨rfl, (Table.getElem?_eq_none_iff _ _).2 ?_⟩
      rw [ledger, Broker.ledger, Table.size_map]

/-- The log of a worker tells what its diary tells: these passes, and what is written of the one
that goes on. -/
structure Kept (s : System) (w : WorkerId) (notes : List Note) (passes : List Pass)
    (rest : List Note) (tail : List LogEntry) : Prop where
  /-- This is the diary. -/
  notes : notes = passes.flatMap Pass.notes ++ rest
  /-- A pass may go on. -/
  ongoing : Ongoing rest tail
  /-- The log keeps the last of its entries. -/
  log : ∀ log, s.broker.workers[w]?.map (·.log) = some log →
    log = .keeping s.broker.config.logCapacity.toNat (passes.flatMap Pass.entries ++ tail)
  /-- Who is no worker yet has no diary. -/
  absent : s.broker.workers[w]? = none → passes = [] ∧ rest = []
  /-- What the worker is to do next fits the diary. -/
  fits : ∀ {st : WorkerStep}, .worker w st ∈ s.pending → st.At rest
  /-- The task that is being compiled is as the diary tells. -/
  carries : ∀ j, .takenUp j ∈ rest → s.broker.Carries j

namespace Kept

variable {passes : List Pass} {rest : List Note} {tail : List LogEntry}

theorem absent_move (h : s.Kept w notes passes rest tail) (hs : s.Lawful)
    (hw : (s.move m).broker.workers[w]? = none) : passes = [] ∧ rest = [] := by
  refine h.absent (Option.eq_none_iff_forall_ne_some.2 fun worker hworker => ?_)
  obtain ⟨worker', hworker', -⟩ := exists_worker_move hs m hworker
  cases hw.symm.trans hworker'

/-- A move in which the worker takes no step. -/
theorem move_of_ne (h : s.Kept w notes passes rest tail) (hs : s.Lawful) (ho : s.Ordered)
    (hran : ∀ st, s.ran m ≠ some (.worker w st)) :
    (s.move m).Kept w notes passes rest tail where
  notes := h.notes
  ongoing := h.ongoing
  log log hlog := by
    rw [config_move]
    rcases log_move hran with hsame | ⟨hnone, hnew⟩
    · exact h.log log (hsame ▸ hlog)
    · obtain ⟨rfl, rfl⟩ := h.absent hnone
      obtain rfl : tail = [] := by cases h.ongoing; rfl
      obtain rfl := Option.some.inj (hnew.symm.trans hlog)
      simp
  absent hw := h.absent_move hs hw
  fits {st} hmem := by
    obtain ⟨others, new, hnew, hbefore, hafter⟩ := s.exists_pending_move m
    rw [hafter, Multiset.mem_add] at hmem
    rcases hmem with hold | hmem
    · exact h.fits (hbefore ▸ Multiset.mem_add.2 (.inl hold))
    · rcases hnew.worker_cases hs ho hmem with ⟨rfl, hnone⟩ | ⟨i, ch, th, st₀, rest, turn, hruns, -⟩
      · exact (h.absent hnone).2
      · exact absurd hruns.ran (hran st₀)
  carries j hj := carries_move hs m (h.carries j hj)

/-- A step of the worker. -/
theorem move_of_ran (h : s.Kept w notes passes rest tail) (hs : s.Orderly) (ho : s.Ordered)
    {st : WorkerStep} (hran : s.ran m = some (.worker w st)) :
    ∃ passes' tail', (s.move m).Kept w (notes ++ (s.note? w m).toList) passes'
      (Diary.after rest (s.note? w m)) tail' := by
  have hl := hs.lawful
  obtain ⟨i, ch, th, agenda, turn, hruns⟩ := exists_runs hran
  have hready := hl.ready _ (mem_duties.2 ⟨_, hruns.mem_pending, rfl⟩)
  obtain ⟨worker, unit, hw, hu, hrun⟩ := Action.worker_run hl.sound hready.1 hruns.run
  have hat := h.fits hruns.mem_pending
  obtain ⟨added, ⟨ps, tail', hongoing, hnotes, hentries⟩, hlog⟩ :=
    WorkerStep.tells hw hat h.ongoing h.carries hrun
  rw [note_of_ran hran]
  refine ⟨passes ++ ps, tail', ?_, hongoing, fun log hlog' => ?_, fun hnone => ?_,
    fun {st'} hmem => ?_, fun j hj => carries_move hl m ?_⟩
  · rw [h.notes, List.append_assoc, hnotes, List.flatMap_append, List.append_assoc]
  · rw [hruns.turned, broker_turned, hlog, h.log worker.log (congrArg _ hw)] at hlog'
    rw [config_move, ← Option.some.inj hlog', CompileLog.foldl_push_keeping, List.append_assoc,
      hentries, List.flatMap_append, List.append_assoc]
  · obtain ⟨worker', hworker', -⟩ := exists_worker_move hl m hw
    cases hnone.symm.trans hworker'
  · obtain ⟨others, new, hnew, hbefore, hafter⟩ := s.exists_pending_move m
    rw [hran] at hbefore
    rw [hafter, Multiset.mem_add] at hmem
    have hmem := hmem.resolve_left (not_mem_of_posted hs.posted hbefore)
    rcases hnew.worker_cases hl ho hmem with
      ⟨-, hnone⟩ | ⟨i', ch', th', st₀, agenda', turn', hruns', hnext⟩
    · cases hw.symm.trans hnone
    · obtain ⟨rfl, rfl⟩ := Move.step.inj (hruns.move.symm.trans hruns'.move)
      obtain rfl := Option.some.inj (hruns.thread.symm.trans hruns'.thread)
      obtain ⟨heq, -⟩ := List.cons.inj (hruns.agenda.symm.trans hruns'.agenda)
      obtain ⟨-, rfl⟩ := Action.worker.inj heq
      obtain rfl := Option.some.inj (hruns.run.symm.trans hruns'.run)
      exact WorkerStep.run_at hw hu hat hrun hnext
  · rcases Diary.mem_after hj with hj | hnote
    · exact h.carries j hj
    · cases st with
      | consult t =>
        obtain ⟨j', hj', heq⟩ := Option.map_eq_some_iff.1 hnote
        obtain rfl := Note.takenUp.inj heq
        exact Broker.carries_of_job hj'
      | _ => cases hnote

/-- Every move keeps the diary and the log of a worker in agreement. -/
theorem move (h : s.Kept w notes passes rest tail) (hs : s.Orderly) (ho : s.Ordered) (m : Move) :
    ∃ passes' rest' tail',
      (s.move m).Kept w (notes ++ (s.note? w m).toList) passes' rest' tail' := by
  by_cases hran : ∃ st, s.ran m = some (.worker w st)
  · obtain ⟨st, hran⟩ := hran
    obtain ⟨passes', tail', h⟩ := h.move_of_ran hs ho hran
    exact ⟨passes', _, tail', h⟩
  · rw [not_exists] at hran
    rw [note_of_ne hran, Option.toList_none, List.append_nil]
    exact ⟨passes, rest, tail, h.move_of_ne hs.lawful ho hran⟩

end Kept

theorem kept_launch {b : Broker} (hb : b.Fresh) (w : WorkerId) :
    (launch b).Kept w [] [] [] [] where
  notes := rfl
  ongoing := .nothing
  log log hlog := by
    rw [launch, hb.workers] at hlog
    cases hlog
  absent _ := ⟨rfl, rfl⟩
  fits hmem := by cases mem_pending_launch hmem
  carries j hj := absurd hj List.not_mem_nil

/-- In every run diaries and logs agree. -/
theorem exists_kept {b : Broker} (hb : b.Fresh) (w : WorkerId) (moves : List Move) :
    ∃ passes rest tail, (moves.foldl move (launch b)).Kept w ((launch b).diary w moves) passes rest
      tail := by
  induction moves using List.reverseRecOn with
  | nil => exact ⟨[], [], [], kept_launch hb w⟩
  | append_singleton ms m ih =>
    obtain ⟨passes, rest, tail, h⟩ := ih
    have hr : Reachable (launch b) (ms.foldl System.move (launch b)) :=
      reachable_iff_foldl.2 ⟨ms, rfl⟩
    rw [diary, gather_concat, List.foldl_append]
    exact h.move (hr.orderly hb) (hr.ordered hb) m

/-- The log of a worker holds the last entries, as many as fit, of those for its diary. The diary is
a row of complete passes, each with its two entries if it was to be logged, and what has been done
with the task that the worker is still at work on. -/
theorem logged_of_run {config : Config} {parts : Broker.Parts} {b : Broker}
    (h : Broker.assemble config parts = .ok b) (moves : List Move) {w : WorkerId} {worker : Worker}
    (hw : (moves.foldl move (launch b)).broker.workers[w]? = some worker) :
    ∃ (passes : List Pass) (rest : List Note) (tail : List LogEntry),
      (launch b).diary w moves = passes.flatMap Pass.notes ++ rest ∧
      Ongoing rest tail ∧
      worker.log = .keeping config.logCapacity.toNat (passes.flatMap Pass.entries ++ tail) := by
  obtain ⟨passes, rest, tail, hkept⟩ := exists_kept (Broker.fresh_assemble h) w moves
  have hconfig : (moves.foldl move (launch b)).broker.config = config := by
    obtain ⟨units, -, rfl⟩ := Broker.exists_of_assemble h
    exact (reachable_iff_foldl.2 ⟨moves, rfl⟩ : Reachable (launch _) _).config
  refine ⟨passes, rest, tail, hkept.notes, hkept.ongoing, ?_⟩
  rw [hkept.log worker.log (congrArg _ hw), hconfig]

end System

/-- The small configuration, with logs of a single entry. -/
def Config.terse : Config := { Config.solo with logCapacity := 1 }

/-- A small broker whose logs have a single entry. -/
def Broker.terse : Broker := (assemble .terse .solo).toOption.getD default

theorem Broker.assemble_terse : assemble .terse .solo = .ok terse := rfl

namespace System

/-- A directive asks to log a compile, and is gone before the compile has ended. -/
def terseDirected : List Move :=
  soloStart ++ [Move.operate (.pushDirectives [.uniform [.any] { log := true }]),
      .call (.request { method := 0, tier := 1, reason := .normal, blocking := true }) 0]
    ++ times 2 21 ++ times 1 11 ++ [Move.operate (.popDirectives 1)]
    ++ [Move.step 1 { move := some (.install 256 128) }, .step 1 {},
      .step 1 { move := some .finish }]
    ++ times 1 12

/-- There the worker has logged begin and end of the compile, and the end is what its log keeps. -/
theorem logged_of_terseDirected :
    ∃ worker, (terseDirected.foldl move (launch .terse)).broker.workers[0]? = some worker ∧
      (∃ (passes : List Pass) (rest : List Note) (tail : List LogEntry),
        (launch .terse).diary 0 terseDirected = passes.flatMap Pass.notes ++ rest ∧
          Ongoing rest tail ∧
            worker.log = CompileLog.keeping Config.terse.logCapacity.toNat
              (passes.flatMap Pass.entries ++ tail)) ∧
      ((launch .terse).diary 0 terseDirected).length = 4 ∧
      worker.log.entries.map (·.event) = [.done] := by
  have hevents : (terseDirected.foldl move (launch .terse)).broker.workers[0]?.map
      (·.log.entries.map (·.event)) = some [.done] := by decide +kernel
  obtain ⟨worker, hw, hlog⟩ := Option.map_eq_some_iff.1 hevents
  exact ⟨worker, hw, logged_of_run Broker.assemble_terse _ hw, by decide +kernel, hlog⟩

end System

end JitBroker
