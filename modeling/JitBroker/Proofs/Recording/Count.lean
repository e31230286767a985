import JitBroker.Proofs.Queue.Passage
import JitBroker.Proofs.Recording.Replay
import JitBroker.Proofs.Request.Refused

/-!
# What a replay counts

A replay asks for code of one record after the other, and counts the requests that are answered with
`queued`. That is what a request answers that has added a task to its queue and does not wait for it.
A request that waits has added a task as well, but answers with what became of the task.

So the summary counts the tasks that were added and that nobody waits for, and not all tasks that were
added:

* what all queues gained is what was added to them, and nothing else is (`System.Lawful.added_move`);
* a step of a request that adds no task neither answers with `queued`, nor gets to the steps that come
  after its task is added, unless it is at these already (`Action.run_stays`);
* along a replay, the requests that were counted are the tasks that were added without anybody waiting
  for them, but for an answer that is not counted yet, and a request that was submitted adds a task at
  most once (`System.Counting`).

The main theorem is `System.counts_of_replay`. It follows that the summary agrees with what the queues
gained if and only if the replay waited for none of its tasks.
-/

namespace JitBroker

/-! ### What the queues gain -/

/-- A queue gains only what is brought to it. -/
theorem Event.added_eq {l l' : Ledger} {d : Option Duty} {new : List Duty}
    {hired : Option WorkerId} (h : Event l d new hired l')
    (hbring : ∀ u m t, d ≠ some (.bring u m t)) :
    l'.stocks.map (·.added) = l.stocks.map (·.added) := by
  cases h with
  | stamp _ | append _ _ _ _ => exact absurd rfl (hbring _ _ _)
  | drain hst _ _ _ _ | fetch _ hst _ _ | clean _ hst _ _ _ =>
    exact Table.map_modify_of_getElem? hst rfl
  | _ =>
    -- What is left changes the locks of queues, tasks or crews.
    first
      | rfl
      | exact Table.map_modify_of_eq (fun _ => by rfl) _ _

namespace System

variable {s : System} {m : Move} {ms : List Move} {i : ThreadId} {ch : Choices} {th : Thread}
  {a : Action} {rest : List Action} {turn : Turn} {q : Inquiry} {t : TaskId}

/-- How many tasks all queues have gained. -/
def added (s : System) : Nat := s.broker.units.total (·.queue.added)

theorem added_eq_total (s : System) : s.added = (s.ledger.stocks.map (·.added)).total id := by
  rw [Table.total_map, ledger, Broker.ledger, Table.total_map]
  rfl

/-- The task that a thread adds to its queue in a move. -/
def placed? (i : ThreadId) (s : System) (m : Move) : Option Task :=
  match s.ranBy i m with
  | some (.request (.append _ t)) => s.broker.tasks[t]?
  | _ => none

/-- The step of a request that another thread takes in a move. -/
def stranger? (i : ThreadId) (s : System) (m : Move) : Option RequestStep :=
  match s.ran m, s.ranBy i m with
  | some (.request st), none => some st
  | _, _ => none

/-- A requester that brings its task to the queue adds it, and then waits for it or not. -/
theorem Runs.append_cases (hs : s.Lawful)
    (h : s.Runs m i ch th (.request (.append q t)) rest turn) :
    ∃ x, s.broker.tasks[t]? = some x ∧ (s.move m).added = s.added + 1 ∧
      (x.blocking = true ∧ turn.next = [.request (.attend q t)] ∧ turn.reply = none ∨
        x.blocking = false ∧ turn.next = [] ∧
          turn.reply = some (.outcome (.queued x.compileId))) := by
  obtain ⟨hu, -, x, hx, -, hslot⟩ := hs.ready _ (mem_duties.2 ⟨_, h.mem_pending, rfl⟩)
  obtain ⟨unit, hunit⟩ := Table.exists_getElem? (t := s.broker.units) (by simpa [ledger] using hu)
  have hx : s.broker.tasks[t]? = some x := hx
  have hgain := Table.total_modify hunit
    (fun x => { x with queue := (unit.queue.push t).2.giveBack }) (·.queue.added)
  have hrun := h.run
  simp only [Action.run, RequestStep.run, hunit, hx, hslot, Option.isSome_none,
    Bool.false_eq_true, if_false] at hrun
  have hadded (hb : turn.broker.units =
      s.broker.units.modify q.unit fun x => { x with queue := (unit.queue.push t).2.giveBack }) :
      (s.move m).added = s.added + 1 := by
    rw [h.turned, added, broker_turned, hb, added]
    have hpush : (unit.queue.push t).2.giveBack.added = unit.queue.added + 1 := rfl
    rw [hpush] at hgain
    omega
  split at hrun
  · obtain rfl := Option.some.inj hrun
    exact ⟨x, hx, hadded rfl, .inl ⟨‹_›, rfl, rfl⟩⟩
  · obtain rfl := Option.some.inj hrun
    exact ⟨x, hx, hadded rfl, .inr ⟨Bool.eq_false_of_not_eq_true ‹_›, rfl, rfl⟩⟩

/-- Setting a claim again adds nothing. -/
theorem Runs.added_stamp (h : s.Runs m i ch th (.request (.stamp q t)) rest turn) :
    (s.move m).ledger.stocks.map (·.added) = s.ledger.stocks.map (·.added) := by
  have hrun := h.run
  rw [h.turned]
  simp only [Action.run, RequestStep.run] at hrun
  split at hrun <;> obtain rfl := Option.some.inj hrun <;> rfl

theorem ran_of_ranBy (h : s.ranBy i m = some a) : s.ran m = some a := by
  cases m with
  | step j ch =>
    rw [ranBy] at h
    split at h
    · exact h
    · cases h
  | call c n => cases h
  | operate o => cases h

theorem placed?_of_ne (hran : ∀ q t, s.ranBy i m ≠ some (.request (.append q t))) :
    s.placed? i m = none := by
  unfold placed?
  split
  · exact absurd ‹_› (hran _ _)
  · rfl

/-- A move that brings no task to its queue adds none. -/
theorem Lawful.added_of_ne (hs : s.Lawful)
    (hran : ∀ q t, s.ran m ≠ some (.request (.append q t))) : (s.move m).added = s.added := by
  rw [added_eq_total, added_eq_total]
  refine congrArg (Table.total · id) ?_
  cases hm : s.ran m with
  | none =>
    cases m with
    | call c n => rfl
    | operate o =>
      rcases s.broker.ledger_operate o with h | h <;>
        exact congrArg (fun l : Ledger => l.stocks.map (·.added)) h
    | step j ch => rw [move_step_of_ran hm]
  | some a =>
    obtain ⟨j, ch, th, rest, turn, h⟩ := exists_runs hm
    -- Setting the claim again is the other action whose duty is to bring a task.
    by_cases hstamp : ∃ q t, a = .request (.stamp q t)
    · obtain ⟨q, t, rfl⟩ := hstamp
      exact h.added_stamp
    · refine (h.shift hs).event.added_eq fun u n t hd => ?_
      obtain ⟨q, rfl | rfl⟩ := Action.eq_of_bring hd
      · exact hstamp ⟨q, t, rfl⟩
      · exact hran q t hm

/-- As long as no other thread is at a request, the queues gain what one thread adds to them. -/
theorem Lawful.added_move (hs : s.Lawful) (halone : s.stranger? i m = none) :
    (s.move m).added = s.added + (s.placed? i m).toList.length := by
  by_cases happend : ∃ q t, s.ran m = some (.request (.append q t))
  · obtain ⟨q, t, hran⟩ := happend
    obtain ⟨j, ch, th, rest, turn, h⟩ := exists_runs hran
    obtain ⟨x, hx, hadded, -⟩ := h.append_cases hs
    have hby : s.ranBy i m = some (.request (.append q t)) := by
      cases hby : s.ranBy i m with
      | none => simp [stranger?, hran, hby] at halone
      | some a => rw [← hran, ran_of_ranBy hby]
    simp [placed?, hby, hx, hadded]
  · rw [hs.added_of_ne fun q t h => happend ⟨q, t, h⟩,
      placed?_of_ne fun q t h => happend ⟨q, t, ran_of_ranBy h⟩]
    rfl

/-- So it is along a run. -/
theorem Lawful.added_foldl (hs : s.Lawful) (halone : s.gather (stranger? i) ms = []) :
    (ms.foldl System.move s).added = s.added + (s.gather (placed? i) ms).length := by
  induction ms generalizing s with
  | nil => rfl
  | cons m ms ih =>
    obtain ⟨hnow, hlater⟩ := List.append_eq_nil_iff.1 halone
    rw [List.foldl_cons, ih (hs.move m) hlater, gather, List.length_append, ← Nat.add_assoc,
      hs.added_move (Option.toList_eq_nil_iff.1 hnow)]

end System

/-! ### Requests that add a task, and that answer with it -/

/-- Whether a request was answered with a task that nobody waits for. -/
def Outcome.isQueued : Outcome → Bool
  | .queued _ => true
  | _ => false

/-- Whether an action of a request comes after the request has added its task. -/
def Action.isServed : Action → Bool
  | .request (.attend _ _) | .request (.asleep _ _ _ _) | .request (.collect _ _)
  | .request (.conclude _ _ _) | .task _ => true
  | _ => false

/-- A turn of a request in which it adds no task: it comes no further than it was, and does not answer
with a task. -/
structure Turn.Stays (turn : Turn) (served : Bool) : Prop where
  /-- What is to be done comes after the task is added, or before. -/
  next : ∀ a ∈ turn.next, a = .fault ∨ a.isServed = served
  /-- The answer, if there is one, is not that a task is queued. -/
  reply : ∀ o, turn.reply = some (.outcome o) → o.isQueued = false

namespace Turn.Stays

variable {b : Broker} {turn : Turn} {served : Bool} {as : List Action} {o : Outcome}

theorem of_go (h : Turn.go b as = some turn) (has : ∀ a ∈ as, a = .fault ∨ a.isServed = served) :
    turn.Stays served := by
  obtain rfl := Option.some.inj h
  exact ⟨has, fun o ho => by cases ho⟩

theorem of_fault (h : Turn.fault b = some turn) : turn.Stays served :=
  of_go h fun _ ha => .inl (List.mem_singleton.1 ha)

theorem of_next {st : RequestStep} (h : RequestStep.next b st = some turn)
    (hst : (Action.request st).isServed = served) : turn.Stays served :=
  of_go h fun _ ha => .inr (List.mem_singleton.1 ha ▸ hst)

theorem of_answer (h : Turn.answer b (.outcome o) = some turn) (ho : o.isQueued = false) :
    turn.Stays served := by
  obtain rfl := Option.some.inj h
  exact ⟨fun _ ha => absurd ha List.not_mem_nil, fun o' ho' => Reply.outcome.inj (Option.some.inj ho') ▸ ho⟩

end Turn.Stays

namespace RequestStep

variable {me : Caller} {ch : Choices} {b : Broker} {turn : Turn} {q : Inquiry} {t : TaskId}

theorem leave_stays {task : Task} {gaveUp : Bool} (h : leave b q t task gaveUp = some turn) :
    turn.Stays true := by
  unfold leave at h
  split at h
  · exact .of_next h rfl
  · exact .of_answer h (by cases gaveUp <;> rfl)

theorem wakeUp_stays {task : Task} {watch : Option Watch}
    (h : wakeUp b ch q t task watch = some turn) : turn.Stays true := by
  unfold wakeUp at h
  repeat' split at h
  all_goals first
    | exact leave_stays h
    | exact .of_next h rfl

theorem isQueued_answer (m : Method) (r : Request) (id : UInt32) (result : TaskResult) :
    (answer m r id result).isQueued = false := by
  unfold answer
  repeat' split
  all_goals rfl

/-- A step of a request stays where it is, unless it adds the task. -/
theorem run_stays {st : RequestStep} (h : st.run me ch b = some turn)
    (hst : ∀ q t, st ≠ .append q t) : turn.Stays (Action.request st).isServed := by
  cases st with
  | append q t => exact absurd rfl (hst q t)
  | conclude q id result =>
    rw [run] at h
    split at h
    · exact .of_fault h
    · exact .of_answer h (isQueued_answer _ _ _ _)
  | enabled q =>
    rw [run] at h
    split at h
    · exact .of_answer h rfl
    · exact .of_go h (by simp [Action.isServed])
  | collect q t =>
    rw [run] at h
    split at h
    · exact .of_fault h
    · exact .of_go h (by simp [Action.isServed])
  | attend q t =>
    rw [run] at h
    split at h
    · dsimp only at h
      split at h
      · exact leave_stays h
      · exact .of_next h rfl
    · exact .of_fault h
  | asleep q t bell watch =>
    rw [run] at h
    repeat' split at h
    · exact .of_fault h
    · exact wakeUp_stays h
    · cases h
  | _ =>
    -- All other steps come before the task is added: they go on with another one, or answer.
    rw [run] at h
    repeat' split at h
    all_goals first
      | exact .of_fault h
      | exact .of_next h rfl
      | exact .of_answer h rfl
      | cases h

end RequestStep

/-- So is it with the other steps of a thread that is at a request. -/
theorem Action.run_stays {me : Caller} {ch : Choices} {b : Broker} {turn : Turn} {r : Request}
    {a : Action} {post : List Action} {st : Standing} (hbefore : r.Before (a :: post) st)
    (h : a.run me ch b = some turn) (ha : ∀ q t, a ≠ .request (.append q t)) :
    turn.Stays a.isServed := by
  cases hbefore with
  | step st hst => exact RequestStep.run_stays h fun q t heq => ha q t (heq ▸ rfl)
  | restart u q hq =>
    rw [run, ControlStep.run] at h
    split at h <;> exact .of_go h (by simp [isServed])
  | room u q hq =>
    rw [run, ControlStep.run] at h
    split at h
    · exact .of_fault h
    · split at h <;> exact .of_go h (by simp [isServed])
  | resume q hq =>
    rw [run, ControlStep.run] at h
    split at h <;> exact .of_go h (by simp [isServed])
  | count q hq => exact .of_go h (by simp)
  | free t q hq id result =>
    rw [run, TaskStep.run] at h
    repeat' split at h
    · exact .of_fault h
    · exact .of_fault h
    · exact .of_go h (by simp)
  | lost post => cases h

/-! ### Along a replay -/

/-- What a replay has counted, of the tasks that it has added: whether a request is under way that may
still add one, and whether the answer is still to be counted that a task is queued. -/
structure Counts (sum : ReplaySummary) (xs : List Task) (asks told : Bool) : Prop where
  /-- Those are counted that nobody waits for. -/
  queued : sum.queued + told.toNat = xs.countP (!·.blocking)
  /-- Each request has added at most one. -/
  submitted : xs.length + asks.toNat ≤ sum.submitted

/-- What a thread that is in a replay has before it and has been answered, when the replay has added
some tasks. -/
inductive Counting (rest : List Action) (xs : List Task) : List Action → Option Reply → Prop where
  /-- The records are to be taken out of the window. -/
  | start {reply : Option Reply} (hxs : xs = []) : Counting rest xs (.control .replay :: rest) reply
  /-- The next record is to be handled, or the answer is to be given. -/
  | again {todo : List Decompilation} {sum : ReplaySummary} {reply : Option Reply}
    (h : Counts sum xs false false) : Counting rest xs (.control (.again todo sum) :: rest) reply
  /-- A request is under way. -/
  | request {todo : List Decompilation} {sum : ReplaySummary} {reply : Option Reply} {r : Request}
    {pre : List Action} {st : Standing} {served : Bool} (hbefore : r.Before pre st)
    (hpre : ∀ a ∈ pre, a = .fault ∨ a.isServed = served) (h : Counts sum xs (!served) false) :
    Counting rest xs (pre ++ .control (.tally todo sum) :: rest) reply
  /-- A request was answered. -/
  | tally {todo : List Decompilation} {sum : ReplaySummary} {o : Outcome}
    (h : Counts sum xs false o.isQueued) :
    Counting rest xs (.control (.tally todo sum) :: rest) (some (.outcome o))
  /-- The thread is lost. -/
  | lost {reply : Option Reply} : Counting rest xs (.fault :: rest) reply

/-- A thread that is over with a replay, and what it was told if the replay took place. -/
structure Returned (rest : List Action) (xs : List Task) (th : Thread) : Prop where
  /-- It goes on with what comes after the replay. -/
  agenda : th.agenda = rest
  /-- The summary counts the tasks that nobody waits for. -/
  counts : ∀ sum, th.reply = some (.replayed sum) → Counts sum xs false false

theorem Counting.length_lt {rest : List Action} {xs : List Task} {as : List Action}
    {reply : Option Reply} (h : Counting rest xs as reply) : rest.length < as.length := by
  cases h <;> simp only [List.length_cons, List.length_append] <;> omega

namespace System

variable {s : System} {m : Move} {ms : List Move} {i : ThreadId} {ch : Choices} {th th' : Thread}
  {a : Action} {rest rest' : List Action} {turn : Turn} {xs : List Task}

/-- A request that adds its task goes on to wait for it, or answers with it. -/
theorem Runs.counting_append {q : Inquiry} {t : TaskId} {r : Request} {todo : List Decompilation}
    {sum : ReplaySummary} (hs : s.Lawful)
    (h : s.Runs m i ch th (.request (.append q t)) (.control (.tally todo sum) :: rest) turn)
    (hq : q.request = r) (hc : Counts sum xs true false) :
    Counting rest (xs ++ (s.placed? i m).toList) (th.after turn).agenda (th.after turn).reply := by
  obtain ⟨x, hx, -, hcases⟩ := h.append_cases hs
  obtain ⟨hqueued, hsubmitted⟩ := hc
  have hplaced : (s.placed? i m).toList = [x] := by simp [placed?, h.ranBy_self, hx]
  rw [hplaced, Thread.agenda_after h.agenda]
  have hlength : (xs ++ [x]).length + false.toNat ≤ sum.submitted := by
    simpa using hsubmitted
  obtain ⟨hblocking, hnext, -⟩ | ⟨hblocking, hnext, hreply⟩ := hcases
  · -- It waits: the task is added, and will not be counted.
    rw [hnext]
    have hcount : (xs ++ [x]).countP (!·.blocking) = xs.countP (!·.blocking) := by simp [hblocking]
    have hpre : ∀ a ∈ [Action.request (.attend q t)], a = .fault ∨ a.isServed = true :=
      fun a ha => .inr (List.mem_singleton.1 ha ▸ rfl)
    exact .request (.step (.attend q t) hq) hpre ⟨hcount ▸ hqueued, hlength⟩
  · -- It answers with the task, which is still to be counted.
    rw [hnext, Thread.after, hreply]
    have hcount : (xs ++ [x]).countP (!·.blocking) = xs.countP (!·.blocking) + 1 := by
      simp [hblocking]
    exact .tally ⟨by rw [hcount, ← hqueued]; rfl, hlength⟩

/-- Any other step of a request leaves what was counted, and what is to be. -/
theorem Runs.counting_request {r : Request} {post : List Action} {st : Standing} {served : Bool}
    {todo : List Decompilation} {sum : ReplaySummary}
    (h : s.Runs m i ch th a (post ++ .control (.tally todo sum) :: rest) turn)
    (ha : ∀ q t, a ≠ .request (.append q t)) (hbefore : r.Before (a :: post) st)
    (hpre : ∀ a' ∈ a :: post, a' = .fault ∨ a'.isServed = served)
    (hc : Counts sum xs (!served) false) :
    Counting rest (xs ++ (s.placed? i m).toList) (th.after turn).agenda (th.after turn).reply := by
  have hplaced : s.placed? i m = none :=
    placed?_of_ne fun q t hran => ha q t (Option.some.inj (h.ranBy_self.symm.trans hran))
  have hserved : a.isServed = served := (hpre a List.mem_cons_self).resolve_left fun hfault => by
    have hrun := h.run
    rw [hfault] at hrun
    cases hrun
  obtain ⟨hstays, hanswers⟩ := hserved ▸ Action.run_stays hbefore h.run ha
  rw [hplaced, Option.toList_none, List.append_nil, Thread.agenda_after h.agenda,
    ← List.append_assoc]
  have hover {o : Outcome} (hnext : turn.next ++ post = [])
      (hreply : turn.reply = some (.outcome o)) :
      Counting rest xs ((turn.next ++ post) ++ .control (.tally todo sum) :: rest)
        (th.after turn).reply := by
    rw [hnext, Thread.after, hreply]
    obtain ⟨hqueued, hsubmitted⟩ := hc
    refine .tally ⟨hanswers o hreply ▸ hqueued, ?_⟩
    exact (Nat.add_le_add_left (Nat.zero_le _) _).trans hsubmitted
  cases Action.run_leads hbefore h.run with
  | on hbefore' _ =>
    refine .request hbefore' (fun a' ha' => ?_) hc
    rcases List.mem_append.1 ha' with ha' | ha'
    · exact hstays a' ha'
    · exact hpre a' (List.mem_cons_of_mem _ ha')
  | answered hnext hreply _ => exact hover hnext hreply
  | served hnext hreply _ => exact hover hnext hreply

/-- The records are taken out of the window, if there is one. -/
theorem Runs.counting_start (h : s.Runs m i ch th (.control .replay) rest turn) :
    Counting rest [] (th.after turn).agenda (th.after turn).reply ∨
      Returned rest [] (th.after turn) := by
  have hagenda : (th.after turn).agenda = turn.next ++ rest := Thread.agenda_after h.agenda
  have hrun := h.run
  rw [Action.run, ControlStep.run] at hrun
  repeat' split at hrun
  · obtain rfl := Option.some.inj hrun
    exact .inr ⟨hagenda, fun sum hsum => by cases hsum⟩
  · obtain rfl := Option.some.inj hrun
    exact .inr ⟨hagenda, fun sum hsum => by cases hsum⟩
  · obtain rfl := Option.some.inj hrun
    rw [hagenda]
    exact .inl (.again ⟨rfl, Nat.le_refl _⟩)

/-- The next record is left out or requested, or all records are handled. -/
theorem Runs.counting_again {todo : List Decompilation} {sum : ReplaySummary}
    (h : s.Runs m i ch th (.control (.again todo sum)) rest turn) (hc : Counts sum xs false false) :
    Counting rest xs (th.after turn).agenda (th.after turn).reply ∨
      Returned rest xs (th.after turn) := by
  have hagenda : (th.after turn).agenda = turn.next ++ rest := Thread.agenda_after h.agenda
  have hrun := h.run
  cases todo with
  | nil =>
    obtain rfl := Option.some.inj hrun
    refine .inr ⟨hagenda, fun sum' hsum => ?_⟩
    obtain rfl := Reply.replayed.inj (Option.some.inj hsum)
    exact hc
  | cons d todo =>
    left
    rw [hagenda]
    rw [Action.run, ControlStep.run] at hrun
    repeat' split at hrun
    · obtain rfl := Option.some.inj hrun
      exact .lost
    · obtain rfl := Option.some.inj hrun
      exact .again ⟨hc.queued, hc.submitted⟩
    · obtain rfl := Option.some.inj hrun
      have hpre : ∀ a ∈ [Action.request (.enter d.request)], a = .fault ∨ a.isServed = false :=
        fun a ha => .inr (List.mem_singleton.1 ha ▸ rfl)
      exact .request (.step (.enter d.request) rfl) hpre
        ⟨hc.queued, Nat.succ_le_succ hc.submitted⟩

/-- An answer is counted if it is that a task is queued. -/
theorem Runs.counting_tally {todo : List Decompilation} {sum : ReplaySummary} {o : Outcome}
    (h : s.Runs m i ch th (.control (.tally todo sum)) rest turn)
    (hreply : th.reply = some (.outcome o)) (hc : Counts sum xs false o.isQueued) :
    Counting rest xs (th.after turn).agenda (th.after turn).reply := by
  have hrun := h.run
  rw [Action.run, ControlStep.run, show (th.caller i).reply = _ from hreply] at hrun
  rw [Thread.agenda_after h.agenda]
  cases o with
  | queued id =>
    obtain rfl := Option.some.inj hrun
    exact .again ⟨hc.queued, hc.submitted⟩
  | _ =>
    obtain rfl := Option.some.inj hrun
    exact .again ⟨hc.queued, hc.submitted⟩

/-- A step of a thread that is in a replay leaves it there, or is its answer. -/
theorem Runs.counting (hs : s.Lawful) (h : s.Runs m i ch th a rest' turn)
    (hc : Counting rest xs th.agenda th.reply) :
    Counting rest (xs ++ (s.placed? i m).toList) (th.after turn).agenda (th.after turn).reply ∨
      Returned rest (xs ++ (s.placed? i m).toList) (th.after turn) := by
  have hplaced (hcontrol : ∀ q t, a ≠ .request (.append q t)) :
      xs ++ (s.placed? i m).toList = xs := by
    rw [placed?_of_ne fun q t hran => hcontrol q t (Option.some.inj (h.ranBy_self.symm.trans hran))]
    exact List.append_nil xs
  generalize hagenda : th.agenda = as at hc
  generalize hreply : th.reply = reply at hc
  rw [h.agenda] at hagenda
  cases hc with
  | start hxs =>
    obtain ⟨rfl, rfl⟩ := List.cons.inj hagenda
    rw [hplaced (by simp), hxs]
    exact h.counting_start
  | again hc =>
    obtain ⟨rfl, rfl⟩ := List.cons.inj hagenda
    rw [hplaced (by simp)]
    exact h.counting_again hc
  | tally hc =>
    obtain ⟨rfl, rfl⟩ := List.cons.inj hagenda
    rw [hplaced (by simp)]
    exact .inl (h.counting_tally hreply hc)
  | lost =>
    obtain ⟨rfl, rfl⟩ := List.cons.inj hagenda
    cases h.run
  | request hbefore hpre hc =>
    left
    obtain ⟨a', post, rfl⟩ := hbefore.exists_cons
    obtain ⟨rfl, rfl⟩ := List.cons.inj hagenda
    by_cases happend : ∃ q t, a = .request (.append q t)
    · -- A request that adds its task has not done so before.
      obtain ⟨q, t, rfl⟩ := happend
      have hserved := (hpre _ List.mem_cons_self).resolve_left (by simp)
      subst hserved
      cases hbefore with
      | step st hst => exact h.counting_append hs hst hc
    · exact h.counting_request (fun q t heq => happend ⟨q, t, heq⟩) hbefore hpre hc

/-- So a thread that was in a replay, and has come to the end of it, has counted what it added. -/
theorem returned_of_busy (hs : s.Lawful) (hth : s.threads[i]? = some th)
    (hc : Counting rest xs th.agenda th.reply) (hbusy : s.busy i rest.length ms = true)
    (hend : (ms.foldl move s).threads[i]? = some th') (hrest : th'.agenda = rest) :
    Returned rest (xs ++ s.gather (placed? i) ms) th' := by
  induction ms generalizing s th xs with
  | nil =>
    obtain rfl := Option.some.inj (hth.symm.trans hend)
    exact absurd hc.length_lt (by rw [hrest]; exact Nat.lt_irrefl _)
  | cons m ms ih =>
    have hbusy' : (s.move m).busy i rest.length ms = true := (Bool.and_eq_true_iff.1 hbusy).2
    rw [gather, ← List.append_assoc]
    cases hran : s.ranBy i m with
    | none =>
      rw [placed?_of_ne (by simp [hran]), Option.toList_none, List.append_nil]
      exact ih (hs.move m) (thread_of_ranBy hth hran) hc hbusy' hend
    | some a =>
      obtain ⟨ch, rest', turn, h⟩ := exists_runs_of_ranBy hran hth
      have hafter := h.thread_after
      rcases h.counting hs hc with hc' | hreturned
      · exact ih (hs.move m) hafter hc' hbusy' hend
      · obtain rfl := eq_nil_of_busy hafter hreturned.agenda hbusy'
        obtain rfl := Option.some.inj (hafter.symm.trans hend)
        rwa [gather, List.append_nil]

/-- What the summary of a replay says of the tasks that the replay added, when the queues gained those
and no others. -/
structure Replayed (s s' : System) (xs : List Task) (sum : ReplaySummary) : Prop where
  /-- The queues gained what was added. -/
  gained : s'.added = s.added + xs.length
  /-- The tasks are counted that nobody waits for. -/
  queued : sum.queued = xs.countP (!·.blocking)
  /-- These are no more than were added. -/
  queued_le : sum.queued ≤ xs.length
  /-- No more were added than requests were made. -/
  length_le : xs.length ≤ sum.submitted
  /-- All that were added are counted if and only if the replay waited for none of them. -/
  all_iff : s'.added = s.added + sum.queued ↔ ∀ x ∈ xs, x.blocking = false

theorem replayed_of_counts {s' : System} {sum : ReplaySummary} (h : Counts sum xs false false)
    (hgained : s'.added = s.added + xs.length) : Replayed s s' xs sum := by
  have hqueued : sum.queued = xs.countP (!·.blocking) := h.queued
  have hle : xs.countP (!·.blocking) ≤ xs.length := List.countP_le_length
  have hall : xs.countP (!·.blocking) = xs.length ↔ ∀ x ∈ xs, x.blocking = false := by
    simp [List.countP_eq_length]
  refine ⟨hgained, hqueued, hqueued ▸ hle, h.submitted, ?_⟩
  rw [hgained, hqueued, ← hall]
  omega

/-- Whatever was done before, and whatever the configuration and the directives are: if no other thread
is at a request from when a thread begins a replay until it is told the summary, then the summary counts
those of the tasks added to the queues that nobody waits for. -/
theorem counts_of_replay {b : Broker} {config : Config} {parts : Broker.Parts}
    (hb : Broker.assemble config parts = .ok b) (hs : Reachable (launch b) s)
    (hth : s.threads[i]? = some th) (ha : th.agenda = .control .replay :: rest)
    (halone : s.gather (stranger? i) ms = []) (hbusy : s.busy i rest.length ms = true)
    (hend : (ms.foldl move s).threads[i]? = some th') (hrest : th'.agenda = rest)
    {sum : ReplaySummary} (hreply : th'.reply = some (.replayed sum)) :
    Replayed s (ms.foldl move s) (s.gather (placed? i) ms) sum := by
  have hlawful := hs.lawful (Broker.fresh_assemble hb)
  have hstart : Counting rest [] th.agenda th.reply := ha ▸ .start rfl
  have hreturned := returned_of_busy hlawful hth hstart hbusy hend hrest
  exact replayed_of_counts (hreturned.counts sum hreply) (hlawful.added_foldl halone)

end System

/-- A small configuration under which requests wait, unless a directive says otherwise. -/
def Config.waiting : Config := { Config.solo with backgroundDefault := false }

namespace Broker

/-- A small broker with a recorder whose requests wait. -/
def waiting : Broker := (assemble .waiting .taped).toOption.getD default

theorem assemble_waiting : assemble .waiting .taped = .ok waiting := rfl

end Broker

namespace System

/-- A decompilation is recorded. -/
def taken : List Move :=
  soloStart ++ ([.operate .startRecording, .operate (.record ⟨0, -1, 1⟩)] : List Move)

/-- A thread is to replay it. -/
def recalling : List Move := taken ++ ([.call .replay 0] : List Move)

/-- The thread adds a task and waits until the worker has done it. -/
def recalled : List Move :=
  times 2 23 ++ times 1 11 ++ ([.step 1 { move := some .finish }] : List Move) ++ times 1 10
    ++ times 2 6

/-- One request was made, and the queue has gained its task, but the summary counts no request that was
queued, for the replay waited for it. -/
theorem counts_of_recalled :
    Replayed (recalling.foldl move (launch .waiting))
        (recalled.foldl move (recalling.foldl move (launch .waiting)))
        ((recalling.foldl move (launch .waiting)).gather (placed? 2) recalled) ⟨1, 0, 0⟩ ∧
      (recalling.foldl move (launch .waiting)).added = 0 ∧
      (recalled.foldl move (recalling.foldl move (launch .waiting))).added = 1 := by
  have hsize : (taken.foldl move (launch .waiting)).threads.size = 2 := by decide +kernel
  have hthread : (recalling.foldl move (launch .waiting)).threads[2]? =
      some { agenda := [.control .replay] } := by
    rw [recalling, List.foldl_append]
    exact hsize ▸ Table.getElem?_add_self _ _
  have hend : (recalled.foldl move (recalling.foldl move (launch .waiting))).threads[2]?.map
      (fun th => (th.agenda.isEmpty, th.reply)) = some (true, some (.replayed ⟨1, 0, 0⟩)) := by
    decide +kernel
  obtain ⟨th', hth', hafter⟩ := Option.map_eq_some_iff.1 hend
  obtain ⟨hempty, hreply⟩ := Prod.mk.inj hafter
  exact ⟨counts_of_replay Broker.assemble_waiting (reachable_iff_foldl.2 ⟨recalling, rfl⟩) hthread rfl
    (by decide +kernel) (by decide +kernel) hth' (List.isEmpty_iff.1 hempty) hreply,
    by decide +kernel, by decide +kernel⟩

end System

end JitBroker
