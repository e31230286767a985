import JitBroker.Proofs.Ledger.Basic

/-!
# Duties

What a pending action is for is its *duty*: to ask for a compile, to bring a task to its queue, to
complete it, to wait for it, to free it, to be a worker in some phase of its round. Together with
the ledger, the duties that are pending say how far each task and each request has come. Many
actions have no duty, since nothing depends on when they run.

* `Action.duty?`: the duty of an action, if it has one;
* `Duty.Ready`: what must hold for the step of a duty to find everything it looks for.
-/

namespace JitBroker

/-! ### Duties -/

/-- Where a worker is in its round. -/
inductive Phase where
  /-- It has no task and no lock. -/
  | idle
  /-- It has the lock of its queue, and has not yet seen whether to leave. -/
  | search
  /-- It has the lock of its queue, and is to choose a task. -/
  | pick
  /-- It has a task that it does not show yet. -/
  | hold (t : TaskId)
  /-- It shows its task, and has not called the back-end. -/
  | shown (t : TaskId)
  /-- It is inside the back-end. -/
  | inside (t : TaskId)
  /-- The back-end has returned, or was not called; it still shows its task. -/
  | after (t : TaskId)
  /-- It shows its task no more, and is to give the claim back. -/
  | closing (t : TaskId)
  /-- It has given the claim back, and is to write the result. -/
  | closed (t : TaskId)
  /-- It has left its crew, or is to leave for good. -/
  | away
  deriving DecidableEq

/-- The task that a worker in this phase has. -/
def Phase.task? : Phase → Option TaskId
  | .hold t | .shown t | .inside t | .after t | .closing t | .closed t => some t
  | .idle | .search | .pick | .away => none

/-- How far a request that has the lock of its queue has come. -/
inductive Stage where
  /-- It is to see whether compilation is disabled. -/
  | entered
  /-- Compilation was not disabled, and it is to claim its method. -/
  | passed
  /-- It has claimed its method. -/
  | claimed
  deriving DecidableEq

/-- What a pending action is for. -/
inductive Duty where
  /-- To ask for a compile in a unit, of a method that may not be known yet. -/
  | outside (u : UnitId) (m : Option MethodId)
  /-- To go on under the lock of a queue. -/
  | desk (u : UnitId) (m : MethodId) (stage : Stage)
  /-- To bring a task to its queue, under the lock. -/
  | bring (u : UnitId) (m : MethodId) (t : TaskId)
  /-- To begin to wait for a task. -/
  | attend (u : UnitId) (t : TaskId)
  /-- To wait for a task, until the bell has another count. -/
  | sleep (t : TaskId) (bell : Nat)
  /-- To free a task. -/
  | free (t : TaskId)
  /-- To give back the claim of a task that will not run. -/
  | unmark (t : TaskId)
  /-- To write the reason of a task that will not run. -/
  | spoil (t : TaskId)
  /-- To complete a task that will not run. -/
  | scrap (t : TaskId)
  /-- To complete a task that was worked on. -/
  | finish (t : TaskId)
  /-- To wake the requester of a task. -/
  | wake (t : TaskId)
  /-- To take every task off a queue. -/
  | drain (u : UnitId)
  /-- To list the workers whose requesters must be woken. -/
  | rouse
  /-- To look which task a worker shows. -/
  | nudge (w : WorkerId)
  /-- To be a worker. -/
  | post (w : WorkerId) (p : Phase)
  deriving DecidableEq

/-- The duty of a step of a request. -/
def RequestStep.duty? : RequestStep → Option Duty
  | .enter _ | .backend _ | .conclude _ _ _ => none
  | .enabled q | .accepted q | .eligible q => some (.outside q.unit none)
  | .existing q | .policy q | .allowed q | .native q | .link q | .mode q | .lock q =>
    some (.outside q.unit (some q.request.method))
  | .stillEnabled q => some (.desk q.unit q.request.method .entered)
  | .stillMissing q | .stillAllowed q | .claim q => some (.desk q.unit q.request.method .passed)
  | .number q | .exclude q _ | .unclaim q _ | .allocate q _ =>
    some (.desk q.unit q.request.method .claimed)
  | .stamp q t | .append q t => some (.bring q.unit q.request.method t)
  | .attend q t => some (.attend q.unit t)
  | .asleep _ t bell _ => some (.sleep t bell)
  | .collect _ t => some (.free t)

/-- The duty of a step that ends a task. -/
def TaskStep.duty? : TaskStep → Option Duty
  | .unmark t => some (.unmark t)
  | .spoil t => some (.spoil t)
  | .count => none
  | .complete t .stale => some (.scrap t)
  | .complete t _ => some (.finish t)
  | .free t _ => some (.free t)
  | .wake t => some (.wake t)

/-- The duty of a step of control. -/
def ControlStep.duty? : ControlStep → Option Duty
  | .drain u => some (.drain u)
  | .rouse => some .rouse
  | .nudge w => some (.nudge w)
  | _ => none

/-- The phase of a worker that is at a step. -/
def WorkerStep.phase : WorkerStep → Phase
  | .start | .starting | .round | .fetch | .rest | .look | .asleep _ _ | .retire | .settle => .idle
  | .staying | .lookStaying | .lookEmpty | .overdue => .search
  | .choose => .pick
  | .leave t | .adopt t | .take t => .hold t
  | .consult t => .shown t
  | .begin c | .examine c | .clear c | .giveUp c => .shown c.task
  | .compile c | .attach c _ => .inside c.task
  | .judge c => .after c.task
  | .rule f | .count f | .announce f | .close f | .drop f => .after f.task
  | .unmark f => .closing f.task
  | .publish f => .closed f.task
  | .retired | .quit => .away

/-- The duty of an action, if it has one. -/
def Action.duty? : Action → Option Duty
  | .request s => s.duty?
  | .task s => s.duty?
  | .control s => s.duty?
  | .worker w s => some (.post w s.phase)
  | .gate _ | .crew _ | .answer _ | .fault => none

/-- The duties of a list of actions. -/
def duties (as : List Action) : List Duty := as.filterMap Action.duty?

@[simp] theorem duties_append (as bs : List Action) : duties (as ++ bs) = duties as ++ duties bs :=
  List.filterMap_append

theorem duties_cons (a : Action) (as : List Action) :
    duties (a :: as) = a.duty?.toList ++ duties as := by
  rw [duties, duties, List.filterMap_cons]
  cases a.duty? <;> rfl

theorem mem_duties {as : List Action} {d : Duty} : d ∈ duties as ↔ ∃ a ∈ as, a.duty? = some d :=
  List.mem_filterMap

theorem duties_eq_nil {as : List Action} (h : ∀ a ∈ as, a.duty? = none) : duties as = [] :=
  List.filterMap_eq_nil_iff.2 h

/-- The duties of ending a task that will not run. -/
def Duty.discard (t : TaskId) : List Duty := [.unmark t, .spoil t, .scrap t]

theorem Duty.mem_discard {d : Duty} {ts : List TaskId} :
    d ∈ ts.flatMap discard ↔ ∃ t ∈ ts, d = .unmark t ∨ d = .spoil t ∨ d = .scrap t := by
  simp [discard]

@[simp] theorem duties_stale (ts : List TaskId) :
    duties (ts.flatMap Action.stale) = ts.flatMap Duty.discard := by
  induction ts with
  | nil => rfl
  | cons t ts ih =>
    rw [List.flatMap_cons, List.flatMap_cons, duties_append, ih]
    rfl

@[simp] theorem duties_call (c : Call) : duties c.agenda = [] := by
  cases c <;> rfl

/-! ### Readiness -/

/-- The lists of the queues are sound, and records only name what exists. -/
structure Ledger.Sound (l : Ledger) : Prop where
  /-- The lists are sound. -/
  list : ∀ {u : Nat} {st : Stock}, l.stocks[u]? = some st → st.list.Sound
  /-- The tasks in them exist. -/
  queued : ∀ {u : Nat} {st : Stock}, l.stocks[u]? = some st → ∀ t ∈ st.list.toList, t < l.tasks.size
  /-- The methods of tasks exist. -/
  method : ∀ {t : Nat} {x : Task}, l.tasks[t]? = some x → x.method < l.claims.size
  /-- The units of workers exist. -/
  unit : ∀ {w : Nat} {p : Post}, l.posts[w]? = some p → p.unit < l.stocks.size
  /-- Each unit has a crew. -/
  crews : l.crews.size = l.stocks.size
  /-- The workers in crews exist. -/
  worker : ∀ {u : Nat} {ws : List WorkerId}, l.crews[u]? = some ws → ∀ w ∈ ws, w < l.posts.size

/-- The method of a task is known. -/
theorem Ledger.Sound.exists_method {b : Broker} (h : b.ledger.Sound) {t : TaskId} {x : Task}
    (hx : b.tasks[t]? = some x) : ∃ m, b.methods[x.method]? = some m :=
  Table.exists_getElem? (b.size_claims ▸ h.method hx)

/-- The step of a duty finds what it looks for. -/
def Duty.Ready (l : Ledger) : Duty → Prop
  | .outside u m => u < l.stocks.size ∧ ∀ m' ∈ m, m' < l.claims.size
  | .desk u m _ => u < l.stocks.size ∧ m < l.claims.size
  | .bring u m t => u < l.stocks.size ∧ m < l.claims.size ∧
      ∃ x, l.tasks[t]? = some x ∧ x.method = m ∧ x.slot = none
  | .attend u t => u < l.stocks.size ∧ t < l.tasks.size
  | .sleep t _ | .unmark t => t < l.tasks.size
  | .free t => ∃ x, l.tasks[t]? = some x ∧ x.complete = true ∧ x.freed = false
  | .scrap t | .finish t => ∃ x, l.tasks[t]? = some x ∧ x.complete = false
  | .drain u => u < l.stocks.size
  | .spoil _ | .wake _ | .rouse => True
  | .nudge w => w < l.posts.size
  | .post w p => w < l.posts.size ∧ ∀ t ∈ p.task?, t < l.tasks.size

end JitBroker
