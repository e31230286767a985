import JitBroker.Proofs.Ledger.Duty
import JitBroker.Proofs.Ledger.Withdrawal

/-!
# Events

What a step does is an *event*: it takes the ledger to another one, and puts the duties that it
brings in the place of its own. The events are listed once, in `Event`; what is true of all runs
then only has to be shown for each of them.

An event says nothing about why it happens. A request may be turned away for a dozen reasons, and a
worker may leave the lock of its queue in several places; for the ledger this is one event each.
-/

namespace JitBroker

/-- The events: the ledger before, the duty of the step, the duties in its place, the worker that is
hired, and the ledger after. -/
inductive Event (l : Ledger) : Option Duty → List Duty → Option WorkerId → Ledger → Prop where
  /-- Nothing that matters happens. -/
  | plain (d : Option Duty) : Event l d d.toList none l
  /-- A method becomes known. -/
  | know (d : Option Duty) : Event l d d.toList none { l with claims := l.claims.add false }
  /-- A request finds its unit. -/
  | arrive {u : UnitId} (hu : u < l.stocks.size) : Event l none [.outside u none] none l
  /-- A request finds its method. -/
  | name {u : UnitId} {m : MethodId} (hm : m < l.claims.size) :
    Event l (some (.outside u none)) [.outside u (some m)] none l
  /-- A request is turned away, or answered. -/
  | turnAway {u : UnitId} {m : Option MethodId} : Event l (some (.outside u m)) [] none l
  /-- A request takes the lock of its queue. -/
  | enter {u : UnitId} {m : MethodId} {st : Stock} (hst : l.stocks[u]? = some st)
    (hfree : st.locked = false) :
    Event l (some (.outside u (some m))) [.desk u m .entered] none (l.lock u true)
  /-- A request finds that compilation is not disabled. -/
  | pass {u : UnitId} {m : MethodId} (h : l.disabled = false) :
    Event l (some (.desk u m .entered)) [.desk u m .passed] none l
  /-- A request is turned away, or answered, and gives the lock back. -/
  | refuse {u : UnitId} {m : MethodId} {stage : Stage} (h : stage ≠ .claimed) :
    Event l (some (.desk u m stage)) [] none (l.lock u false)
  /-- A request claims its method. -/
  | claim {u : UnitId} {m : MethodId} (h : l.claims[m]? = some false) :
    Event l (some (.desk u m .passed)) [.desk u m .claimed] none (l.claim m true)
  /-- A request gives claim and lock back. -/
  | unclaim {u : UnitId} {m : MethodId} :
    Event l (some (.desk u m .claimed)) [] none ((l.lock u false).claim m false)
  /-- A request gets a task. -/
  | allocate {u : UnitId} {pool : TaskPool} (h : l.pool.allocate? = some pool) (r : Request)
    (id : UInt32) (blocking : Bool) (now : Nat) :
    Event l (some (.desk u r.method .claimed)) [.bring u r.method l.tasks.size] none
      { l with pool := pool, tasks := l.tasks.add (.ofRequest r id blocking now) }
  /-- A request sets its claim again. -/
  | stamp {u : UnitId} {m : MethodId} {t : TaskId} (depth : Option Nat) :
    Event l (some (.bring u m t)) [.bring u m t] none
      ((l.modifyTask t fun x => { x with queueDepth := depth }).claim m true)
  /-- A request brings its task to the queue, and gives the lock back. -/
  | append {u : UnitId} {m : MethodId} {t : TaskId} {x : Task} {st : Stock} {list : TaskList}
    (hx : l.tasks[t]? = some x) (hst : l.stocks[u]? = some st) (hlist : st.list.Gains t list)
    (slot : Nat) :
    Event l (some (.bring u m t)) (if x.blocking then [.attend u t] else []) none
      ((l.setStock u ⟨list, st.added + 1, false⟩).modifyTask t fun x => { x with slot := some slot })
  /-- A requester goes to sleep. -/
  | fallAsleep {u : UnitId} {t : TaskId} {x : Task} (hx : l.tasks[t]? = some x)
    (hopen : x.complete = false) (hd : l.disabled = false) :
    Event l (some (.attend u t)) [.sleep t x.bell] none
      (l.modifyTask t fun x => { x with waiters := x.waiters + 1 })
  /-- A requester finds its task complete before it sleeps. -/
  | findComplete {u : UnitId} {t : TaskId} {x : Task} (hx : l.tasks[t]? = some x)
    (hcomplete : x.complete = true) : Event l (some (.attend u t)) [.free t] none l
  /-- A requester finds compilation disabled before it sleeps. -/
  | findDisabled {u : UnitId} {t : TaskId} {x : Task} (hx : l.tasks[t]? = some x)
    (hopen : x.complete = false) :
    Event l (some (.attend u t)) [] none (l.modifyTask t fun x => { x with awaited := false })
  /-- A requester wakes up and sleeps on. -/
  | sleepOn {t : TaskId} {bell : Nat} {x : Task} (hx : l.tasks[t]? = some x)
    (hopen : x.complete = false) (hd : l.disabled = false) :
    Event l (some (.sleep t bell)) [.sleep t x.bell] none l
  /-- A requester wakes up to a task that is complete. -/
  | wakeComplete {t : TaskId} {bell : Nat} {x : Task} (hx : l.tasks[t]? = some x)
    (hcomplete : x.complete = true) :
    Event l (some (.sleep t bell)) [.free t] none
      (l.modifyTask t fun x => { x with waiters := x.waiters - 1 })
  /-- A requester wakes up and leaves without a result. -/
  | leave {t : TaskId} {bell : Nat} {x : Task} (hx : l.tasks[t]? = some x)
    (hopen : x.complete = false) :
    Event l (some (.sleep t bell)) [] none
      (l.modifyTask t fun x => { x with waiters := x.waiters - 1, awaited := false })
  /-- A task is freed. -/
  | free {t : TaskId} (who : FreedBy) :
    Event l (some (.free t)) [] none
      { l.modifyTask t fun x => { x with freed := true } with pool := l.pool.free who }
  /-- The claim of a task that will not run is given back. -/
  | unmark {t : TaskId} {x : Task} (hx : l.tasks[t]? = some x) :
    Event l (some (.unmark t)) [] none (l.claim x.method false)
  /-- The reason of a task that will not run is written. -/
  | spoil {t : TaskId} : Event l (some (.spoil t)) [] none (l.modifyTask t (·.fail .stale))
  /-- A task is completed, and its requester woken. -/
  | ring {t : TaskId} {x : Task} {d : Duty} (hd : d = .scrap t ∨ d = .finish t)
    (hx : l.tasks[t]? = some x) (hawaited : (x.blocking && x.awaited) = true) :
    Event l (some d) [] none (l.modifyTask t fun x => { x with complete := true }.ring)
  /-- A task is completed that nobody waits for. -/
  | close {t : TaskId} {x : Task} {d : Duty} (hd : d = .scrap t ∨ d = .finish t)
    (hx : l.tasks[t]? = some x) (hawaited : (x.blocking && x.awaited) = false) :
    Event l (some d) [.free t] none (l.modifyTask t fun x => { x with complete := true })
  /-- The requester of a task is woken. -/
  | wake {t : TaskId} : Event l (some (.wake t)) [] none (l.modifyTask t Task.ring)
  /-- Compilation is disabled. -/
  | disable (h : l.disabled = false) :
    Event l none ((List.range l.stocks.size).map .drain ++ [.rouse]) none
      { l with disabled := true }
  /-- Every task is taken off a queue. -/
  | drain {u : UnitId} {st : Stock} {ts : List TaskId} {list : TaskList} {tasks : Table Task}
    (hst : l.stocks[u]? = some st) (hfree : st.locked = false) (hlist : st.list.Sheds ts list)
    (hempty : list.toList = []) (htasks : Withdrawn l.tasks ts [] tasks) :
    Event l (some (.drain u)) (ts.flatMap Duty.discard) none
      { l.setStock u { st with list := list } with tasks := tasks }
  /-- The workers are listed whose requesters must be woken. -/
  | rouse : Event l (some .rouse) (l.crews.toList.flatten.map .nudge) none l
  /-- It is seen which task a worker shows. -/
  | nudge {w : WorkerId} {p : Post} (hp : l.posts[w]? = some p) :
    Event l (some (.nudge w)) (p.current.toList.map .wake) none l
  /-- A worker takes the lock of its queue. -/
  | lookIn {w : WorkerId} {p : Post} {st : Stock} (hp : l.posts[w]? = some p)
    (hst : l.stocks[p.unit]? = some st) (hfree : st.locked = false) :
    Event l (some (.post w .idle)) [.post w .search] none (l.lock p.unit true)
  /-- A worker gives the lock of its queue back without a task. -/
  | lookOut {w : WorkerId} {p : Post} {a a' : Phase} (hp : l.posts[w]? = some p)
    (ha : a = .search ∨ a = .pick) (ha' : a' = .idle ∨ a' = .away) :
    Event l (some (.post w a)) [.post w a'] none (l.lock p.unit false)
  /-- A worker finds that it is not to leave. -/
  | stay {w : WorkerId} (h : l.disabled = false) :
    Event l (some (.post w .search)) [.post w .pick] none l
  /-- A worker takes a task off its queue, and some stale ones, and gives the lock back. -/
  | fetch {w : WorkerId} {p : Post} {st : Stock} {ts : List TaskId} {t : TaskId} {list : TaskList}
    {tasks : Table Task} (hp : l.posts[w]? = some p) (hst : l.stocks[p.unit]? = some st)
    (hlist : st.list.Sheds (ts ++ [t]) list) (htasks : Withdrawn l.tasks ts [t] tasks) :
    Event l (some (.post w .pick)) (ts.flatMap Duty.discard ++ [.post w (.hold t)]) none
      { l.setStock p.unit ⟨list, st.added, false⟩ with tasks := tasks }
  /-- A worker takes stale tasks off its queue, and gives the lock back unless there were none. -/
  | clean {w : WorkerId} {p : Post} {st : Stock} {ts : List TaskId} {list : TaskList}
    {tasks : Table Task} {a : Phase} {locked : Bool} (hp : l.posts[w]? = some p)
    (hst : l.stocks[p.unit]? = some st) (hlist : st.list.Sheds ts list)
    (htasks : Withdrawn l.tasks ts [] tasks)
    (ha : a = .idle ∧ locked = false ∨ a = .search ∧ locked = st.locked) :
    Event l (some (.post w .pick)) (ts.flatMap Duty.discard ++ [.post w a]) none
      { l.setStock p.unit ⟨list, st.added, locked⟩ with tasks := tasks }
  /-- A worker shows its task. -/
  | take {w : WorkerId} {t : TaskId} :
    Event l (some (.post w (.hold t))) [.post w (.shown t)] none (l.display w (some t))
  /-- A worker calls the back-end. -/
  | compile {w : WorkerId} {t : TaskId} (h : l.disabled = false) :
    Event l (some (.post w (.shown t))) [.post w (.inside t)] none l
  /-- The back-end returns, or is not called. -/
  | judge {w : WorkerId} {t : TaskId} {a : Phase} (ha : a = .shown t ∨ a = .inside t) :
    Event l (some (.post w a)) [.post w (.after t)] none l
  /-- A worker gives the claim back without calling the back-end. -/
  | giveUp {w : WorkerId} {t : TaskId} {x : Task} (hx : l.tasks[t]? = some x) :
    Event l (some (.post w (.shown t))) [.post w (.after t)] none (l.claim x.method false)
  /-- A worker shows its task no more. -/
  | drop {w : WorkerId} {t : TaskId} :
    Event l (some (.post w (.after t))) [.post w (.closing t)] none (l.display w none)
  /-- A worker gives the claim back. -/
  | release {w : WorkerId} {t : TaskId} {x : Task} (hx : l.tasks[t]? = some x) :
    Event l (some (.post w (.closing t))) [.post w (.closed t)] none (l.claim x.method false)
  /-- A worker writes the result. -/
  | publish {w : WorkerId} {t : TaskId} (result : TaskResult) :
    Event l (some (.post w (.closed t))) [.finish t, .post w .idle] none
      (l.modifyTask t fun x => { x with result := result })
  /-- The latest worker of a crew leaves it. -/
  | retire {w : WorkerId} {p : Post} {ws : List WorkerId} (hp : l.posts[w]? = some p)
    (hws : l.crews[p.unit]? = some (ws ++ [w])) :
    Event l (some (.post w .idle)) [.post w .away] none (l.setCrew p.unit ws)
  /-- A worker whose back-end has not started leaves. -/
  | desert {w : WorkerId} : Event l (some (.post w .idle)) [.post w .away] none l
  /-- A worker has left. -/
  | quit {w : WorkerId} : Event l (some (.post w .away)) [] none l
  /-- A worker is hired. -/
  | hire {u : UnitId} {ws : List WorkerId} (hws : l.crews[u]? = some ws) :
    Event l none [] (some l.posts.size)
      { l.setCrew u (ws ++ [l.posts.size]) with posts := l.posts.add ⟨u, none⟩ }

namespace Event

variable {l l' : Ledger} {d : Option Duty} {ds : List Duty} {b b' : Broker} {as : List Action}
  {turn : Turn}

/-- The ledger after an event may be given in another form. -/
theorem cast {w : Option WorkerId} {l'' : Ledger} (e : Event l d ds w l') (h : l'' = l') :
    Event l d ds w l'' := h ▸ e

/-- A step that leads to the same ledger and to the same duties is plain. -/
theorem of_eq (hl : l' = l) (hds : ds = d.toList) : Event l d ds none l' := by
  subst hl hds
  exact .plain d

/-- A step that goes on with the same duties is plain, if the ledger stays. -/
theorem of_go (h : Turn.go b' as = some turn) (hl : b'.ledger = b.ledger)
    (hds : duties as = d.toList) :
    Event b.ledger d (duties turn.next) turn.hired turn.broker.ledger := by
  obtain rfl := Option.some.inj h
  exact of_eq hl hds

/-- A request that is answered before it has the lock has no duty any more. -/
theorem of_answer {r : Reply} {u : UnitId} {m : Option MethodId} (h : Turn.answer b' r = some turn)
    (hl : b'.ledger = b.ledger) :
    Event b.ledger (some (.outside u m)) (duties turn.next) turn.hired turn.broker.ledger := by
  obtain rfl := Option.some.inj h
  rw [show (Turn.broker _).ledger = b.ledger from hl]
  exact .turnAway

/-- Neither has one that meets a state that must not occur. -/
theorem of_fault {u : UnitId} {m : Option MethodId} (h : Turn.fault b = some turn) :
    Event b.ledger (some (.outside u m)) (duties turn.next) turn.hired turn.broker.ledger := by
  obtain rfl := Option.some.inj h
  exact .turnAway

/-- A request that is answered under the lock gives it back. -/
theorem of_unlock {r : Reply} {u : UnitId} {m : MethodId} {stage : Stage}
    (h : Turn.answer b' r = some turn) (hl : b'.ledger = b.ledger.lock u false)
    (hs : stage ≠ .claimed) :
    Event b.ledger (some (.desk u m stage)) (duties turn.next) turn.hired turn.broker.ledger := by
  obtain rfl := Option.some.inj h
  rw [show (Turn.broker _).ledger = _ from hl]
  exact .refuse hs

end Event

end JitBroker
