import JitBroker.Proofs.Queue.Contents
import JitBroker.Proofs.Table
import JitBroker.System

/-!
# The ledger

Who has a task, who holds a lock, who has claimed a method and who must still be woken is a matter
of a few fields of the broker: the tasks and their account, the lists and locks of the queues, the
crews, the claims on methods, where workers are and what they show, and whether compilation is
disabled. These fields are the *ledger* of the broker.

Each way of changing the broker is described by what it does to the ledger. Most ways do nothing to
it: a worker that logs, a method that is ruled out at a tier, a counter that is raised.
-/

namespace JitBroker

/-! ### The ledger -/

/-- What a queue is to those who use it. -/
structure Stock where
  /-- The tasks. -/
  list : TaskList
  /-- The tasks that ever came. -/
  added : Nat
  /-- Whether somebody holds the lock. -/
  locked : Bool

/-- What the broker knows of a worker. -/
structure Post where
  /-- Its unit. -/
  unit : UnitId
  /-- The task it shows. -/
  current : Option TaskId

/-- The part of a broker that its protocols are about. -/
structure Ledger where
  /-- The tasks. -/
  tasks : Table Task
  /-- The account of tasks. -/
  pool : TaskPool
  /-- The queues of the units. -/
  stocks : Table Stock
  /-- The workers in the crews of the units. -/
  crews : Table (List WorkerId)
  /-- Whether the methods are claimed. -/
  claims : Table Bool
  /-- The workers. -/
  posts : Table Post
  /-- Whether compilation is disabled. -/
  disabled : Bool

/-- The queue as stock. -/
def CompileQueue.stock (q : CompileQueue) : Stock := ⟨q.list, q.added, q.lock.isSome⟩

@[simp] theorem CompileQueue.locked_stock (q : CompileQueue) : q.stock.locked = !q.isFree := by
  cases h : q.lock <;> simp [stock, isFree, h]

/-- The worker at its post. -/
def Worker.post (w : Worker) : Post := ⟨w.unit, w.current⟩

/-- The ledger of a broker. -/
def Broker.ledger (b : Broker) : Ledger where
  tasks := b.tasks
  pool := b.pool
  stocks := b.units.map (·.queue.stock)
  crews := b.units.map (·.crew.live)
  claims := b.methods.map (·.queued)
  posts := b.workers.map Worker.post
  disabled := b.disabled

namespace Ledger

/-- The ledger with one task changed. -/
def modifyTask (l : Ledger) (t : TaskId) (f : Task → Task) : Ledger :=
  { l with tasks := l.tasks.modify t f }

/-- The ledger with one queue replaced. -/
def setStock (l : Ledger) (u : UnitId) (st : Stock) : Ledger :=
  { l with stocks := l.stocks.modify u fun _ => st }

/-- The ledger with the lock of one queue taken or given back. -/
def lock (l : Ledger) (u : UnitId) (v : Bool) : Ledger :=
  { l with stocks := l.stocks.modify u fun st => { st with locked := v } }

/-- The ledger with one method claimed or not. -/
def claim (l : Ledger) (m : MethodId) (v : Bool) : Ledger :=
  { l with claims := l.claims.modify m fun _ => v }

/-- The ledger with another task, or none, shown by one worker. -/
def display (l : Ledger) (w : WorkerId) (t : Option TaskId) : Ledger :=
  { l with posts := l.posts.modify w fun p => { p with current := t } }

/-- The ledger with another crew in one unit. -/
def setCrew (l : Ledger) (u : UnitId) (ws : List WorkerId) : Ledger :=
  { l with crews := l.crews.modify u fun _ => ws }

theorem lock_setStock (l : Ledger) (u : UnitId) (st : Stock) (v : Bool) :
    (l.setStock u st).lock u v = l.setStock u { st with locked := v } :=
  congrArg (fun stocks => { l with stocks := stocks }) (Table.modify_modify _ _ _ _)

end Ledger

/-! ### Changes that do not show -/

namespace Method

@[simp] theorem queued_prohibit (m : Method) (osr : Bool) (tier : Tier) :
    (m.prohibit osr tier).queued = m.queued := by
  unfold prohibit
  split <;> rfl

@[simp] theorem queued_linkNative (m : Method) : m.linkNative.2.queued = m.queued := by
  unfold linkNative
  split <;> rfl

@[simp] theorem queued_install (m : Method) (c : InstalledCode) :
    (m.install c).queued = m.queued := by
  unfold install
  split <;> rfl

@[simp] theorem queued_afterFailure (m : Method) (osr : Bool) (tier : Tier)
    (scope : Option FailureScope) : (m.afterFailure osr tier scope).queued = m.queued := by
  unfold afterFailure
  split <;> simp [prohibitAll]

@[simp] theorem queued_detach (m : Method) (bci : Int) (tier : Tier) :
    (m.detach bci tier).2.queued = m.queued := by
  unfold detach
  split <;> split <;> try split
  all_goals rfl

end Method

namespace Broker

variable (b : Broker)

/-! ### Look-up -/

@[simp] theorem tasks_ledger : b.ledger.tasks = b.tasks := rfl

@[simp] theorem pool_ledger : b.ledger.pool = b.pool := rfl

@[simp] theorem disabled_ledger : b.ledger.disabled = b.disabled := rfl

@[simp] theorem getElem?_stocks (u : Nat) :
    b.ledger.stocks[u]? = b.units[u]?.map (·.queue.stock) := Table.getElem?_map _ _ _

@[simp] theorem size_stocks : b.ledger.stocks.size = b.units.size := Table.size_map _ _

@[simp] theorem getElem?_crews (u : Nat) :
    b.ledger.crews[u]? = b.units[u]?.map (·.crew.live) := Table.getElem?_map _ _ _

@[simp] theorem getElem?_claims (m : Nat) :
    b.ledger.claims[m]? = b.methods[m]?.map (·.queued) := Table.getElem?_map _ _ _

@[simp] theorem size_claims : b.ledger.claims.size = b.methods.size := Table.size_map _ _

@[simp] theorem getElem?_posts (w : Nat) :
    b.ledger.posts[w]? = b.workers[w]?.map Worker.post := Table.getElem?_map _ _ _

@[simp] theorem size_posts : b.ledger.posts.size = b.workers.size := Table.size_map _ _

/-! ### Changes -/

@[simp] theorem ledger_modifyTask (t : TaskId) (f : Task → Task) :
    (b.modifyTask t f).ledger = b.ledger.modifyTask t f := rfl

theorem ledger_modifyMethod_queued (m : MethodId) (v : Bool) :
    (b.modifyMethod m fun x => { x with queued := v }).ledger = b.ledger.claim m v := by
  have h : (b.methods.modify m fun x => { x with queued := v }).map (·.queued) =
      (b.methods.map (·.queued)).modify m fun _ => v := Table.map_modify (fun _ => by rfl) _ m
  simp only [ledger, modifyMethod, Ledger.claim, h]

/-- Changing a method otherwise than by a claim does not show in the ledger. -/
theorem ledger_modifyMethod {f : Method → Method} (h : ∀ x, (f x).queued = x.queued)
    (m : MethodId) : (b.modifyMethod m f).ledger = b.ledger := by
  have h := Table.map_modify_of_eq (f := (·.queued)) (g := f) h b.methods m
  simp only [ledger, modifyMethod, h]

theorem ledger_modifyWorker_current (w : WorkerId) (t : Option TaskId) :
    (b.modifyWorker w fun x => { x with current := t }).ledger = b.ledger.display w t := by
  have h : (b.workers.modify w fun x => { x with current := t }).map Worker.post =
      (b.workers.map Worker.post).modify w fun p => { p with current := t } :=
    Table.map_modify (fun _ => by rfl) _ w
  simp only [ledger, modifyWorker, Ledger.display, h]

/-- Changing a worker otherwise than by its task does not show in the ledger. -/
theorem ledger_modifyWorker {f : Worker → Worker} (h : ∀ x, (f x).post = x.post)
    (w : WorkerId) : (b.modifyWorker w f).ledger = b.ledger := by
  have h := Table.map_modify_of_eq h b.workers w
  simp only [ledger, modifyWorker, h]

/-- Changing a unit but for its queue and crew does not show in the ledger. -/
theorem ledger_modifyUnit {f : TierUnit → TierUnit} (hq : ∀ x, (f x).queue.stock = x.queue.stock)
    (hc : ∀ x, (f x).crew.live = x.crew.live) (u : UnitId) :
    (b.modifyUnit u f).ledger = b.ledger := by
  have h₁ := Table.map_modify_of_eq (f := (·.queue.stock)) (g := f) hq b.units u
  have h₂ := Table.map_modify_of_eq (f := (·.crew.live)) (g := f) hc b.units u
  simp only [ledger, modifyUnit, h₁, h₂]

/-- Changing a queue changes the stock of its unit. -/
theorem ledger_modifyQueue {f : CompileQueue → CompileQueue} {g : Stock → Stock}
    (h : ∀ q, (f q).stock = g q.stock) (u : UnitId) :
    (b.modifyQueue u f).ledger = { b.ledger with stocks := b.ledger.stocks.modify u g } := by
  have h₁ : (b.units.modify u fun x => { x with queue := f x.queue }).map (·.queue.stock) =
      (b.units.map (·.queue.stock)).modify u g := Table.map_modify (fun x => h x.queue) _ u
  have h₂ : (b.units.modify u fun x => { x with queue := f x.queue }).map (·.crew.live) =
      b.units.map (·.crew.live) := Table.map_modify_of_eq (fun _ => by rfl) _ u
  simp only [ledger, modifyQueue, modifyUnit, h₁, h₂]

theorem ledger_modifyQueue_const (u : UnitId) (q : CompileQueue) :
    (b.modifyQueue u fun _ => q).ledger = b.ledger.setStock u q.stock :=
  b.ledger_modifyQueue (fun _ => by rfl) u

@[simp] theorem ledger_take (u : UnitId) (i : ThreadId) :
    (b.modifyQueue u (·.take i)).ledger = b.ledger.lock u true :=
  b.ledger_modifyQueue (fun _ => by rfl) u

@[simp] theorem ledger_giveBack (u : UnitId) :
    (b.modifyQueue u CompileQueue.giveBack).ledger = b.ledger.lock u false :=
  b.ledger_modifyQueue (fun _ => by rfl) u

@[simp] theorem ledger_ring (u : UnitId) :
    (b.modifyQueue u CompileQueue.ring).ledger = b.ledger :=
  b.ledger_modifyUnit (fun _ => by rfl) (fun _ => by rfl) u

theorem ledger_publish (u : UnitId) (f : Crew → List WorkerId) {unit : TierUnit}
    (h : b.units[u]? = some unit) :
    (b.modifyCrew u fun c => c.publish (f c)).ledger = b.ledger.setCrew u (f unit.crew) := by
  have h₁ : (b.units.modify u fun x => { x with crew := x.crew.publish (f x.crew) }).map
      (·.queue.stock) = b.units.map (·.queue.stock) := Table.map_modify_of_eq (fun _ => by rfl) _ u
  have h₂ : (b.units.modify u fun x => { x with crew := x.crew.publish (f x.crew) }).map
      (·.crew.live) = (b.units.map (·.crew.live)).modify u fun _ => f unit.crew := by
    refine Table.ext_getElem? fun v => ?_
    simp only [Table.getElem?_map, Table.getElem?_modify]
    split
    · rename_i huv
      subst huv
      rw [h]
      rfl
    · rfl
  simp only [ledger, modifyCrew, modifyUnit, Ledger.setCrew, h₁, h₂]

/-- What is done from outside shows in the ledger only when a method becomes known. -/
theorem ledger_operate (o : Operation) :
    (b.operate o).ledger = b.ledger ∨
      (b.operate o).ledger = { b.ledger with claims := b.ledger.claims.add false } := by
  cases o with
  | addMethod m => exact .inr (congrArg (fun c => { b.ledger with claims := c }) (Table.map_add _ _ _))
  | redefine m => exact .inl (b.ledger_modifyMethod (fun _ => by rfl) m)
  | breakpoints m present => exact .inl (b.ledger_modifyMethod (fun _ => by rfl) m)
  | link m => exact .inl (b.ledger_modifyMethod Method.queued_linkNative m)
  | prohibit m osr tier =>
    exact .inl (b.ledger_modifyMethod (fun x => x.queued_prohibit osr tier) m)
  | prohibitAll m => exact .inl (b.ledger_modifyMethod (fun _ => by rfl) m)
  | close m region => exact .inl (b.ledger_modifyMethod (fun _ => by rfl) m)
  | pushDirectives sets =>
    refine .inl ?_
    rw [operate]
    split <;> rfl
  | unpause =>
    refine .inl ?_
    rw [operate]
    split <;> rfl
  | _ => exact .inl rfl

end Broker

end JitBroker
