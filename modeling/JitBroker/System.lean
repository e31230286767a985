import JitBroker.Broker.Completion
import JitBroker.Broker.Control
import JitBroker.Broker.Staffing
import JitBroker.Broker.Submission
import JitBroker.Broker.Work

/-!
# Brokers at work

A system is a broker together with the threads that use it: the workers, and the threads of the
application that call it. It moves by the step of some thread, by an operation from outside, or by
a call that a new thread is given to carry out.

* `System.step` runs the first action of a thread; there is none if the thread has nothing to do or
  must wait.
* `System.Reachable` holds of the states that any such moves lead to, in any order, from a broker
  that has just been assembled. What is not determined by the broker (time running out, what the
  back-ends do, whether threads can be started) is chosen freely in each step.
-/

namespace JitBroker

/-- A thread. -/
structure Thread where
  /-- The worker it is the thread of, if it is one. -/
  worker : Option WorkerId := none
  /-- How many class initializers it is inside of. -/
  initializers : Nat := 0
  /-- What it still has to do. -/
  agenda : List Action
  /-- What its agenda last left behind. -/
  reply : Option Reply := none
  deriving Inhabited

/-- A broker and its threads. -/
structure System where
  /-- The broker. -/
  broker : Broker
  /-- The threads. -/
  threads : Table Thread := .empty
  deriving Inhabited

/-- Runs an action. -/
def Action.run (me : Caller) (ch : Choices) (b : Broker) : Action → Option Turn
  | .request s => s.run me ch b
  | .task s => s.run b
  | .control s => s.run me b
  | .gate s => s.run b
  | .worker w s =>
    match b.workers[w]? with
    | none => Turn.fault b
    | some record =>
      match b.units[record.unit]? with
      | none => Turn.fault b
      | some unit => s.run me ch b w record unit
  | .crew s => s.run me ch b
  | .answer r => Turn.answer b r
  | .fault => none

namespace Thread

/-- The thread of a worker that has just been hired. -/
def ofWorker (w : WorkerId) : Thread where
  worker := some w
  agenda := [.worker w .start]

/-- What a step of the thread knows of it. -/
def caller (t : Thread) (id : ThreadId) : Caller where
  thread := id
  onCompiler := t.worker.isSome
  initializers := t.initializers
  reply := t.reply

/-- The thread after a step that ran the first of its actions. -/
def after (t : Thread) (turn : Turn) : Thread :=
  { t with agenda := turn.next ++ t.agenda.drop 1, reply := turn.reply.or t.reply }

end Thread

namespace System

/-- The step of a thread. -/
def step (s : System) (i : ThreadId) (ch : Choices) : Option System := do
  let t ← s.threads[i]?
  let a ← t.agenda.head?
  let turn ← a.run (t.caller i) ch s.broker
  let threads := s.threads.modify i (·.after turn)
  return {
    broker := turn.broker
    threads := match turn.hired with
      | some w => threads.add (.ofWorker w)
      | none => threads }

/-- The system with one more thread. -/
def spawn (s : System) (t : Thread) : System := { s with threads := s.threads.add t }

/-- The system with a new thread that carries out a call, inside so many class initializers. -/
def call (s : System) (c : Call) (initializers : Nat) : System :=
  s.spawn { initializers := initializers, agenda := c.agenda }

/-- The system after an operation. -/
def operate (s : System) (o : Operation) : System := { s with broker := s.broker.operate o }

/-- An assembled broker with the thread that starts it. -/
def launch (b : Broker) : System where
  broker := b
  threads := Table.empty.add { agenda := [.crew (.launch b.unitIds)] }

/-! ### Runs -/

/-- What may happen next. -/
inductive Move where
  /-- A thread makes a step. -/
  | step (i : ThreadId) (ch : Choices)
  /-- A new thread is given a call. -/
  | call (c : Call) (initializers : Nat)
  /-- Something is done from outside. -/
  | operate (o : Operation)

/-- The system after a move. A step that is not possible changes nothing. -/
def move (s : System) : Move → System
  | .step i ch => (s.step i ch).getD s
  | .call c initializers => s.call c initializers
  | .operate o => s.operate o

/-- The states that a system can get into. -/
inductive Reachable (first : System) : System → Prop where
  /-- It is in its first state. -/
  | first : Reachable first first
  /-- It moves on. -/
  | move {s : System} (m : Move) : Reachable first s → Reachable first (s.move m)

/-- Reachable states are those after lists of moves. -/
theorem reachable_iff_foldl {first s : System} :
    Reachable first s ↔ ∃ moves : List Move, s = moves.foldl move first := by
  constructor
  · intro h
    induction h with
    | first => exact ⟨[], rfl⟩
    | move m _ ih =>
      obtain ⟨moves, rfl⟩ := ih
      exact ⟨moves ++ [m], by simp⟩
  · rintro ⟨moves, rfl⟩
    suffices ∀ (moves : List Move) (s : System), Reachable first s →
        Reachable first (moves.foldl move s) from this moves first .first
    intro moves
    induction moves with
    | nil => exact fun _ h => h
    | cons m rest ih => exact fun s h => ih _ (.move m h)

end System

end JitBroker
