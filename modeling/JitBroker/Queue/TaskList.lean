import JitBroker.Table
import JitBroker.Task

/-!
# Lists of tasks in slots

The tasks of a queue form a doubly linked list whose links are numbers of slots. A slot that is
given up is used again, latest first, so a long-lived queue needs no more slots than it ever had
tasks at once; and a task that knows its slot is taken out without a search.

The list is described by `entries`, the slots and tasks from the oldest to the latest.
-/

namespace JitBroker

/-- A slot of a list. -/
structure Slot where
  /-- The task in it, if it is in use. -/
  task : Option TaskId
  /-- The slot of the task before. -/
  prev : Option Nat
  /-- The slot of the task after. -/
  next : Option Nat
  deriving Repr, DecidableEq, Inhabited

/-- A list of tasks. -/
structure TaskList where
  /-- The slots. -/
  slots : Table Slot := .empty
  /-- The slots that are not in use, the one given up last first. -/
  unused : List Nat := []
  /-- The slot of the oldest task. -/
  head : Option Nat := none
  /-- The slot of the latest task. -/
  tail : Option Nat := none
  /-- How many tasks there are. -/
  size : Nat := 0
  deriving Repr, DecidableEq, Inhabited

namespace TaskList

/-- The list without tasks. -/
def empty : TaskList := {}

/-- Whether there is no task. -/
def isEmpty (l : TaskList) : Bool := l.size == 0

/-- The slots with the link to the next task of one of them changed. -/
def linkNext (slots : Table Slot) (slot next : Option Nat) : Table Slot :=
  match slot with
  | some s => slots.modify s fun x => { x with next := next }
  | none => slots

/-- The slots with the link to the previous task of one of them changed. -/
def linkPrev (slots : Table Slot) (slot prev : Option Nat) : Table Slot :=
  match slot with
  | some s => slots.modify s fun x => { x with prev := prev }
  | none => slots

/-- The slots with a record written into the first unused one or a new one, the number of that one,
and those that are still unused. -/
def occupy (l : TaskList) (x : Slot) : Nat × Table Slot × List Nat :=
  match l.unused with
  | s :: unused => (s, l.slots.modify s fun _ => x, unused)
  | [] => (l.slots.size, l.slots.add x, [])

/-- Adds a task at the end and tells its slot. -/
def push (l : TaskList) (t : TaskId) : Nat × TaskList :=
  let (s, slots, unused) := l.occupy ⟨some t, l.tail, none⟩
  (s, { slots := linkNext slots l.tail (some s)
        unused := unused
        head := l.head.or (some s)
        tail := some s
        size := l.size + 1 })

/-- Takes the task out of a slot that is in use. -/
def unlink? (l : TaskList) (s : Nat) : Option (TaskId × TaskList) :=
  match l.slots[s]? with
  | some ⟨some t, prev, next⟩ =>
    let slots := l.slots.modify s fun x => { x with task := none }
    some (t,
      { slots := linkPrev (linkNext slots prev next) next prev
        unused := s :: l.unused
        head := if prev.isNone then next else l.head
        tail := if next.isNone then prev else l.tail
        size := l.size - 1 })
  | _ => none

/-- The slots in use and their tasks along the links from a slot on, at most so many. -/
def entriesFrom (slots : Table Slot) : Nat → Option Nat → List (Nat × TaskId)
  | 0, _ => []
  | _ + 1, none => []
  | n + 1, some s =>
    match slots[s]? with
    | some ⟨some t, _, next⟩ => (s, t) :: entriesFrom slots n next
    | _ => []

/-- The slots and tasks, oldest first. -/
def entries (l : TaskList) : List (Nat × TaskId) := entriesFrom l.slots l.slots.size l.head

/-- The tasks, oldest first. -/
def toList (l : TaskList) : List TaskId := l.entries.map (·.2)

end TaskList

end JitBroker
