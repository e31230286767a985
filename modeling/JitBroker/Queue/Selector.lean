import JitBroker.Task
import JitBroker.Text.Fixed

/-!
# Choosing the next task

A selector looks at the tasks of a queue from the oldest on. Tasks of methods that were redefined
or whose class was unloaded are obsolete: they are reported, and never chosen.

* In order of arrival, the first task that is not obsolete is chosen; the ones behind it are not
  looked at.
* By hotness, every task is looked at. Tasks that somebody waits for come first, then those for an
  OSR entry, then those of the highest rate, and of equal ones the oldest. The rate of a task is
  a value of some order, made of its count and of the milliseconds it has waited. Queues take the
  count over the milliseconds plus one, in doubles (`Rate.ofWait`).
-/

namespace JitBroker

/-! ### Rates -/

namespace Rate

/-- A natural number as a double has it: rounded to 53 significant bits, of two equally near values
to the one whose last bit is zero. -/
def ofNat (n : Nat) : Nat :=
  Text.roundQuotient n (1 <<< (n.log2 - 52)) <<< (n.log2 - 52)

/-- The quotient of two numbers as a double has it. Numbers of the size of counts and of times do
not reach the ends of its range. -/
def quotient (n d : Nat) : Rat :=
  -- The numerator is moved up so that the whole part of the quotient has 53 bits at least.
  let up := 53 + d.log2 - n.log2
  let spare := (n <<< up / d).log2 - 52
  mkRat (Text.roundQuotient (n <<< up) (d <<< spare) <<< spare) (1 <<< up)

/-- The rate of a task with the given count that has waited for the given number of milliseconds. -/
def ofWait (hot age : Nat) : Rat := quotient (ofNat hot) (ofNat (ofNat age + 1))

-- The second of these quotients is greater, but not as a double.
example : ofWait 4293141997 3868088 = ofWait 4254396949 3833179 := by decide +kernel

end Rate

/-! ### Policies -/

/-- The policies. -/
inductive Selector where
  /-- In order of arrival. -/
  | fifo
  /-- By hotness. -/
  | hottest
  deriving Repr, DecidableEq, Inhabited

/-- The name in listings. -/
def Selector.name : Selector → String
  | .fifo => "fifo"
  | .hottest => "hotness"

/-- The claim of a task to be chosen. -/
structure Rank where
  /-- Whether somebody waits for the task. -/
  blocking : Bool
  /-- Whether it is for an OSR entry. -/
  osr : Bool
  /-- The count that set off the request. -/
  hot : Nat
  /-- The milliseconds waited so far. -/
  age : Nat
  deriving Repr, DecidableEq

/-- Whether the second has the better claim, for rates made of count and age. -/
def Rank.less {R : Type} [LT R] [DecidableLT R] (rate : Nat → Nat → R) (a b : Rank) : Bool :=
  if a.blocking != b.blocking then b.blocking
  else if a.osr != b.osr then b.osr
  else decide (rate a.hot a.age < rate b.hot b.age)

/-- A task that is offered to a selector. -/
structure Candidate where
  /-- Its slot in the list. -/
  slot : Nat
  /-- Its claim. -/
  rank : Rank
  /-- Whether it must not run. -/
  obsolete : Bool
  deriving Repr, DecidableEq

/-- What a selector found. -/
structure Selection where
  /-- The slot of the task to run next. -/
  chosen : Option Nat := none
  /-- The slots of the obsolete tasks that were seen, oldest first. -/
  stale : List Nat := []
  deriving Repr, DecidableEq, Inhabited

namespace Selection

/-- The first candidate that is not obsolete. -/
def inOrder : List Candidate → Selection
  | [] => {}
  | c :: rest =>
    if c.obsolete then
      let s := inOrder rest
      { s with stale := c.slot :: s.stale }
    else { chosen := some c.slot }

section

variable {R : Type} [LT R] [DecidableLT R]

/-- The better of the best so far and one more candidate. -/
def better (rate : Nat → Nat → R) (best : Option Candidate) (c : Candidate) : Option Candidate :=
  match best with
  | some b => if b.rank.less rate c.rank then some c else some b
  | none => some c

/-- The best candidate that is not obsolete. -/
def byRank (rate : Nat → Nat → R) (cs : List Candidate) : Selection where
  chosen := ((cs.filter (!·.obsolete)).foldl (better rate) none).map (·.slot)
  stale := (cs.filter (·.obsolete)).map (·.slot)

end

end Selection

/-- What the policy makes of the candidates, oldest first. -/
def Selector.select : Selector → List Candidate → Selection
  | .fifo, cs => .inOrder cs
  | .hottest, cs => .byRank Rate.ofWait cs

end JitBroker
