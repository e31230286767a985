import JitBroker.Directive.File

/-!
# The directives stack

Directive sets are pushed on a stack; the topmost set with a matching pattern decides for a
method. Under all of them lies the default set, which matches everything and is never popped, so
it is not kept in the list of pushed sets but counts in the depth. A push that would exceed the
limit leaves the stack alone, and so does a file with any fault in it.
-/

namespace JitBroker

/-- A stack of directive sets over the default one. -/
structure DirectiveStack where
  /-- The greatest depth, the default set included. -/
  limit : Nat
  /-- The pushed sets, topmost first. -/
  pushed : List DirectiveSet := []
  deriving Repr, Inhabited

namespace DirectiveStack

/-- The limit of a stack that is not given one. -/
def defaultLimit : Nat := 50

/-- A stack of the default set alone. A limit of zero counts as one. -/
def withLimit (limit : Nat) : DirectiveStack := { limit := max limit 1 }

/-- A stack of the default set alone, with the usual limit. -/
def new : DirectiveStack := withLimit defaultLimit

/-- Every set, topmost first. -/
def sets (s : DirectiveStack) : List DirectiveSet := s.pushed ++ [.default]

/-- How many sets there are, the default one included. -/
def depth (s : DirectiveStack) : Nat := s.pushed.length + 1

/-- The stack with sets on top, the first of them topmost. -/
def pushAll (s : DirectiveStack) (sets : List DirectiveSet) :
    Except DirectiveError DirectiveStack :=
  if s.depth + sets.length ≤ s.limit then .ok { s with pushed := sets ++ s.pushed }
  else .error (.stackFull s.limit)

/-- The stack with one more set on top. -/
def push (s : DirectiveStack) (set : DirectiveSet) : Except DirectiveError DirectiveStack :=
  s.pushAll [set]

/-- The stack with the sets of a file on top, and how many there are, given the text and a reader of
JSON documents. -/
def pushText (read : String → Option Json) (s : DirectiveStack) (text : String) :
    Except DirectiveError (Nat × DirectiveStack) := do
  let sets ← DirectiveSet.ofText read text
  return (sets.length, ← s.pushAll sets)

/-- The stack without its topmost sets, and how many were taken off. -/
def pop (s : DirectiveStack) (count : Nat) : Nat × DirectiveStack :=
  (min s.pushed.length count, { s with pushed := s.pushed.drop count })

/-- The stack with the default set alone. -/
def clear (s : DirectiveStack) : DirectiveStack := { s with pushed := [] }

/-- The directive of the topmost matching set. -/
def lookup (s : DirectiveStack) (className method : String) (k : CompilerKind) : Directive :=
  match s.pushed.find? (·.accepts className method) with
  | some set => set.forKind k
  | none => DirectiveSet.default.forKind k

/-- The sets in a listing, topmost first. -/
def listing (s : DirectiveStack) : String :=
  String.join (s.sets.map fun set => set.listing ++ "\n")

end DirectiveStack

end JitBroker
