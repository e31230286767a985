/-!
# Compiler families

Each tier is served by one back-end, and each back-end belongs to a family. The family decides
which section of a directive applies and whether a blocking requester watches the progress of the
back-end while it waits.
-/

namespace JitBroker

/-- The families of compilers. -/
inductive CompilerKind where
  /-- The fast profiling compiler. -/
  | c1
  /-- The optimizing compiler. -/
  | c2
  /-- A compiler outside the process, with a progress counter of its own. -/
  | external
  deriving Repr, DecidableEq, Inhabited

/-- The name used in configurations and directive files. -/
def CompilerKind.name : CompilerKind → String
  | .c1 => "c1"
  | .c2 => "c2"
  | .external => "external"

/-- The name in capitals, as it starts the names of queues and worker threads. -/
def CompilerKind.title : CompilerKind → String
  | .c1 => "C1"
  | .c2 => "C2"
  | .external => "EXTERNAL"

/-- The family with the given name. -/
def CompilerKind.ofName? : String → Option CompilerKind
  | "c1" => some .c1
  | "c2" => some .c2
  | "external" => some .external
  | _ => none

theorem CompilerKind.ofName?_name (k : CompilerKind) : ofName? k.name = some k := by
  cases k <;> rfl

end JitBroker
