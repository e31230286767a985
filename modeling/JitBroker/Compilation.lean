import JitBroker.Task

/-!
# What a back-end reports

While a back-end compiles, it reports what it does through an environment, which collects the
reports for the worker. Code that is installed takes effect at once; whether the compile as a whole
has failed is judged afterwards:

* of several failures the first one counts;
* of several installations and sizes the last one counts;
* a compile has succeeded if it installed code and reported no failure.
-/

namespace JitBroker

/-- How far a failure reaches. -/
inductive FailureScope where
  /-- Only this attempt has failed. -/
  | retry
  /-- The method cannot be compiled at this tier. -/
  | notAtTier
  /-- The method can never be compiled. -/
  | never
  deriving Repr, DecidableEq, Inhabited

/-- What a back-end has reported about a compile. -/
structure CompileReport where
  /-- The code installed last. -/
  installed : Option InstalledCode := none
  /-- The first failure. -/
  failure : Option (FailureReason × FailureScope) := none
  /-- What is said about trying again. -/
  retryMessage : Option String := none
  /-- The segment that was found full. -/
  cacheFull : Option BlobKind := none
  /-- Whether what the compile relied on has changed. -/
  invalidated : Bool := false
  /-- The size of the code. -/
  totalSize : UInt64 := 0
  /-- The size of its instructions. -/
  instructionsSize : UInt64 := 0
  /-- The bytecodes that were inlined. -/
  inlinedBytecodes : UInt64 := 0
  deriving Repr, DecidableEq, Inhabited

namespace CompileReport

/-- Whether a failure has been reported. -/
def isFailing (r : CompileReport) : Bool := r.failure.isSome

/-- The report after a failure. -/
def fail (r : CompileReport) (reason : FailureReason) (scope : FailureScope) : CompileReport :=
  { r with failure := r.failure.or (some (reason, scope)) }

/-- The report after an installation failed because a segment was full. -/
def full (r : CompileReport) (kind : BlobKind) : CompileReport :=
  { r with cacheFull := some kind }.fail .codeCacheFull .retry

/-- The report after the code was found to rely on something that has changed. -/
def invalidate (r : CompileReport) : CompileReport :=
  { r with invalidated := true }.fail .invalidated .retry

/-- The report after code was installed. -/
def install (r : CompileReport) (code : InstalledCode) : CompileReport :=
  { r with
    installed := some code
    totalSize := code.totalSize
    instructionsSize := code.instructionsSize }

/-- The report after the sizes of code that is not installed were given. -/
def recordSize (r : CompileReport) (total instructions : UInt64) : CompileReport :=
  { r with totalSize := total, instructionsSize := min instructions total }

/-- The report after bytecodes were inlined. -/
def inline (r : CompileReport) (count : UInt64) : CompileReport :=
  { r with inlinedBytecodes := r.inlinedBytecodes + count }

/-- Why the compile as a whole has failed, if it has. -/
def verdict (r : CompileReport) : Option FailureReason :=
  match r.failure with
  | some (reason, _) => some reason
  | none => if r.installed.isSome then none else some .noCode

/-- How far the failure reaches, if the back-end reported one. -/
def scope (r : CompileReport) : Option FailureScope := r.failure.map (·.2)

/-- The result of the compile. -/
def result (r : CompileReport) (arenaBytes : UInt64) : TaskResult where
  success := r.verdict.isNone
  failure := r.verdict
  retryMessage := r.retryMessage
  totalSize := r.totalSize
  instructionsSize := r.instructionsSize
  inlinedBytecodes := r.inlinedBytecodes
  arenaBytes := arenaBytes

end CompileReport

/-- The code that a task gets for a region. -/
def Task.code (t : Task) (region : Region) (instructions : UInt64) : InstalledCode where
  compileId := t.compileId
  tier := t.tier
  entryBci := t.entryBci
  region := region
  instructionsSize := min instructions region.size

/-- What a method's marks become when a compile fails with a scope. -/
def Method.afterFailure (m : Method) (osr : Bool) (tier : Tier) : Option FailureScope → Method
  | some .notAtTier => m.prohibit osr tier
  | some .never => m.prohibitAll
  | _ => m

end JitBroker
