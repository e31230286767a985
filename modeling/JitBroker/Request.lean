import JitBroker.Error
import JitBroker.Method

/-!
# Requests and their outcomes

A request asks for code of a method at a tier, entered at the start of the method or in the middle
of a loop. It may wait for the code; what became of it is its outcome.
-/

namespace JitBroker

/-- Why a compile is requested. -/
inductive CompileReason where
  /-- The counter of invocations has overflowed. -/
  | normal
  /-- The counter of loop iterations has overflowed. -/
  | backedgeCount
  /-- The tiered policy moves the method to another tier. -/
  | tiered
  /-- A recorded compile is run again. -/
  | replay
  /-- The method must be compiled. -/
  | mustBeCompiled
  /-- The compile belongs to startup. -/
  | bootstrap
  /-- Code was lost around a checkpoint and restore. -/
  | checkpointRestore
  deriving Repr, DecidableEq, Inhabited

namespace CompileReason

/-- Every reason. -/
def every : List CompileReason :=
  [.normal, .backedgeCount, .tiered, .replay, .mustBeCompiled, .bootstrap, .checkpointRestore]

/-- The name used in documents. -/
def key : CompileReason → String
  | .normal => "normal"
  | .backedgeCount => "backedge_count"
  | .tiered => "tiered"
  | .replay => "replay"
  | .mustBeCompiled => "must_be_compiled"
  | .bootstrap => "bootstrap"
  | .checkpointRestore => "checkpoint_restore"

/-- The name used in logs. -/
def name : CompileReason → String
  | .normal => "count"
  | r => r.key

/-- The reason with the given name in documents. -/
def ofKey? (key : String) : Option CompileReason := every.find? (·.key == key)

theorem ofKey?_key (r : CompileReason) : ofKey? r.key = some r := by
  cases r <;> rfl

end CompileReason

/-- The sequences that compile numbers are drawn from. -/
inductive IdKind where
  /-- Compiles of a method from its start. -/
  | standard
  /-- Compiles for an OSR entry. -/
  | osr
  /-- Wrappers of native methods. -/
  | native
  deriving Repr, DecidableEq, Inhabited

/-- The name used in reports. -/
def IdKind.name : IdKind → String
  | .standard => "standard"
  | .osr => "osr"
  | .native => "native"

/-- The sequence for a compile of a method for an entry. -/
def Method.idKind (m : Method) (bci : Int) : IdKind :=
  if m.isNative then .native else if bci = invocationEntry then .standard else .osr

/-- A request for code. -/
structure Request where
  /-- The method. -/
  method : MethodId
  /-- The bytecode index of the entry. -/
  bci : Int := invocationEntry
  /-- The tier. -/
  tier : Tier
  /-- The count that set off the request. -/
  hot : UInt32 := 0
  /-- Why the code is wanted. -/
  reason : CompileReason := .normal
  /-- Wait for the compile. -/
  blocking : Bool := false
  deriving Repr, DecidableEq, Inhabited

/-- Whether the request is for an OSR entry. -/
def Request.isOsr (r : Request) : Bool := r.bci != invocationEntry

/-- Why a compile produced no code. -/
inductive FailureReason where
  /-- A debugger has set breakpoints in the method. -/
  | breakpoints
  /-- The broker did not accept jobs when the compile was to start. -/
  | notAccepting
  /-- The back-end neither installed code nor gave a reason. -/
  | noCode
  /-- The task was taken off its queue before it ran. -/
  | stale
  /-- The segment had no room for the code. -/
  | codeCacheFull
  /-- What the compile relied on had changed. -/
  | invalidated
  /-- A reason of the back-end's own. -/
  | other (text : String)
  deriving Repr, DecidableEq

/-- The text of the reason. -/
def FailureReason.text : FailureReason → String
  | .breakpoints => "breakpoints are present"
  | .notAccepting => "compilation is disabled"
  | .noCode => "compiler produced no code"
  | .stale => BrokerError.stale.message
  | .codeCacheFull => "code cache is full"
  | .invalidated => "dependencies invalidated during compilation"
  | .other text => text

/-- What a request that waited in vain is told. -/
inductive WaitFailure where
  /-- The compile failed. -/
  | compile (reason : FailureReason)
  /-- The compile failed without giving a reason. -/
  | unexplained
  /-- The code was gone before the requester saw it. -/
  | codeGone
  deriving Repr, DecidableEq

/-- The text of the failure. -/
def WaitFailure.text : WaitFailure → String
  | .compile reason => reason.text
  | .unexplained => "compile failed"
  | .codeGone => "installed code was invalidated"

/-- What became of a request. -/
inductive Outcome where
  /-- There is code. -/
  | installed (code : InstalledCode)
  /-- A task was queued, and the request did not wait. -/
  | queued (id : UInt32)
  /-- The compile ran and failed. -/
  | failed (id : UInt32) (reason : WaitFailure)
  /-- The requester stopped waiting; the task is left to its worker. -/
  | abandoned (id : UInt32)
  /-- Nothing was queued. -/
  | rejected (error : BrokerError)
  deriving Repr, DecidableEq

/-- The code, if there is some. -/
def Outcome.code? : Outcome → Option InstalledCode
  | .installed code => some code
  | _ => none

end JitBroker
