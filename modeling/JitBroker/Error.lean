import JitBroker.CodeCache
import JitBroker.Config

/-!
# Errors of the broker

Why a request produced no new code, or why a broker could not be built. The kinds are fixed; within
a kind the cause is kept, and its text is made only when it is asked for. The errors that are part
of normal operation are silent: they deserve no line in a log.
-/

namespace JitBroker

/-- Why a method must not be compiled. -/
inductive Prohibition where
  /-- The method has no body. -/
  | abstractMethod
  /-- The method is a method-handle intrinsic. -/
  | intrinsic
  /-- A directive excludes the method. -/
  | excluded
  /-- A directive switches compilation off. -/
  | switchedOff
  /-- The method is marked at this tier, for OSR entries or for the standard entry. -/
  | marked (osr : Bool) (tier : Tier)
  /-- The native entry cannot be found. -/
  | nativeLookup
  /-- The number drawn lies outside the window of numbers that compile. -/
  | outsideRange (id : UInt32)
  /-- Another cause. -/
  | other (text : String)
  deriving Repr, DecidableEq

/-- The text of a prohibition. -/
def Prohibition.text : Prohibition → String
  | .abstractMethod => "abstract method"
  | .intrinsic => "method handle intrinsic"
  | .excluded => "excluded by directive"
  | .switchedOff => "disabled by directive"
  | .marked true tier => s!"not OSR compilable at tier {tier}"
  | .marked false tier => s!"not compilable at tier {tier}"
  | .nativeLookup => "native lookup failed"
  | .outsideRange id => s!"compile id {id} outside the debug range"
  | .other text => text

/-- Why the broker takes no work. -/
inductive Unavailability where
  /-- The broker has not been started. -/
  | notInitialized
  /-- No enabled tier has this number. -/
  | tierNotEnabled (tier : Tier)
  /-- Compilation is disabled for good. -/
  | disabled
  /-- Compilation is stopped. -/
  | stopped
  /-- The initializer of the class has not run. -/
  | classNotInitialized (name : String)
  /-- A compiler thread would have to look up a native entry. -/
  | nativeLookupOnCompiler
  /-- Compilation was disabled while the requester waited. -/
  | disabledWhileWaiting
  /-- The configuration has a fault. -/
  | invalidConfig (fault : ConfigFault)
  /-- Another cause. -/
  | other (text : String)
  deriving Repr, DecidableEq

/-- The text of an unavailability. -/
def Unavailability.text : Unavailability → String
  | .notInitialized => "broker is not initialized"
  | .tierNotEnabled tier => s!"tier {tier} is not enabled"
  | .disabled => "compilation is disabled"
  | .stopped => "compilation is stopped"
  | .classNotInitialized name => "class " ++ name ++ " is not initialized"
  | .nativeLookupOnCompiler => "native lookup on a compiler thread"
  | .disabledWhileWaiting => "compilation was disabled while waiting"
  | .invalidConfig fault => "invalid configuration: " ++ fault.message
  | .other text => text

/-- What has run out. -/
inductive Shortage where
  /-- As many tasks are live as may be. -/
  | taskLimit (limit : UInt64)
  /-- The threads of a tier could not be started. -/
  | threads (tier : Tier) (reason : String)
  /-- Another cause. -/
  | other (text : String)
  deriving Repr, DecidableEq

/-- The text of a shortage. -/
def Shortage.text : Shortage → String
  | .taskLimit limit => s!"compile task limit of {limit} reached"
  | .threads tier reason => s!"failed to start compiler threads for tier {tier}: {reason}"
  | .other text => text

/-- Why a tier has no working back-end. -/
inductive InitFailure where
  /-- None is registered for the tier. -/
  | noCompiler (tier : Tier)
  /-- It failed to start, with a message. -/
  | failed (message : String)
  /-- Another cause. -/
  | other (text : String)
  deriving Repr, DecidableEq

/-- The text of a failure to initialize. -/
def InitFailure.text : InitFailure → String
  | .noCompiler tier => s!"no compiler registered for tier {tier}"
  | .failed message => "Compiler initialization failed: " ++ message
  | .other text => text

/-- Why a request produced no new code. -/
inductive BrokerError where
  /-- The method of this name is already queued or being compiled. -/
  | alreadyInProgress (method : String)
  /-- There is code already. -/
  | alreadyComplete
  /-- The method must not be compiled. -/
  | prohibited (cause : Prohibition)
  /-- Something has run out. -/
  | outOfResources (cause : Shortage)
  /-- The back-end gave up this time. -/
  | compilerBailout (text : String)
  /-- The back-end will never compile the method. -/
  | compilerPermanentFailure (text : String)
  /-- A segment of the code cache has no room. -/
  | codeCacheExhausted (kind : BlobKind)
  /-- The back-end of the tier did not start. -/
  | backendInitFailure (cause : InitFailure)
  /-- The task was taken off its queue before it ran. -/
  | stale
  /-- The broker takes no work. -/
  | unavailable (cause : Unavailability)
  deriving Repr, DecidableEq

namespace BrokerError

/-- The name of the kind. -/
def kind : BrokerError → String
  | .alreadyInProgress _ => "AlreadyInProgress"
  | .alreadyComplete => "AlreadyComplete"
  | .prohibited _ => "Prohibited"
  | .outOfResources _ => "OutOfResources"
  | .compilerBailout _ => "CompilerBailout"
  | .compilerPermanentFailure _ => "CompilerPermanentFailure"
  | .codeCacheExhausted _ => "CodeCacheExhausted"
  | .backendInitFailure _ => "BackendInitFailure"
  | .stale => "Stale"
  | .unavailable _ => "Unavailable"

/-- The text of the error. -/
def message : BrokerError → String
  | .alreadyInProgress method => "Compilation already in progress for " ++ method
  | .alreadyComplete => "Method is already compiled at this tier"
  | .prohibited cause => "Compilation prohibited: " ++ cause.text
  | .outOfResources cause => "Out of resources: " ++ cause.text
  | .compilerBailout text => "Compiler bailout: " ++ text
  | .compilerPermanentFailure text => "Permanent compiler failure: " ++ text
  | .codeCacheExhausted kind => "Code cache exhausted (" ++ kind.label ++ ")"
  | .backendInitFailure cause => "Backend initialization failed: " ++ cause.text
  | .stale => "stale task"
  | .unavailable cause => "Compilation unavailable: " ++ cause.text

/-- Whether the error is part of normal operation. -/
def isSilent : BrokerError → Bool
  | .alreadyInProgress _ | .alreadyComplete | .prohibited _ => true
  | _ => false

end BrokerError

end JitBroker
