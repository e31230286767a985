import JitBroker.Backend.Stub
import JitBroker.Config.Document
import JitBroker.Directive.Stack

/-!
# Scripts for the test bench

A session on the test bench is a broker together with scripted back-ends, and a list of steps. The
methods of a session go by labels; a label that has not been used before names a new method, whose
class is what stands before the first `::`.
-/

namespace JitBroker.Bench

/-- What may be asked of a method. -/
inductive MethodStep where
  /-- Show it. -/
  | info
  /-- Look up its native entry. -/
  | link
  /-- Redefine it. -/
  | redefine
  /-- Set or clear breakpoints. -/
  | breakpoints (present : Bool)
  /-- Run the initializer of its class. -/
  | initializeClass
  /-- Unload its class. -/
  | unloadClass
  /-- Rule out a tier. -/
  | prohibit (osr : Bool) (tier : Tier)
  /-- Rule out every tier. -/
  | prohibitAll
  /-- Show the standard code. -/
  | code
  /-- Show OSR code. -/
  | osrCode (bci : Int) (tier : Tier) (exact : Bool)
  /-- Close the standard code, or OSR code for an entry. -/
  | close (entry : Option Int) (tier : Tier)
  deriving Repr, Inhabited

/-- A request as a script writes it. -/
structure RequestSpec where
  /-- The label of the method. -/
  label : String
  /-- The bytecode index of the entry. -/
  bci : Int
  /-- The tier. -/
  tier : Tier
  /-- The count that set off the request. -/
  hot : UInt32
  /-- Why the code is wanted. -/
  reason : CompileReason
  /-- Wait for the compile. -/
  blocking : Bool
  /-- How many class initializers the requester is inside of. -/
  initializers : Nat
  /-- Whether a step shows only the code that it got; a script always shows the outcome. -/
  plain : Bool
  deriving Repr, Inhabited

/-- The request for a method. -/
def RequestSpec.request (s : RequestSpec) (m : MethodId) : Request :=
  { method := m, bci := s.bci, tier := s.tier, hot := s.hot, reason := s.reason,
    blocking := s.blocking }

/-- A decompilation as a script writes it. -/
structure DecompileSpec where
  /-- The label of the method. -/
  label : String
  /-- The bytecode index of the entry. -/
  bci : Int
  /-- The tier. -/
  tier : Tier
  deriving Repr, Inhabited

/-- What a scripted compile does. -/
inductive ScriptAction where
  /-- What the stub does. -/
  | stub
  /-- Install code. -/
  | install (total instructions : UInt64)
  /-- Report sizes. -/
  | recordSize (total instructions : UInt64)
  /-- Report a failure. -/
  | fail (reason : String) (scope : FailureScope)
  /-- Report an invalidation. -/
  | invalidate
  /-- Say something about trying again. -/
  | retry (message : String)
  /-- Report bytecodes inlined. -/
  | inline (count : UInt64)
  /-- Resize the scratch memory, and tell its old size. -/
  | arena (bytes : UInt64)
  /-- Tell whether a failure has been reported. -/
  | failing
  /-- Pass the pause gate. -/
  | checkpoint
  /-- Make a request. -/
  | request (r : RequestSpec)
  /-- Decompile. -/
  | decompile (d : DecompileSpec)
  /-- Disable compilation. -/
  | disable
  /-- Say that a segment is full. -/
  | cacheFull (kind : BlobKind)
  /-- Ask something of a method. -/
  | method (label : String) (s : MethodStep)
  /-- Do nothing. -/
  | nothing
  deriving Repr, Inhabited

/-- A directive set as a script writes it. -/
structure SetSpec where
  /-- The texts of the patterns. -/
  patterns : List String
  /-- The directive. -/
  directive : Directive
  /-- Whether the default set is meant instead. -/
  isDefault : Bool
  deriving Repr, Inhabited

/-- What may be asked of a stack of directives. -/
inductive DirectiveStep where
  /-- Push the sets of a file. -/
  | pushText (text : String)
  /-- Push a set. -/
  | push (s : SetSpec)
  /-- Pop sets. -/
  | pop (count : Nat)
  /-- Pop every set. -/
  | clear
  /-- Look up the directive for a method. -/
  | lookup (className method : String) (kind : CompilerKind)
  /-- List the sets. -/
  | list
  deriving Repr, Inhabited

/-- A step of a session. -/
inductive Step where
  /-- Make a request. -/
  | request (r : RequestSpec)
  /-- Make requests for numbered labels, one after the other. -/
  | requestMany (r : RequestSpec) (count : Nat)
  /-- Make requests all at once. -/
  | contend (rs : List RequestSpec)
  /-- Ask something of a method. -/
  | method (label : String) (s : MethodStep)
  /-- Hold compiles from now on. -/
  | hold
  /-- Let one held compile go on. -/
  | release (tier : Option Tier)
  /-- Let every held compile go on, and hold none any more. -/
  | openGate
  /-- Let a back-end start. -/
  | openInit (tier : Tier)
  /-- Let the compiles of a stub go on. -/
  | openStub (tier : Tier)
  /-- Ask for a pause. -/
  | pause
  /-- Drop a guard. -/
  | resume (guard : Nat)
  /-- Show the pause gate. -/
  | gate
  /-- Wait until so many workers are parked. -/
  | waitParked (count ms : Nat)
  /-- Change what a stub does. -/
  | behave (tier : Tier) (s : StubBehavior)
  /-- Script the next compile of a tier. -/
  | script (tier : Tier) (actions : List ScriptAction)
  /-- Decompile. -/
  | decompile (d : DecompileSpec)
  /-- Disable compilation. -/
  | disable
  /-- Shut down. -/
  | shutdown
  /-- Say that a segment is full. -/
  | cacheFull (kind : BlobKind)
  /-- Stop or take up jobs by hand. -/
  | accept (on : Bool)
  /-- Show the state. -/
  | state
  /-- Show the statistics. -/
  | stats
  /-- Show the counters of a queue. -/
  | queueStats (tier : Tier)
  /-- Show the account of tasks. -/
  | pool
  /-- Show a back-end. -/
  | backend (tier : Tier)
  /-- Show a crew. -/
  | workers (tier : Tier)
  /-- Show the size of a crew. -/
  | workerCount (tier : Tier)
  /-- Wait until so many workers are left. -/
  | waitWorkers (tier : Tier) (count : Nat)
  /-- Show the workers that have retired. -/
  | retired
  /-- Show a log. -/
  | log (tier : Tier) (index : Nat)
  /-- List the queues. -/
  | list
  /-- Show the queued methods. -/
  | visit
  /-- Show the code cache. -/
  | cache
  /-- Draw a compile number. -/
  | drawId (kind : IdKind)
  /-- Show the compiles since the last time. -/
  | compiles
  /-- Open a window of the recorder. -/
  | startRecording
  /-- Record a decompilation. -/
  | record (d : DecompileSpec)
  /-- Show the recorder. -/
  | recorder
  /-- Replay what was recorded. -/
  | replay
  /-- Ask something of the directives. -/
  | directive (s : DirectiveStep)
  /-- Subscribe to events. -/
  | subscribe
  /-- Show the events of a subscription. -/
  | drain (subscription : Nat)
  /-- End a subscription. -/
  | unsubscribe (subscription : Nat)
  /-- Enter class initializers, and leave them. -/
  | initializers (depth : Nat)
  /-- Let time pass. -/
  | sleep (ms : Nat)
  /-- Do nothing. -/
  | nothing
  deriving Repr, Inhabited

/-- A method as a session describes it. -/
structure MethodSpec where
  /-- The label. -/
  label : String
  /-- The class, if it is not that of the label. -/
  className : Option String
  /-- The name, if it is not that of the label. -/
  name : Option String
  /-- The length of the bytecode. -/
  size : UInt64
  /-- Whether it is native, and if so, whether its entry can be found. -/
  native : Option Bool
  /-- Whether it has no body. -/
  isAbstract : Bool
  /-- Whether it is a method-handle intrinsic. -/
  isIntrinsic : Bool
  deriving Repr, Inhabited

/-- A back-end as a session describes it. -/
structure BackendSpec where
  /-- Its name. -/
  name : String := "stub"
  /-- Its family, if it is not that of the tier. -/
  kind : Option CompilerKind := none
  /-- What its compiles do. -/
  behavior : StubBehavior := .usual
  /-- The time that a compile takes, in microseconds. -/
  delay : Nat := 0
  /-- Why it fails to start, if it does. -/
  initError : Option String := none
  /-- Whether it waits before it starts. -/
  initGated : Bool := false
  /-- Whether its compiles wait. -/
  stubGated : Bool := false
  /-- Whether it makes no progress. -/
  noProgress : Bool := false
  /-- The greatest progress it tells, if it counts the questions instead of its progress. -/
  ticks : Option UInt64 := none
  deriving Repr, Inhabited

/-- A session. -/
structure Session where
  /-- The configuration. -/
  config : Config
  /-- The methods described. -/
  methods : List MethodSpec
  /-- The classes whose initializers have not run. -/
  uninitialized : List String
  /-- The back-ends described, by tier; none where there is to be no back-end. -/
  backends : List (Tier × Option BackendSpec)
  /-- The bytes of memory that are free. -/
  memory : UInt64
  /-- The sizes of the segments, if they are not the usual ones. -/
  cache : Option (UInt64 × UInt64 × UInt64)
  /-- The limit of the stack of directives, if it is not the usual one. -/
  directivesLimit : Option Nat
  /-- Whether there is a recorder. -/
  hasRecorder : Bool
  /-- The policy of the queues. -/
  selector : Selector
  /-- Whether tasks that wait do not age. -/
  ageless : Bool
  /-- Whether compiles are held from the start. -/
  hold : Bool
  /-- The steps. -/
  steps : List Step
  deriving Inhabited

end JitBroker.Bench
