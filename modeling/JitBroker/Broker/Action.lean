import JitBroker.Broker
import JitBroker.Compilation

/-!
# Actions

What a thread still has to do is a list of actions, its agenda. To run the first of them is one
step: one look at, or one change of, a flag that is read and written without a lock, or one section
under a lock. The step may put further actions in its place; so an action that stands for a longer
piece of work unfolds as it runs, and what is below it in the agenda is what comes after.

Between two steps of a thread any other thread may run. The few locks that are held over several
steps are held in the open: the lock of a queue from a requester's last look at the method to the
arrival of its task, and while a worker looks for one; the lock of the crews while workers are
hired.

The actions come in families, after what they belong to:

* `RequestStep`: making a request and waiting for its task;
* `TaskStep`: completing and freeing tasks;
* `ControlStep`: stopping, restarting, disabling and shutting down, decompiling and replaying;
* `GateStep`: passing the pause gate;
* `WorkerStep`: the life of a worker;
* `CrewStep`: starting and enlarging crews.
-/

namespace JitBroker

/-! ### Requests -/

/-- A request on its way, with what has been found out. -/
structure Inquiry where
  /-- The request. -/
  request : Request
  /-- The unit of its tier. -/
  unit : UnitId
  /-- The directive for it. -/
  directive : Directive := {}
  /-- Whether it will wait. -/
  blocking : Bool := false
  deriving Repr, Inhabited

/-- What a sleeping requester of an external back-end remembers of its progress. -/
structure Watch where
  /-- The last reading. -/
  last : Option UInt64
  /-- How many readings in a row were equal to it. -/
  idle : Nat
  /-- When the next reading is due. -/
  due : Nat
  deriving Repr, DecidableEq, Inhabited

/-- The steps of a request. -/
inductive RequestStep where
  /-- See whether the broker was started and the tier is enabled. -/
  | enter (r : Request)
  /-- See whether the back-end failed to start. -/
  | backend (q : Inquiry)
  /-- See whether compilation is disabled. -/
  | enabled (q : Inquiry)
  /-- See whether jobs are taken. -/
  | accepted (q : Inquiry)
  /-- See whether the method has a body and its class is initialized. -/
  | eligible (q : Inquiry)
  /-- See whether there is code. -/
  | existing (q : Inquiry)
  /-- Look up the directive. -/
  | policy (q : Inquiry)
  /-- See whether directive and marks allow the compile. -/
  | allowed (q : Inquiry)
  /-- See whether a native entry must be looked up. -/
  | native (q : Inquiry)
  /-- Look up the native entry. -/
  | link (q : Inquiry)
  /-- Decide whether to wait. -/
  | mode (q : Inquiry)
  /-- Take the lock of the queue. -/
  | lock (q : Inquiry)
  /-- Under the lock, see once more whether compilation is disabled. -/
  | stillEnabled (q : Inquiry)
  /-- Under the lock, see once more whether there is code. -/
  | stillMissing (q : Inquiry)
  /-- Under the lock, see once more whether directive and marks allow the compile. -/
  | stillAllowed (q : Inquiry)
  /-- Under the lock, claim the method. -/
  | claim (q : Inquiry)
  /-- Under the lock, draw a number. -/
  | number (q : Inquiry)
  /-- Under the lock, mark a method whose number is outside the window. -/
  | exclude (q : Inquiry) (id : UInt32)
  /-- Under the lock, give the claim back and refuse the request. -/
  | unclaim (q : Inquiry) (error : BrokerError)
  /-- Under the lock, get a task. -/
  | allocate (q : Inquiry) (id : UInt32)
  /-- Under the lock, set the claim again for the task. -/
  | stamp (q : Inquiry) (t : TaskId)
  /-- Under the lock, add the task to the queue, and leave the lock. -/
  | append (q : Inquiry) (t : TaskId)
  /-- Begin to wait for the task. -/
  | attend (q : Inquiry) (t : TaskId)
  /-- Sleep until the bell of the task rings, or the next reading of the progress is due. -/
  | asleep (q : Inquiry) (t : TaskId) (bell : Nat) (watch : Option Watch)
  /-- Take the result. -/
  | collect (q : Inquiry) (t : TaskId)
  /-- Answer with the code or the failure. -/
  | conclude (q : Inquiry) (id : UInt32) (result : TaskResult)
  deriving Repr, Inhabited

/-! ### Tasks -/

/-- The steps that end a task. -/
inductive TaskStep where
  /-- Give back the claim of a task that will not run. -/
  | unmark (t : TaskId)
  /-- Write the reason of a task that will not run. -/
  | spoil (t : TaskId)
  /-- Count a task that will not run. -/
  | count
  /-- Publish the result, and wake the requester or free the task. -/
  | complete (t : TaskId) (who : FreedBy)
  /-- Free the task. -/
  | free (t : TaskId) (who : FreedBy)
  /-- Wake the requester. -/
  | wake (t : TaskId)
  deriving Repr, DecidableEq, Inhabited

/-- The steps that end a task which will not run. -/
def TaskStep.stale (t : TaskId) : List TaskStep := [.unmark t, .spoil t, .count, .complete t .stale]

/-! ### Control -/

/-- The steps that stop and restart the broker, and those of decompilation and replay. -/
inductive ControlStep where
  /-- See whether jobs are stopped for want of code space. -/
  | restart (u : UnitId)
  /-- See whether the segment of the unit has room again. -/
  | room (u : UnitId)
  /-- Let jobs go on. -/
  | resume
  /-- Count a restart. -/
  | countRestart
  /-- Count a full segment. -/
  | full (kind : BlobKind)
  /-- Stop jobs, or disable compilation, for want of code space. -/
  | react
  /-- Count a stop. -/
  | countStop
  /-- Disable compilation for good. -/
  | disable
  /-- Take every task off a queue. -/
  | drain (u : UnitId)
  /-- Wake the workers of a unit. -/
  | ring (u : UnitId)
  /-- List the workers whose requesters must be woken. -/
  | rouse
  /-- See which task a worker is at work on. -/
  | nudge (w : WorkerId)
  /-- Shut the broker down. -/
  | shutdown
  /-- List the workers to wait for. -/
  | joinAll
  /-- Wait until a worker has left. -/
  | join (w : WorkerId)
  /-- Stop or take up jobs by hand. -/
  | accept (on : Bool)
  /-- Detach code. -/
  | detach (d : Decompilation)
  /-- Give back the space of detached code. -/
  | release (d : Decompilation) (region : Nat)
  /-- Record a decompilation. -/
  | record (d : Decompilation)
  /-- Close the window of the recorder. -/
  | replay
  /-- Request the recorded methods. -/
  | again (rest : List Decompilation) (summary : ReplaySummary)
  /-- Count the request just made. -/
  | tally (rest : List Decompilation) (summary : ReplaySummary)
  deriving Repr, DecidableEq, Inhabited

/-! ### The gate -/

/-- The steps at the pause gate. -/
inductive GateStep where
  /-- See whether a pause is asked for. -/
  | poll
  /-- Park, if a guard is alive. -/
  | park
  /-- Sleep until the bell of the gate rings. -/
  | parked (bell : Nat)
  deriving Repr, DecidableEq, Inhabited

/-! ### Workers -/

/-- A compile under way. -/
structure CompileRun where
  /-- The unit. -/
  unit : UnitId
  /-- The task. -/
  task : TaskId
  /-- The directive. -/
  directive : Directive
  /-- Whether the compile is logged. -/
  logged : Bool
  /-- When it began. -/
  startedAt : Nat
  /-- How many runs without installation come before the last one. -/
  repeats : Nat
  /-- What the back-end has reported in this run. -/
  report : CompileReport := {}
  /-- The bytes of scratch memory in use. -/
  arena : UInt64 := 0
  deriving Repr, Inhabited

/-- Whether code is to be installed in this run. -/
def CompileRun.installs (c : CompileRun) : Bool := c.repeats == 0

/-- A compile whose result is known. -/
structure Finished where
  /-- The unit. -/
  unit : UnitId
  /-- The task. -/
  task : TaskId
  /-- Whether the compile is logged. -/
  logged : Bool
  /-- When it began. -/
  startedAt : Nat
  /-- The result. -/
  result : TaskResult
  /-- How far the failure reaches, if the back-end reported one. -/
  scope : Option FailureScope := none
  /-- Whether the compile was invalidated. -/
  invalidated : Bool := false
  /-- How long it took. -/
  elapsed : Nat := 0
  deriving Repr, DecidableEq, Inhabited

/-- The compile with a failure that the worker found. -/
def CompileRun.refuse (c : CompileRun) (reason : FailureReason) : Finished where
  unit := c.unit
  task := c.task
  logged := c.logged
  startedAt := c.startedAt
  result := { failure := some reason }

/-- The compile with the result that follows from the reports. -/
def CompileRun.finished (c : CompileRun) : Finished where
  unit := c.unit
  task := c.task
  logged := c.logged
  startedAt := c.startedAt
  result := c.report.result c.arena
  scope := c.report.scope
  invalidated := c.report.invalidated

/-- The steps of a worker. -/
inductive WorkerStep where
  /-- Start the back-end, or wait until it is started. -/
  | start
  /-- The back-end is starting. -/
  | starting
  /-- Begin a round. -/
  | round
  /-- Take the lock of the queue. -/
  | fetch
  /-- Under the lock, see whether to leave. -/
  | staying
  /-- Under the lock, choose a task. -/
  | choose
  /-- Take the lock once more to leave with a task. -/
  | leave (t : TaskId)
  /-- Say that there is no work. -/
  | rest
  /-- Take the lock once more after that. -/
  | look
  /-- Under the lock, see once more whether to leave. -/
  | lookStaying
  /-- Under the lock, go to sleep if there is still no work. -/
  | lookEmpty
  /-- Sleep until the bell of the queue rings, or the time is over. -/
  | asleep (bell : Nat) (due : Nat)
  /-- Under the lock after the time is over, see whether there is still no work. -/
  | overdue
  /-- Retire, if that is allowed. -/
  | retire
  /-- Take the lock once more to leave for good. -/
  | retired
  /-- Leave. -/
  | quit
  /-- Take up a task. -/
  | adopt (t : TaskId)
  /-- Show the task. -/
  | take (t : TaskId)
  /-- Look up the directive. -/
  | consult (t : TaskId)
  /-- Log the begin of the compile. -/
  | begin (c : CompileRun)
  /-- See whether the method has breakpoints. -/
  | examine (c : CompileRun)
  /-- See whether jobs are still taken. -/
  | clear (c : CompileRun)
  /-- Give the claim back without compiling. -/
  | giveUp (c : CompileRun)
  /-- The back-end is at work. -/
  | compile (c : CompileRun)
  /-- Attach code to the method. -/
  | attach (c : CompileRun) (code : InstalledCode)
  /-- Judge the reports of the back-end. -/
  | judge (c : CompileRun)
  /-- Mark the method, or count the compile for the back-end. -/
  | rule (f : Finished)
  /-- Count the compile. -/
  | count (f : Finished)
  /-- Post the event of the compile. -/
  | announce (f : Finished)
  /-- Log the end of the compile. -/
  | close (f : Finished)
  /-- Show no task any more. -/
  | drop (f : Finished)
  /-- Give the claim back. -/
  | unmark (f : Finished)
  /-- Write the result. -/
  | publish (f : Finished)
  /-- Note the time, and go on. -/
  | settle
  deriving Repr, Inhabited

/-! ### Crews -/

/-- The steps that start and enlarge crews. -/
inductive CrewStep where
  /-- See whether the crew has its full size. -/
  | grow (u : UnitId)
  /-- Look at the queue. -/
  | depth (u : UnitId) (current : Nat)
  /-- Look at the code cache, and compute the number of workers there should be. -/
  | weigh (u : UnitId) (current : Nat) (queued : UInt64)
  /-- Take the lock of the crews, unless somebody has it. -/
  | expand (u : UnitId) (desired : Nat)
  /-- Under the lock, hire one worker after the other. -/
  | hire (u : UnitId) (desired : Nat)
  /-- Take the lock of the crews to start the crew of the first of these units. -/
  | launch (units : List UnitId)
  /-- Under the lock, start so many workers, and then the crews of other units. -/
  | staff (u : UnitId) (count : Nat) (rest : List UnitId)
  /-- The broker is started. -/
  | open
  deriving Repr, DecidableEq, Inhabited

/-! ### Agendas -/

/-- What an agenda that has run down leaves behind. -/
inductive Reply where
  /-- The call is over. -/
  | done
  /-- The call is over, with a truth value. -/
  | flag (b : Bool)
  /-- The outcome of a request. -/
  | outcome (o : Outcome)
  /-- The outcome of a replay. -/
  | replayed (s : ReplaySummary)
  /-- The recorder was misused. -/
  | misused (e : RecorderError)
  /-- Code was installed. -/
  | code (c : InstalledCode)
  /-- Something was refused. -/
  | refused (e : BrokerError)
  deriving Repr, DecidableEq, Inhabited

/-- What a thread may have to do. -/
inductive Action where
  /-- A step of a request. -/
  | request (s : RequestStep)
  /-- A step that ends a task. -/
  | task (s : TaskStep)
  /-- A step of control. -/
  | control (s : ControlStep)
  /-- A step at the gate. -/
  | gate (s : GateStep)
  /-- A step of a worker. -/
  | worker (w : WorkerId) (s : WorkerStep)
  /-- A step that enlarges a crew. -/
  | crew (s : CrewStep)
  /-- The answer to what was done. -/
  | answer (r : Reply)
  /-- The thread has met a state that must not occur, and stands still. -/
  | fault
  deriving Repr, Inhabited

/-- The actions that end a task which will not run. -/
def Action.stale (t : TaskId) : List Action := (TaskStep.stale t).map .task

/-! ### What comes from outside -/

/-- What may be done to the broker at any time, each in one step. -/
inductive Operation where
  /-- A class becomes known. -/
  | addClass (c : ClassInfo)
  /-- A method becomes known. -/
  | addMethod (m : Method)
  /-- The initializer of a class has run. -/
  | initializeClass (c : ClassId)
  /-- A class is unloaded. -/
  | unloadClass (c : ClassId)
  /-- A method is redefined. -/
  | redefine (m : MethodId)
  /-- Breakpoints are set or cleared. -/
  | breakpoints (m : MethodId) (present : Bool)
  /-- The native entry of a method is looked up. -/
  | link (m : MethodId)
  /-- A tier is ruled out for a method. -/
  | prohibit (m : MethodId) (osr : Bool) (tier : Tier)
  /-- Every tier is ruled out for a method. -/
  | prohibitAll (m : MethodId)
  /-- Code of a method is closed to new entries. -/
  | close (m : MethodId) (region : Nat)
  /-- A directive set is pushed. -/
  | pushDirectives (sets : List DirectiveSet)
  /-- Directive sets are popped. -/
  | popDirectives (count : Nat)
  /-- A pause is asked for. -/
  | pause
  /-- A guard is dropped. -/
  | unpause
  /-- A window of the recorder is opened. -/
  | startRecording
  /-- A decompilation is recorded by hand. -/
  | record (d : Decompilation)
  /-- A compile number is drawn. -/
  | drawId (kind : IdKind)
  /-- The free memory changes. -/
  | setMemory (bytes : UInt64)
  /-- Time passes. -/
  | pass (time : Nat)
  deriving Repr, Inhabited

/-- What a thread may be asked to do. -/
inductive Call where
  /-- A request. -/
  | request (r : Request)
  /-- A decompilation. -/
  | decompile (d : Decompilation)
  /-- Disabling compilation. -/
  | disable
  /-- Shutting down. -/
  | shutdown
  /-- Saying that a segment is full. -/
  | cacheFull (kind : BlobKind)
  /-- Stopping or taking up jobs by hand. -/
  | accept (on : Bool)
  /-- Replaying what was recorded. -/
  | replay
  deriving Repr, DecidableEq, Inhabited

/-- The agenda of a call. -/
def Call.agenda : Call → List Action
  | .request r => [.request (.enter r)]
  | .decompile d => [.control (.detach d)]
  | .disable => [.control .disable, .answer .done]
  | .shutdown => [.control .shutdown, .answer .done]
  | .cacheFull kind => [.control (.full kind), .answer .done]
  | .accept on => [.control (.accept on), .answer .done]
  | .replay => [.control .replay]

/-- What a back-end does next, while it compiles. -/
inductive BackendMove where
  /-- Install code of the given size and size of instructions. -/
  | install (total instructions : UInt64)
  /-- Report the sizes of code that is not installed. -/
  | recordSize (total instructions : UInt64)
  /-- Report a failure. -/
  | fail (reason : FailureReason) (scope : FailureScope)
  /-- Report that what the compile relied on has changed. -/
  | invalidate
  /-- Say something about trying again. -/
  | retryMessage (text : String)
  /-- Report bytecodes inlined. -/
  | inline (count : UInt64)
  /-- Use so much scratch memory. -/
  | arena (bytes : UInt64)
  /-- Pass the pause gate. -/
  | checkpoint
  /-- Call the broker. -/
  | call (c : Call)
  /-- Do something to the broker. -/
  | operate (o : Operation)
  /-- Return. -/
  | finish
  deriving Repr, Inhabited

/-- What is not determined by the broker, for one step. -/
structure Choices where
  /-- Whether a sleeper's time is over. -/
  timeout : Bool := false
  /-- What an external back-end says of its progress. -/
  progress : Option UInt64 := none
  /-- Whether the back-end has started, and how. -/
  started : Option (Except String Unit) := none
  /-- What the back-end does. -/
  move : Option BackendMove := none
  /-- Why a thread cannot be started, if it cannot. -/
  spawnError : Option String := none

/-- What a step knows of its thread. -/
structure Caller where
  /-- The thread. -/
  thread : ThreadId
  /-- Whether it is a compiler thread. -/
  onCompiler : Bool
  /-- How many class initializers it is inside of. -/
  initializers : Nat
  /-- What its agenda last left behind. -/
  reply : Option Reply

/-- What a step leads to. -/
structure Turn where
  /-- The broker after it. -/
  broker : Broker
  /-- The actions in its place. -/
  next : List Action := []
  /-- What is left behind. -/
  reply : Option Reply := none
  /-- A worker whose thread starts. -/
  hired : Option WorkerId := none

namespace Turn

/-- A step that goes on with other actions. -/
def go (b : Broker) (next : List Action) : Option Turn := some { broker := b, next := next }

/-- A step that leaves something behind. -/
def answer (b : Broker) (r : Reply) : Option Turn := some { broker := b, reply := some r }

/-- A step that must not occur. -/
def fault (b : Broker) : Option Turn := go b [.fault]

end Turn

end JitBroker
