import JitBroker.Method

/-!
# Recording decompilations

Around a checkpoint and restore a window may be opened. While it is open, every decompilation is
recorded; when it is closed, the recorded methods are requested again, so that their code need not
wait for the counters to overflow once more.
-/

namespace JitBroker

/-- Misuse of a recorder. -/
inductive RecorderError where
  /-- A window is open already. -/
  | alreadyRecording
  /-- No window is open. -/
  | notRecording
  deriving Repr, DecidableEq

namespace RecorderError

/-- The name of the kind. -/
def kind : RecorderError → String
  | .alreadyRecording => "AlreadyRecording"
  | .notRecording => "NotRecording"

/-- The text of the error. -/
def message : RecorderError → String
  | .alreadyRecording => "A recording window is already open"
  | .notRecording => "No recording window is open"

end RecorderError

/-- A decompilation. -/
structure Decompilation where
  /-- The method. -/
  method : MethodId
  /-- The bytecode index of the entry. -/
  bci : Int
  /-- The tier. -/
  tier : Tier
  deriving Repr, DecidableEq, Inhabited

/-- A recorder. The flag and the list say the same (`Recorder.Consistent`); the list is only used
under a lock, and the flag, which only changes under that lock, is read without it. -/
structure Recorder where
  /-- Whether a window is open. -/
  active : Bool := false
  /-- The decompilations since the window was opened, oldest first, if it is open. -/
  window : Option (List Decompilation) := none
  deriving Repr, DecidableEq, Inhabited

namespace Recorder

/-- Opens a window. -/
def start (r : Recorder) : Except RecorderError Recorder :=
  match r.window with
  | some _ => .error .alreadyRecording
  | none => .ok ⟨true, some []⟩

/-- Whether a window is open. -/
def isRecording (r : Recorder) : Bool := r.active

/-- Records a decompilation, and tells whether a window is open for it. The flag is read before the
lock is taken; if the window is closed between the two, the list tells, and the decompilation comes
after the closing. So one moment answers. -/
def record (r : Recorder) (d : Decompilation) : Bool × Recorder :=
  if r.active then
    match r.window with
    | some ds => (true, { r with window := some (ds ++ [d]) })
    | none => (false, r)
  else (false, r)

/-- The decompilations recorded in the open window. -/
def records (r : Recorder) : List Decompilation := r.window.getD []

/-- Closes the window and gives what it recorded. -/
def finish (r : Recorder) : Except RecorderError (List Decompilation × Recorder) :=
  match r.window with
  | some ds => .ok (ds, ⟨false, none⟩)
  | none => .error .notRecording

/-- The flag tells whether there is a list. -/
def Consistent (r : Recorder) : Prop := r.active = r.window.isSome

end Recorder

/-- What became of the requests for recorded methods. -/
structure ReplaySummary where
  /-- The requests made. -/
  submitted : Nat := 0
  /-- Those of them that were queued. -/
  queued : Nat := 0
  /-- The records left out because their class was unloaded. -/
  skipped : Nat := 0
  deriving Repr, DecidableEq, Inhabited

end JitBroker
