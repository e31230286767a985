import JitBroker.Broker.Action

/-!
# The stub back-end

A back-end that generates no code and only behaves as if it did, for trying a broker out. Every
compile does the same, in two phases with a pass of the pause gate between them: it uses scratch
memory in proportion to the bytecode, and then either installs code of a given size, three quarters
of it instructions, or fails in a given way.

The quarters are computed in machine words, which wrap before the division.
-/

namespace JitBroker

/-- What the compiles of a stub do. -/
inductive StubBehavior where
  /-- They install code of the given size. -/
  | succeed (codeSize : UInt64)
  /-- They fail. -/
  | bailout
  /-- They fail, and the method cannot be compiled at the tier. -/
  | notAtTier
  /-- They fail, and the method can never be compiled. -/
  | never
  deriving Repr, DecidableEq, Inhabited

namespace StubBehavior

/-- What a stub does unless it is told otherwise. -/
def usual : StubBehavior := .succeed 256

/-- The scratch memory that a compile of a method uses. -/
def scratch (m : Method) : UInt64 := m.bytecodeSize * 8

/-- The size of the instructions in code of a given size. -/
def instructions (codeSize : UInt64) : UInt64 := codeSize * 3 / 4

/-- The last moves of a compile. -/
def moves (s : StubBehavior) (m : Method) (installs : Bool) : List BackendMove :=
  match s with
  | .succeed size =>
    [.inline (m.bytecodeSize / 4),
      if installs then .install size (instructions size) else .recordSize size (instructions size)]
  | .bailout => [.fail (.other "stub bailout") .retry]
  | .notAtTier => [.fail (.other "not compilable at this tier") .notAtTier]
  | .never => [.fail (.other "never compilable") .never]

end StubBehavior

end JitBroker
