import JitBroker.CodeCache
import JitBroker.Tier

/-!
# Classes, methods and their code

The broker looks at a method through a small compile record: whether it is queued, the tiers it
must not be compiled at, and the code installed for it. There is one slot for standard code,
entered at the start of the method, and a list of codes entered in the middle of a loop (on-stack
replacement, OSR), each with the bytecode index of its entry.

Installing standard code overwrites the slot; installing OSR code adds to the list. Code stays
attached until it is detached; making it not entrant only stops new entries.
-/

namespace JitBroker

/-- Numbers of classes. -/
abbrev ClassId := Nat

/-- Numbers of methods. -/
abbrev MethodId := Nat

/-- The entry index that means the start of the method. -/
def invocationEntry : Int := -1

/-- A class, as the broker sees it. -/
structure ClassInfo where
  /-- The name of the class. -/
  name : String
  /-- Whether its initializer has run. -/
  initialized : Bool := true
  /-- Whether it has been unloaded. -/
  unloaded : Bool := false
  deriving Repr, DecidableEq, Inhabited

/-- Code installed for a method. -/
structure InstalledCode where
  /-- The number of the compile that produced it. -/
  compileId : UInt32
  /-- The tier it was compiled at. -/
  tier : Tier
  /-- The bytecode index of its entry. -/
  entryBci : Int
  /-- The space it occupies. -/
  region : Region
  /-- The size of its instructions. -/
  instructionsSize : UInt64
  /-- Whether new invocations may enter it. -/
  entrant : Bool := true
  deriving Repr, DecidableEq, Inhabited

namespace InstalledCode

/-- Whether the code is entered in the middle of a loop. -/
def isOsr (c : InstalledCode) : Bool := c.entryBci != invocationEntry

/-- The bytes the code occupies. -/
def totalSize (c : InstalledCode) : UInt64 := c.region.size

/-- The code, closed to new entries. -/
def close (c : InstalledCode) : InstalledCode := { c with entrant := false }

end InstalledCode

/-- A method, as the broker sees it. -/
structure Method where
  /-- The name within its class. -/
  name : String
  /-- The declaring class. -/
  holder : ClassId := 0
  /-- The name of the declaring class. -/
  className : String
  /-- The length of its bytecode. -/
  bytecodeSize : UInt64 := 32
  /-- Whether it is implemented natively. -/
  isNative : Bool := false
  /-- Whether looking up the native entry succeeds. -/
  linkable : Bool := true
  /-- Whether it has no body. -/
  isAbstract : Bool := false
  /-- Whether it is a method-handle intrinsic. -/
  isIntrinsic : Bool := false
  /-- Whether the native entry has been looked up. -/
  linked : Bool := false
  /-- Whether a compile of it is queued or running. -/
  queued : Bool := false
  /-- The tiers at which it must not be compiled. -/
  notCompilable : TierSet := .none
  /-- The tiers at which it must not be compiled for an OSR entry. -/
  notOsrCompilable : TierSet := .none
  /-- Whether a redefinition of the class has replaced it. -/
  isOld : Bool := false
  /-- Whether a debugger has set a breakpoint in it. -/
  hasBreakpoints : Bool := false
  /-- The standard code. -/
  code : Option InstalledCode := none
  /-- The OSR codes, oldest first. -/
  osrCodes : List InstalledCode := []
  deriving Repr, DecidableEq, Inhabited

namespace Method

/-- The name of the class and of the method. -/
def fullName (m : Method) : String := m.className ++ "::" ++ m.name

/-- The method as it is when it becomes known: nothing of it is queued, ruled out or installed. -/
def fresh (m : Method) : Method where
  name := m.name
  holder := m.holder
  className := m.className
  bytecodeSize := m.bytecodeSize
  isNative := m.isNative
  linkable := m.linkable
  isAbstract := m.isAbstract
  isIntrinsic := m.isIntrinsic

/-- Looks up the native entry and tells whether that succeeded. -/
def linkNative (m : Method) : Bool × Method :=
  if m.isNative && m.linkable then (true, { m with linked := true }) else (false, m)

/-! ### Marks -/

/-- Whether compiling the method at a tier, for an OSR entry or not, is ruled out. -/
def isProhibited (m : Method) (osr : Bool) (t : Tier) : Bool :=
  if osr then m.notOsrCompilable.has t else m.notCompilable.has t

/-- Rules out one tier, for OSR entries or for the standard entry. -/
def prohibit (m : Method) (osr : Bool) (t : Tier) : Method :=
  if osr then { m with notOsrCompilable := m.notOsrCompilable.mark t }
  else { m with notCompilable := m.notCompilable.mark t }

/-- Rules out every tier for every entry. -/
def prohibitAll (m : Method) : Method :=
  { m with notCompilable := .all, notOsrCompilable := .all }

/-! ### Code -/

/-- Every code attached to the method: the standard one, then the OSR ones. -/
def codes (m : Method) : List InstalledCode := m.code.toList ++ m.osrCodes

/-- Whether an OSR code may answer for an entry at a tier: exactly that tier, or at least that
tier. -/
def answersOsr (bci : Int) (t : Tier) (exact : Bool) (c : InstalledCode) : Bool :=
  c.entryBci == bci && c.entrant && (if exact then c.tier == t else decide (t ≤ c.tier))

/-- The later of the codes of the highest tier. -/
def highest : List InstalledCode → Option InstalledCode :=
  List.foldl (fun best c =>
    match best with
    | some b => if b.tier ≤ c.tier then some c else some b
    | none => some c) none

/-- The entrant OSR code for an entry, the best one if several answer. -/
def osrCode? (m : Method) (bci : Int) (t : Tier) (exact : Bool) : Option InstalledCode :=
  highest (m.osrCodes.filter (answersOsr bci t exact))

/-- The code that makes a request for an entry and a tier complete: entrant standard code of just
this tier, or OSR code of this tier or a higher one. -/
def compiledCode? (m : Method) (bci : Int) (t : Tier) : Option InstalledCode :=
  if bci = invocationEntry then m.code.filter fun c => c.tier == t && c.entrant
  else m.osrCode? bci t false

/-- Attaches code. -/
def install (m : Method) (c : InstalledCode) : Method :=
  if c.isOsr then { m with osrCodes := m.osrCodes ++ [c] } else { m with code := some c }

/-- Detaches the code for an entry and a tier, if there is one, and closes it. -/
def detach (m : Method) (bci : Int) (t : Tier) : Option InstalledCode × Method :=
  if bci = invocationEntry then
    match m.code with
    | some c => if c.tier = t then (some c.close, { m with code := none }) else (none, m)
    | none => (none, m)
  else
    match m.osrCodes.find? (fun c => c.entryBci == bci && c.tier == t) with
    | some c =>
      (some c.close,
        { m with osrCodes := m.osrCodes.eraseP (fun c => c.entryBci == bci && c.tier == t) })
    | none => (none, m)

/-- The method with one of its attached codes closed; a code is known by its region. -/
def closeCode (m : Method) (region : Nat) : Method :=
  let close (c : InstalledCode) := if c.region.id = region then c.close else c
  { m with code := m.code.map close, osrCodes := m.osrCodes.map close }

end Method

end JitBroker
