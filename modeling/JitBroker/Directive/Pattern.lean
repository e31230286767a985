/-!
# Method patterns

A pattern names methods by class and method name, `Class::method` or `Class.method`, where either
part may begin or end with stars. A star stands for any text, so a part with stars at both ends
asks for its core anywhere in the name. Stars between other characters are refused.

The parts are separated by the first `::` or, in a text without one, by the last dot. Patterns are
printed with `::` and one star for each run of stars.
-/

namespace JitBroker

/-- A pattern for one name. -/
inductive NamePattern where
  /-- Every name. -/
  | any
  /-- This name. -/
  | exactly (core : List Char)
  /-- The names that begin with the core. -/
  | beginning (core : List Char)
  /-- The names that end with the core. -/
  | ending (core : List Char)
  /-- The names that hold the core. -/
  | holding (core : List Char)
  deriving Repr, DecidableEq

/-- Whether `core` occurs somewhere in a text. -/
def occursIn (core : List Char) : List Char → Bool
  | [] => core.isEmpty
  | c :: text => core.isPrefixOf (c :: text) || occursIn core text

namespace NamePattern

/-- The text without the stars at its ends. -/
def trimStars (text : List Char) : List Char :=
  ((text.dropWhile (· == '*')).reverse.dropWhile (· == '*')).reverse

/-- Reads a pattern. There is none for the empty text, nor for one with a star between two other
characters. -/
def parse? (text : List Char) : Option NamePattern :=
  let core := trimStars text
  if text.isEmpty || core.contains '*' then none
  else if core.isEmpty then some .any
  else match text.head? == some '*', text.getLast? == some '*' with
    | true, true => some (.holding core)
    | true, false => some (.ending core)
    | false, true => some (.beginning core)
    | false, false => some (.exactly core)

/-- Whether a name matches. -/
def accepts (name : List Char) : NamePattern → Bool
  | .any => true
  | .exactly core => name == core
  | .beginning core => core.isPrefixOf name
  | .ending core => core.isSuffixOf name
  | .holding core => occursIn core name

/-- The text of a pattern. -/
def toChars : NamePattern → List Char
  | .any => ['*']
  | .exactly core => core
  | .beginning core => core ++ ['*']
  | .ending core => '*' :: core
  | .holding core => '*' :: (core ++ ['*'])

end NamePattern

/-- The text before and after the first `::`. -/
def splitAtColons : List Char → Option (List Char × List Char)
  | ':' :: ':' :: rest => some ([], rest)
  | c :: rest => (splitAtColons rest).map fun (l, r) => (c :: l, r)
  | [] => none

/-- The text before and after the last dot. -/
def splitAtLastDot : List Char → Option (List Char × List Char)
  | [] => none
  | c :: rest =>
    match splitAtLastDot rest with
    | some (l, r) => some (c :: l, r)
    | none => if c = '.' then some ([], rest) else none

/-- A pattern for methods. -/
structure MethodPattern where
  /-- The pattern for the name of the class. -/
  className : NamePattern
  /-- The pattern for the name of the method. -/
  method : NamePattern
  deriving Repr, DecidableEq

namespace MethodPattern

/-- The two parts of a text: separated by the first `::`, else by the last dot. -/
def split (text : List Char) : Option (List Char × List Char) :=
  splitAtColons text <|> splitAtLastDot text

/-- Reads a pattern. -/
def parse? (text : List Char) : Option MethodPattern := do
  let (c, m) ← split text
  return ⟨← NamePattern.parse? c, ← NamePattern.parse? m⟩

/-- The pattern of every method. -/
def any : MethodPattern := ⟨.any, .any⟩

/-- Whether a method, given by the names of its class and its own, matches. -/
def accepts (p : MethodPattern) (className method : List Char) : Bool :=
  p.className.accepts className && p.method.accepts method

/-- The text of a pattern. -/
def toChars (p : MethodPattern) : List Char := p.className.toChars ++ ':' :: ':' :: p.method.toChars

/-- The text of a pattern, as a string. -/
def text (p : MethodPattern) : String := String.ofList p.toChars

end MethodPattern

end JitBroker
