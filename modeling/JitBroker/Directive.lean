import JitBroker.Compiler
import JitBroker.Directive.Pattern
import JitBroker.Json
import JitBroker.Text.Quoted

/-!
# Directives

A directive is the policy for compiling a method: whether to compile at all, whether to log, to
run extra compiles, to make requests wait, and options passed through to the back-end. A directive
set holds the patterns of the methods it is meant for and one directive for each family of
compilers; the external family shares that of the optimizing compiler.
-/

namespace JitBroker

/-- The policy for a method and a compiler. -/
structure Directive where
  /-- Compile at all. -/
  enable : Bool := true
  /-- Never compile; a request marks the method. -/
  exclude : Bool := false
  /-- Report the start of the compile to the debugger. -/
  breakAtCompile : Bool := false
  /-- Log the compile. -/
  log : Bool := false
  /-- Whether requests go on without waiting, if the policy says. -/
  backgroundCompilation : Option Bool := none
  /-- Extra compiles whose result is discarded. -/
  repeatCompilation : UInt32 := 0
  /-- Options for the back-end, in ascending order of names. -/
  options : List (String × Json) := []
  deriving Repr, Inhabited

namespace Directive

mutual

/-- A value in a listing. -/
def showValue : Json → String
  | .null => "Null"
  | .bool b => "Bool(" ++ toString b ++ ")"
  | .int n => "Number(" ++ toString n ++ ")"
  | .float bits => "Number(" ++ Text.formatBits Json.numberFormat bits ++ ")"
  | .str s => "String(" ++ Text.quoted s ++ ")"
  | .arr items => "Array [" ++ ", ".intercalate (showItems items) ++ "]"
  | .obj fields => "Object \x7b" ++ ", ".intercalate (showFields fields) ++ "\x7d"

/-- Items in a listing. -/
def showItems : List Json → List String
  | [] => []
  | v :: rest => showValue v :: showItems rest

/-- Fields in a listing. -/
def showFields : List (String × Json) → List String
  | [] => []
  | (k, v) :: rest => (Text.quoted k ++ ": " ++ showValue v) :: showFields rest

end

/-- A choice that may be left open, in a listing. -/
def showChoice : Option Bool → String
  | none => "None"
  | some b => "Some(" ++ toString b ++ ")"

/-- The directive in a listing. -/
def listing (d : Directive) : String :=
  "Directive \x7b enable: " ++ toString d.enable
    ++ ", exclude: " ++ toString d.exclude
    ++ ", break_at_compile: " ++ toString d.breakAtCompile
    ++ ", log: " ++ toString d.log
    ++ ", background_compilation: " ++ showChoice d.backgroundCompilation
    ++ ", repeat_compilation: " ++ toString d.repeatCompilation
    ++ ", options: \x7b" ++ ", ".intercalate (showFields d.options) ++ "\x7d \x7d"

/-- The directive as a JSON object. -/
def toJson (d : Directive) : Json :=
  .obj [("enable", .bool d.enable), ("exclude", .bool d.exclude),
    ("break_at_compile", .bool d.breakAtCompile), ("log", .bool d.log),
    ("background_compilation", d.backgroundCompilation.elim .null .bool),
    ("repeat_compilation", .int d.repeatCompilation.toNat), ("options", .obj d.options)]

end Directive

/-- Patterns and the policy for the methods that match one of them. -/
structure DirectiveSet where
  /-- The patterns. -/
  patterns : List MethodPattern
  /-- The policy for the profiling compiler. -/
  c1 : Directive
  /-- The policy for the optimizing and the external compiler. -/
  c2 : Directive
  deriving Repr, Inhabited

namespace DirectiveSet

/-- A set with one directive for every family. -/
def uniform (patterns : List MethodPattern) (d : Directive) : DirectiveSet := ⟨patterns, d, d⟩

/-- The set that matches every method and changes nothing. -/
def default : DirectiveSet := uniform [.any] {}

/-- Whether a method matches one of the patterns. -/
def accepts (s : DirectiveSet) (className method : String) : Bool :=
  s.patterns.any (·.accepts className.toList method.toList)

/-- The directive for a family. -/
def forKind (s : DirectiveSet) : CompilerKind → Directive
  | .c1 => s.c1
  | .c2 | .external => s.c2

/-- The set in a listing. -/
def listing (s : DirectiveSet) : String :=
  "Directive: match [" ++ ", ".intercalate (s.patterns.map MethodPattern.text) ++ "]\n  c1: "
    ++ s.c1.listing ++ "\n  c2: " ++ s.c2.listing

end DirectiveSet

/-- Why directives are refused. -/
inductive DirectiveError where
  /-- The text is no JSON, or its values are of the wrong kinds. -/
  | malformed
  /-- A pattern cannot be read. -/
  | invalidPattern (text : String)
  /-- A set has no patterns. -/
  | noPatterns
  /-- The stack has no room. -/
  | stackFull (limit : Nat)
  deriving Repr, DecidableEq

/-- The text of an error. -/
def DirectiveError.message : DirectiveError → String
  | .malformed => "Failed to parse directives"
  | .invalidPattern text => "Invalid method pattern '" ++ text ++ "'"
  | .noPatterns => "Directive has no match patterns"
  | .stackFull limit => s!"Directives stack is full (limit {limit})"

/-- Reads a pattern. -/
def MethodPattern.read (text : String) : Except DirectiveError MethodPattern :=
  match MethodPattern.parse? text.toList with
  | some p => .ok p
  | none => .error (.invalidPattern text)

end JitBroker
