import JitBroker.Directive
import JitBroker.Json.Reader

/-!
# Directive files

A directive file is a JSON object or a list of such objects. The field `match` holds one pattern
or several, and the fields named in `OptionOverrides` set the policy, null meaning that a policy is
left alone. The sections `c1` and `c2` may set it again for their family. Every other field is an
option for the back-end, and the options of a section are added to those of the object.

A field that the format names may occur only once in an object; of other fields with one name the
last counts.
-/

namespace JitBroker

/-- What an object or a section sets; what it leaves alone is inherited. -/
structure OptionOverrides where
  /-- See `Directive.enable`. -/
  enable : Option Bool := none
  /-- See `Directive.exclude`. -/
  exclude : Option Bool := none
  /-- See `Directive.breakAtCompile`. -/
  breakAtCompile : Option Bool := none
  /-- See `Directive.log`. -/
  log : Option Bool := none
  /-- See `Directive.backgroundCompilation`. -/
  backgroundCompilation : Option Bool := none
  /-- See `Directive.repeatCompilation`. -/
  repeatCompilation : Option UInt32 := none
  /-- Options for the back-end. -/
  other : List (String × Json) := []

namespace OptionOverrides

/-- The names of the fields that set the policy. -/
def names : List String :=
  ["Enable", "Exclude", "BreakAtCompile", "Log", "BackgroundCompilation", "RepeatCompilation"]

/-- The directive with what is set replaced and the options added. -/
def apply (o : OptionOverrides) (d : Directive) : Directive where
  enable := o.enable.getD d.enable
  exclude := o.exclude.getD d.exclude
  breakAtCompile := o.breakAtCompile.getD d.breakAtCompile
  log := o.log.getD d.log
  backgroundCompilation := o.backgroundCompilation <|> d.backgroundCompilation
  repeatCompilation := o.repeatCompilation.getD d.repeatCompilation
  options := o.other.foldl (fun options (k, v) => Json.insertField k v.normalize options) d.options

/-- The values of the fields of one name. -/
def valuesOf (name : String) (fields : List (String × Json)) : List Json :=
  (fields.filter (·.1 == name)).map (·.2)

/-- A field that may occur once: its value, if it is there and not null. -/
def single? (name : String) (fields : List (String × Json)) : Option (Option Json) :=
  match valuesOf name fields with
  | [] => some none
  | [.null] => some none
  | [v] => some (some v)
  | _ => none

/-- A truth value that may be left out. -/
def flag? (name : String) (fields : List (String × Json)) : Option (Option Bool) :=
  match single? name fields with
  | some none => some none
  | some (some (.bool b)) => some (some b)
  | _ => none

/-- A number of 32 bits that may be left out. -/
def count? (name : String) (fields : List (String × Json)) : Option (Option UInt32) :=
  match single? name fields with
  | some none => some none
  | some (some (.int n)) =>
    if 0 ≤ n ∧ n < UInt32.size then some (some (UInt32.ofNat n.toNat)) else none
  | _ => none

/-- Reads the fields of an object or a section. -/
def ofFields? (fields : List (String × Json)) : Option OptionOverrides := do
  return {
    enable := ← flag? "Enable" fields
    exclude := ← flag? "Exclude" fields
    breakAtCompile := ← flag? "BreakAtCompile" fields
    log := ← flag? "Log" fields
    backgroundCompilation := ← flag? "BackgroundCompilation" fields
    repeatCompilation := ← count? "RepeatCompilation" fields
    other := fields.filter fun f => !names.contains f.1 }

/-- Reads a section that may be left out. -/
def section? (name : String) (fields : List (String × Json)) : Option OptionOverrides :=
  match single? name fields with
  | some none => some {}
  | some (some (.obj inner)) => ofFields? inner
  | _ => none

end OptionOverrides

/-- A directive set as a file writes it, its patterns not yet read. -/
structure DirectiveEntry where
  /-- The texts of the patterns. -/
  patterns : List String
  /-- What the object sets. -/
  common : OptionOverrides
  /-- What the section of the profiling compiler sets. -/
  c1 : OptionOverrides
  /-- What the section of the optimizing compiler sets. -/
  c2 : OptionOverrides

namespace DirectiveEntry

/-- The texts in a list of texts. -/
def texts? : List Json → Option (List String)
  | [] => some []
  | .str s :: rest => (texts? rest).map (s :: ·)
  | _ :: _ => none

/-- One text, or the texts in a list. -/
def patterns? : Json → Option (List String)
  | .str s => some [s]
  | .arr items => texts? items
  | _ => none

/-- Reads an entry. -/
def ofJson? : Json → Option DirectiveEntry
  | .obj fields => do
    let common ← OptionOverrides.ofFields?
      (fields.filter fun f => !(["match", "c1", "c2"].contains f.1))
    let c1 ← OptionOverrides.section? "c1" fields
    let c2 ← OptionOverrides.section? "c2" fields
    match OptionOverrides.valuesOf "match" fields with
    | [v] => return ⟨← patterns? v, common, c1, c2⟩
    | _ => none
  | _ => none

/-- The set that an entry stands for. -/
def resolve (e : DirectiveEntry) : Except DirectiveError DirectiveSet := do
  if e.patterns.isEmpty then throw .noPatterns
  let patterns ← e.patterns.mapM MethodPattern.read
  let common := e.common.apply {}
  return ⟨patterns, e.c1.apply common, e.c2.apply common⟩

end DirectiveEntry

namespace DirectiveSet

/-- The entries of a file: those of a list, or the one object. -/
def entries? : Json → Option (List DirectiveEntry)
  | .arr items => items.mapM DirectiveEntry.ofJson?
  | v => (DirectiveEntry.ofJson? v).map ([·])

/-- The sets of a file, given its value. -/
def ofJson (v : Json) : Except DirectiveError (List DirectiveSet) :=
  match entries? v with
  | some entries => entries.mapM DirectiveEntry.resolve
  | none => .error .malformed

/-- The sets of a file, given its text and a reader of JSON documents. -/
def ofText (read : String → Option Json) (text : String) :
    Except DirectiveError (List DirectiveSet) :=
  match read text with
  | some v => ofJson v
  | none => .error .malformed

end DirectiveSet

end JitBroker
