import JitBroker.Toml.Reader

/-!
# Texts of TOML documents

Configurations are written and read through some writer and reader of TOML documents, a `Codec`.
The one that is used here (`codec`) writes documents without tables in tables: single values and
empty lists first, on a line each, and then tables and lists of tables under headers. It has no text
for a number beyond `greatestNumber`.
-/

namespace JitBroker.Toml

/-- A writer and a reader of TOML documents. -/
structure Codec where
  /-- The text of a document, if it can be written. -/
  write? : Json → Option String
  /-- The document of a text, if it is one. -/
  read? : String → Option Json

/-- The greatest number that is written. -/
def greatestNumber : Int := 0x7FFFFFFFFFFFFFFF

/-- Whether a value stands on the line of its name. -/
def isInline : Json → Bool
  | .obj _ | .arr (_ :: _) => false
  | _ => true

/-- A line that gives a single value a name. -/
def pairLine? : String × Json → Option String
  | (name, .bool b) => some (name ++ " = " ++ toString b ++ "\n")
  | (name, .int n) =>
    if n ≤ greatestNumber then some (name ++ " = " ++ toString n ++ "\n") else none
  | (name, .str s) => some (name ++ " = " ++ Json.quote s ++ "\n")
  | (name, .arr []) => some (name ++ " = []\n")
  | _ => none

/-- The lines of named single values. -/
def pairLines? (fields : List (String × Json)) : Option String :=
  (fields.mapM pairLine?).map String.join

/-- A table of single values under a header. -/
def section? (header : String) : Json → Option String
  | .obj fields => (pairLines? fields).map fun lines => "\n" ++ header ++ "\n" ++ lines
  | _ => none

/-- The tables of a field, each under its header. -/
def sections? : String × Json → Option String
  | (name, .arr items) => (items.mapM (section? ("[[" ++ name ++ "]]"))).map String.join
  | (name, v) => section? ("[" ++ name ++ "]") v

/-- The text of a document. -/
def toText? : Json → Option String
  | .obj fields => do
    let lines ← pairLines? (fields.filter (isInline ·.2))
    let sections ← (fields.filter (!isInline ·.2)).mapM sections?
    return lines ++ String.join sections
  | _ => none

/-- The writer and the reader that are used. -/
def codec : Codec := ⟨toText?, ofText?⟩

end JitBroker.Toml
