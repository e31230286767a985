import JitBroker.Text.Shortest

/-!
# JSON values

Numbers come in two kinds: integers, and doubles kept as their bits. Objects keep their fields in
the order of the text, so that a reader of a particular kind of file may refuse repeated keys;
`normalize` gives the plain meaning, in which the last of several fields of one name counts and the
fields stand in ascending order of their names.

Text is written compactly (`text`) or over several lines (`pretty`).
-/

namespace JitBroker

/-- A JSON value. -/
inductive Json where
  /-- The null value. -/
  | null
  /-- A truth value. -/
  | bool (b : Bool)
  /-- An integer. -/
  | int (n : Int)
  /-- A double, by its bits. -/
  | float (bits : UInt64)
  /-- A text. -/
  | str (s : String)
  /-- A list. -/
  | arr (items : List Json)
  /-- An object, with its fields in order. -/
  | obj (fields : List (String × Json))
  deriving Repr, Inhabited

namespace Json

/-- Adds a field to fields in ascending order of names, replacing one of the same name. -/
def insertField {α : Type} (key : String) (value : α) : List (String × α) → List (String × α)
  | [] => [(key, value)]
  | (k, v) :: rest =>
    if key < k then (key, value) :: (k, v) :: rest
    else if key = k then (key, value) :: rest
    else (k, v) :: insertField key value rest

/-- The fields in ascending order of names, the last one of each name. -/
def sortFields {α : Type} (fields : List (String × α)) : List (String × α) :=
  fields.foldl (fun sorted (k, v) => insertField k v sorted) []

mutual

/-- The value with every object's fields sorted, the last one of each name kept. -/
def normalize : Json → Json
  | .arr items => .arr (normalizeItems items)
  | .obj fields => .obj (sortFields (normalizeFields fields))
  | v => v

/-- The items, each normalized. -/
def normalizeItems : List Json → List Json
  | [] => []
  | v :: rest => normalize v :: normalizeItems rest

/-- The fields, the value of each normalized. -/
def normalizeFields : List (String × Json) → List (String × Json)
  | [] => []
  | (k, v) :: rest => (k, normalize v) :: normalizeFields rest

end

/-- The last field of the given name, for a value that is an object. -/
def field? (v : Json) (key : String) : Option Json :=
  match v with
  | .obj fields => (fields.reverse.find? (·.1 == key)).map (·.2)
  | _ => none

/-! ### Writing -/

/-- Numbers are positional while the point stands from four zeros after it to sixteen digits before
it, and whole ones end in `.0`; an exponent always has a sign. -/
def numberFormat : Text.DecimalFormat := ⟨-4, 16, ".0", "e", "+"⟩

/-- A digit of a hexadecimal number. -/
def hexDigit (n : Nat) : Char := (Nat.toDigits 16 n).headD '0'

/-- One character of a string: quotes, backslashes and control characters are escaped. -/
def escape (c : Char) : List Char :=
  if c = '"' then ['\\', '"']
  else if c = '\\' then ['\\', '\\']
  else if c = '\n' then ['\\', 'n']
  else if c = '\r' then ['\\', 'r']
  else if c = '\t' then ['\\', 't']
  else if c.toNat = 8 then ['\\', 'b']
  else if c.toNat = 12 then ['\\', 'f']
  else if c.toNat < 32 then ['\\', 'u', '0', '0', hexDigit (c.toNat / 16), hexDigit (c.toNat % 16)]
  else [c]

/-- A string in quotes. -/
def quote (s : String) : String :=
  "\"" ++ String.ofList (s.toList.flatMap escape) ++ "\""

mutual

/-- The compact text of a value. -/
def text : Json → String
  | .null => "null"
  | .bool true => "true"
  | .bool false => "false"
  | .int n => toString n
  | .float bits => Text.formatBits numberFormat bits
  | .str s => quote s
  | .arr items => "[" ++ ",".intercalate (textItems items) ++ "]"
  | .obj fields => "\x7b" ++ ",".intercalate (textFields fields) ++ "\x7d"

/-- The compact texts of the items. -/
def textItems : List Json → List String
  | [] => []
  | v :: rest => text v :: textItems rest

/-- The compact texts of the fields. -/
def textFields : List (String × Json) → List String
  | [] => []
  | (k, v) :: rest => (quote k ++ ":" ++ text v) :: textFields rest

end

/-- A new line, indented. -/
def newLine (depth : Nat) : String := "\n" ++ String.ofList (List.replicate (2 * depth) ' ')

/-- Entries between brackets, one for each line, or just the brackets if there are none. -/
def spread (left right : String) (depth : Nat) : List String → String
  | [] => left ++ right
  | entries =>
    left ++ newLine (depth + 1) ++ ("," ++ newLine (depth + 1)).intercalate entries
      ++ newLine depth ++ right

mutual

/-- The text of a value over several lines, two blanks deeper for each level. -/
def prettyAt (depth : Nat) : Json → String
  | .arr items => spread "[" "]" depth (prettyItems (depth + 1) items)
  | .obj fields => spread "\x7b" "\x7d" depth (prettyFields (depth + 1) fields)
  | v => v.text

/-- The texts of the items. -/
def prettyItems (depth : Nat) : List Json → List String
  | [] => []
  | v :: rest => prettyAt depth v :: prettyItems depth rest

/-- The texts of the fields. -/
def prettyFields (depth : Nat) : List (String × Json) → List String
  | [] => []
  | (k, v) :: rest => (quote k ++ ": " ++ prettyAt depth v) :: prettyFields depth rest

end

/-- The text of a value over several lines. -/
def pretty (v : Json) : String := prettyAt 0 v

end Json

end JitBroker
