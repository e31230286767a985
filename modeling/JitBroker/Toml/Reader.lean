import JitBroker.Toml
import JitBroker.Toml.Scalar

/-!
# Reading TOML documents

The text of a document is read as a sequence of statements, of which `Document.ofStatements?` makes
a value. Lists may run over several lines and end in a comma; inline tables must stand on one line
and may not. Values may be nested, and names may have parts, up to one less than `nestingLimit`.
-/

namespace JitBroker.Toml

/-- Values are nested, and names divided, less than this deep. -/
def nestingLimit : Nat := 80

/-- A name with the tables it lies in. -/
def keyPath? (cs : List Char) : Option (KeyPath × List Char) := do
  let (keys, rest) ← keys? (cs.length + 1) cs
  if nestingLimit ≤ keys.length then none
  else return (⟨keys.dropLast, ← keys.getLast?⟩, rest)

/-- The text after a comment, which begins with its mark and ends with its line. -/
def skipComment : List Char → List Char := List.dropWhile isPlain

/-- The text after blanks, line ends and whole comments. -/
def skipLines : Nat → List Char → List Char
  | 0, cs => cs
  | n + 1, cs =>
    match skipBlanks cs with
    | '#' :: rest =>
      match lineEnd? (skipComment rest) with
      | some rest => skipLines n rest
      | none => '#' :: rest
    | cs =>
      match lineEnd? cs with
      | some rest => skipLines n rest
      | none => cs

mutual

/-- The value at the front of a text, and the rest; `depth` lists and tables may still be opened. -/
def value? : Nat → Nat → List Char → Option (Json × List Char)
  | 0, _, _ => none
  | _, _, [] => none
  | n + 1, depth, c :: rest =>
    if c = '"' ∨ c = '\'' then do
      let (s, rest) ← string? (c :: rest)
      return (.str s, rest)
    else if c = '[' then
      if depth = 0 then none
      else do
        let (items, rest) ← items? n (depth - 1) rest
        return (.arr items, rest)
    else if c = '\x7b' then
      if depth = 0 then none
      else
        match skipBlanks rest with
        | [] => none
        | d :: after =>
          if d = '\x7d' then some (.obj [], after)
          else do
            let (pairs, rest) ← pairs? n (depth - 1) rest
            return (← inlineTable? pairs, rest)
    else if c = 't' then do return (.bool true, ← Json.word? "rue".toList rest)
    else if c = 'f' then do return (.bool false, ← Json.word? "alse".toList rest)
    else numeric? (c :: rest)

/-- The items of a list up to its closing bracket, and the rest. -/
def items? : Nat → Nat → List Char → Option (List Json × List Char)
  | 0, _, _ => none
  | n + 1, depth, cs =>
    match skipLines (cs.length + 1) cs with
    | ']' :: rest => some ([], rest)
    | cs => do
      let (v, rest) ← value? n depth cs
      match skipLines (rest.length + 1) rest with
      | ',' :: rest =>
        let (vs, rest) ← items? n depth rest
        return (v :: vs, rest)
      | ']' :: rest => return ([v], rest)
      | _ => none

/-- The pairs of an inline table up to its closing brace, and the rest. -/
def pairs? : Nat → Nat → List Char → Option (List (KeyPath × Json) × List Char)
  | 0, _, _ => none
  | n + 1, depth, cs => do
    let (name, rest) ← keyPath? cs
    let rest ← Json.word? ['='] rest
    let (v, rest) ← value? n depth (skipBlanks rest)
    match skipBlanks rest with
    | [] => none
    | c :: rest =>
      if c = ',' then do
        let (pairs, rest) ← pairs? n depth rest
        return ((name, v) :: pairs, rest)
      else if c = '\x7d' then return ([(name, v)], rest)
      else none

end

/-- The text after the end of a statement: blanks, perhaps a comment, and the end of the line or of
the text. -/
def statementEnd? (cs : List Char) : Option (List Char) :=
  let rest := match skipBlanks cs with
    | '#' :: rest => skipComment rest
    | rest => rest
  if rest.isEmpty then some [] else lineEnd? rest

/-- The statement at the front of a text. -/
def statement? (cs : List Char) : Option (Statement × List Char) :=
  match cs with
  | '[' :: '[' :: rest => do
    let (name, rest) ← keyPath? rest
    let rest ← Json.word? [']', ']'] rest
    return (.item name, ← statementEnd? rest)
  | '[' :: rest => do
    let (name, rest) ← keyPath? rest
    let rest ← Json.word? [']'] rest
    return (.table name, ← statementEnd? rest)
  | _ => do
    let (name, rest) ← keyPath? cs
    let rest ← Json.word? ['='] rest
    let (v, rest) ← value? (2 * rest.length + 1) (nestingLimit - 1) (skipBlanks rest)
    return (.pair name v, ← statementEnd? rest)

/-- The statements of a text. -/
def statements? : Nat → List Char → Option (List Statement)
  | 0, _ => none
  | n + 1, cs =>
    match skipBlanks cs with
    | [] => some []
    | c :: rest =>
      if c = '#' then do statements? n (← statementEnd? (c :: rest))
      else
        match lineEnd? (c :: rest) with
        | some rest => statements? n rest
        | none => do
          let (s, rest) ← statement? (c :: rest)
          return s :: (← statements? n rest)

/-- Reads a whole text. -/
def ofText? (text : String) : Option Json := do
  let cs := match text.toList with
    | c :: rest => if c.toNat = 0xFEFF then rest else c :: rest
    | [] => []
  Document.ofStatements? (← statements? (cs.length + 1) cs)

end JitBroker.Toml
