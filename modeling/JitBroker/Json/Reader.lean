import JitBroker.Json.Number

/-!
# Reading JSON texts

The reader takes a text as its characters and gives the value it stands for, or nothing if the
text is malformed. Lists and objects may be nested up to `depthLimit` deep; one level more is
malformed. Fields keep their order, repeated names included.

The recursion runs on the number of characters that are left: each value takes at least one.
-/

namespace JitBroker.Json

/-- How deep lists and objects may be nested. -/
def depthLimit : Nat := 127

/-- Whether a character may stand between the parts of a text. -/
def isBlank (c : Char) : Bool := c = ' ' ∨ c = '\n' ∨ c = '\t' ∨ c = '\r'

/-- The text without the blanks at its front. -/
def skipBlanks (cs : List Char) : List Char := cs.dropWhile isBlank

/-- The value of a hexadecimal digit. -/
def hexValue? (c : Char) : Option Nat :=
  if '0' ≤ c ∧ c ≤ '9' then some (c.toNat - '0'.toNat)
  else if 'a' ≤ c ∧ c ≤ 'f' then some (c.toNat - 'a'.toNat + 10)
  else if 'A' ≤ c ∧ c ≤ 'F' then some (c.toNat - 'A'.toNat + 10)
  else none

/-- The number in the four hexadecimal digits at the front of a text, and the rest. -/
def hexUnit? : List Char → Option (Nat × List Char)
  | a :: b :: c :: d :: rest => do
    let n := ((← hexValue? a) * 16 + (← hexValue? b)) * 256 + (← hexValue? c) * 16 + (← hexValue? d)
    return (n, rest)
  | _ => none

/-- The character of an escape, given the text after the backslash and its mark `u`. A unit of the
upper half of a pair must be followed by one of the lower half, which cannot stand alone. -/
def unicodeEscape? (cs : List Char) : Option (Char × List Char) := do
  let (high, rest) ← hexUnit? cs
  if 0xDC00 ≤ high ∧ high < 0xE000 then none
  else if 0xD800 ≤ high ∧ high < 0xDC00 then
    match rest with
    | '\\' :: 'u' :: rest =>
      let (low, rest) ← hexUnit? rest
      if 0xDC00 ≤ low ∧ low < 0xE000 then
        some (Char.ofNat (0x10000 + (high - 0xD800) * 0x400 + (low - 0xDC00)), rest)
      else none
    | _ => none
  else some (Char.ofNat high, rest)

/-- The character that a one-letter escape stands for. -/
def letterEscape? : Char → Option Char
  | '"' => some '"'
  | '\\' => some '\\'
  | '/' => some '/'
  | 'b' => some (Char.ofNat 8)
  | 'f' => some (Char.ofNat 12)
  | 'n' => some '\n'
  | 'r' => some '\r'
  | 't' => some '\t'
  | _ => none

/-- The characters up to the closing quote, and the text after it. -/
def string? : Nat → List Char → Option (List Char × List Char)
  | 0, _ => none
  | _, [] => none
  | n + 1, c :: rest =>
    if c = '"' then some ([], rest)
    else if c = '\\' then
      match rest with
      | 'u' :: rest => do
        let (x, rest) ← unicodeEscape? rest
        let (xs, rest) ← string? n rest
        return (x :: xs, rest)
      | e :: rest => do
        let x ← letterEscape? e
        let (xs, rest) ← string? n rest
        return (x :: xs, rest)
      | [] => none
    else if c.toNat < 32 then none
    else do
      let (xs, rest) ← string? n rest
      return (c :: xs, rest)

/-- The text after a word it must begin with. -/
def word? (word cs : List Char) : Option (List Char) :=
  if word.isPrefixOf cs then some (cs.drop word.length) else none

mutual

/-- The value at the front of a text, and the rest; `depth` levels may still be opened. -/
def value? : Nat → Nat → List Char → Option (Json × List Char)
  | 0, _, _ => none
  | n + 1, depth, cs =>
    match skipBlanks cs with
    | [] => none
    | 'n' :: rest => do
      return (.null, ← word? "ull".toList rest)
    | 't' :: rest => do
      return (.bool true, ← word? "rue".toList rest)
    | 'f' :: rest => do
      return (.bool false, ← word? "alse".toList rest)
    | '"' :: rest => do
      let (s, rest) ← string? (rest.length + 1) rest
      return (.str (String.ofList s), rest)
    | '[' :: rest =>
      if depth = 0 then none
      else
        match skipBlanks rest with
        | ']' :: rest => some (.arr [], rest)
        | rest => do
          let (items, rest) ← items? n (depth - 1) rest
          return (.arr items, rest)
    | c :: rest =>
      if c = '\x7b' then
        if depth = 0 then none
        else
          match skipBlanks rest with
          | [] => none
          | c :: rest =>
            if c = '\x7d' then some (.obj [], rest)
            else do
              let (fields, rest) ← fields? n (depth - 1) (c :: rest)
              return (.obj fields, rest)
      else do
        let (t, rest) ← numberText? (c :: rest)
        return (← t.value?, rest)

/-- The items of a list up to its closing bracket, and the rest. -/
def items? : Nat → Nat → List Char → Option (List Json × List Char)
  | 0, _, _ => none
  | n + 1, depth, cs => do
    let (v, rest) ← value? n depth cs
    match skipBlanks rest with
    | ',' :: rest =>
      let (vs, rest) ← items? n depth rest
      return (v :: vs, rest)
    | ']' :: rest => return ([v], rest)
    | _ => none

/-- The fields of an object up to its closing brace, and the rest. -/
def fields? : Nat → Nat → List Char → Option (List (String × Json) × List Char)
  | 0, _, _ => none
  | n + 1, depth, cs => do
    let rest ← word? ['"'] (skipBlanks cs)
    let (key, rest) ← string? (rest.length + 1) rest
    let rest ← word? [':'] (skipBlanks rest)
    let (v, rest) ← value? n depth rest
    match skipBlanks rest with
    | [] => none
    | c :: rest =>
      if c = ',' then do
        let (fields, rest) ← fields? n depth rest
        return ((String.ofList key, v) :: fields, rest)
      else if c = '\x7d' then return ([(String.ofList key, v)], rest)
      else none

end

/-- Reads a whole text. -/
def ofChars? (cs : List Char) : Option Json := do
  let (v, rest) ← value? (2 * cs.length + 1) depthLimit cs
  if (skipBlanks rest).isEmpty then some v else none

/-- Reads a whole text. -/
def ofText? (text : String) : Option Json := ofChars? text.toList

end JitBroker.Json
