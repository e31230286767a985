import JitBroker.Json.Reader
import JitBroker.Text.Nearest

/-!
# Names, strings, numbers and dates in TOML

The leaves of a TOML document. Every reader takes the characters that are left and gives what it
has read with the rest, or nothing if the text breaks the rules of the format.

* A name is bare (letters, digits, `-` and `_`) or a string on one line.
* A string stands between quotes, with escapes, or between apostrophes, as it is; three marks
  instead of one let it run over several lines.
* An integer has 64 bits and a sign. Underscores may stand between digits, and a leading zero only
  in the forms with a radix.
* A date or time must exist in the calendar. Nothing here computes with one, so its value is an
  object that holds its text.
-/

namespace JitBroker.Toml

/-- Whether a character may separate tokens on a line. -/
def isBlank (c : Char) : Bool := c = ' ' ∨ c = '\t'

/-- The text without the blanks at its front. -/
def skipBlanks (cs : List Char) : List Char := cs.dropWhile isBlank

/-- Whether a character may stand in a comment or, if its string has no other use for it, in a
string. -/
def isPlain (c : Char) : Bool := c = '\t' ∨ (0x20 ≤ c.toNat ∧ c.toNat ≠ 0x7F)

/-- The text after the line end at its front. -/
def lineEnd? : List Char → Option (List Char)
  | '\n' :: rest => some rest
  | '\r' :: '\n' :: rest => some rest
  | _ => none

/-! ### Strings -/

/-- The number in a given count of hexadecimal digits, and the rest. -/
def hexNumber? : Nat → Nat → List Char → Option (Nat × List Char)
  | 0, n, cs => some (n, cs)
  | count + 1, n, c :: rest => do hexNumber? count (n * 16 + (← Json.hexValue? c)) rest
  | _ + 1, _, [] => none

/-- The character of a numbered escape. -/
def numberedEscape? (digits : Nat) (cs : List Char) : Option (Char × List Char) := do
  let (n, rest) ← hexNumber? digits 0 cs
  if n < 0xD800 ∨ (0xDFFF < n ∧ n < 0x110000) then some (Char.ofNat n, rest) else none

/-- The character of an escape, given the text after the backslash. -/
def escape? : List Char → Option (Char × List Char)
  | 'b' :: rest => some (Char.ofNat 8, rest)
  | 't' :: rest => some ('\t', rest)
  | 'n' :: rest => some ('\n', rest)
  | 'f' :: rest => some (Char.ofNat 12, rest)
  | 'r' :: rest => some ('\r', rest)
  | '"' :: rest => some ('"', rest)
  | '\\' :: rest => some ('\\', rest)
  | 'u' :: rest => numberedEscape? 4 rest
  | 'U' :: rest => numberedEscape? 8 rest
  | _ => none

/-- The text after the blanks and line ends at its front. -/
def skipBlankLines : List Char → List Char
  | '\r' :: '\n' :: rest => skipBlankLines rest
  | c :: rest => if isBlank c ∨ c = '\n' then skipBlankLines rest else c :: rest
  | [] => []

/-- The text after a line end that a backslash has joined, if blanks and a line end follow. -/
def joinedLine? (cs : List Char) : Option (List Char) :=
  (lineEnd? (skipBlanks cs)).map skipBlankLines

/-- A string on one line up to its closing mark; `escapes` tells whether it has escapes. -/
def lineString? (mark : Char) (escapes : Bool) : Nat → List Char → Option (List Char × List Char)
  | 0, _ => none
  | _, [] => none
  | n + 1, c :: rest =>
    if c = mark then some ([], rest)
    else if escapes ∧ c = '\\' then do
      let (x, rest) ← escape? rest
      let (xs, rest) ← lineString? mark escapes n rest
      return (x :: xs, rest)
    else if isPlain c then do
      let (xs, rest) ← lineString? mark escapes n rest
      return (c :: xs, rest)
    else none

/-- A string over several lines up to the closing marks. Up to two marks may stand before those
that close it. -/
def longString? (mark : Char) (escapes : Bool) : Nat → List Char → Option (List Char × List Char)
  | 0, _ => none
  | _, [] => none
  | n + 1, c :: rest =>
    if c = mark then
      let marks := (c :: rest).takeWhile (· = mark)
      let after := (c :: rest).dropWhile (· = mark)
      if marks.length < 3 then do
        let (xs, rest) ← longString? mark escapes n after
        return (marks ++ xs, rest)
      else if marks.length ≤ 5 then some (marks.drop 3, after)
      else none
    else if escapes ∧ c = '\\' then
      match joinedLine? rest with
      | some rest => longString? mark escapes n rest
      | none => do
        let (x, rest) ← escape? rest
        let (xs, rest) ← longString? mark escapes n rest
        return (x :: xs, rest)
    else match lineEnd? (c :: rest) with
      | some rest => do
        let (xs, rest) ← longString? mark escapes n rest
        return ('\n' :: xs, rest)
      | none =>
        if isPlain c then do
          let (xs, rest) ← longString? mark escapes n rest
          return (c :: xs, rest)
        else none

/-- A string value; a line end right after three opening marks is dropped. -/
def string? : List Char → Option (String × List Char)
  | c :: rest =>
    let escapes := c = '"'
    if c ≠ '"' ∧ c ≠ '\'' then none
    else if [c, c].isPrefixOf rest then do
      let body := (lineEnd? (rest.drop 2)).getD (rest.drop 2)
      let (xs, rest) ← longString? c escapes (body.length + 1) body
      return (String.ofList xs, rest)
    else do
      let (xs, rest) ← lineString? c escapes (rest.length + 1) rest
      return (String.ofList xs, rest)
  | [] => none

/-! ### Names -/

/-- Whether a character may stand in a bare name. -/
def isBare (c : Char) : Bool := c.isAlphanum || c = '-' || c = '_'

/-- One name. -/
def simpleKey? : List Char → Option (String × List Char)
  | [] => none
  | c :: rest =>
    if c = '"' ∨ c = '\'' then do
      let (xs, rest) ← lineString? c (c = '"') (rest.length + 1) rest
      return (String.ofList xs, rest)
    else
      match (c :: rest).takeWhile isBare with
      | [] => none
      | xs => some (String.ofList xs, (c :: rest).dropWhile isBare)

/-- Names with points between them, blanks allowed around each. -/
def keys? : Nat → List Char → Option (List String × List Char)
  | 0, _ => none
  | n + 1, cs => do
    let (key, rest) ← simpleKey? (skipBlanks cs)
    match skipBlanks rest with
    | '.' :: rest => do
      let (keys, rest) ← keys? n rest
      return (key :: keys, rest)
    | rest => return ([key], rest)

/-! ### Numbers -/

/-- Digits with single underscores between them, and the rest. -/
def digits? (isDigit : Char → Bool) : List Char → Option (List Char × List Char)
  | [] => none
  | c :: rest =>
    if isDigit c then go [c] rest else none
where
  /-- The digits after the first, taken in reverse. -/
  go (taken : List Char) : List Char → Option (List Char × List Char)
    | [] => some (taken.reverse, [])
    | [c] =>
      if isDigit c then some ((c :: taken).reverse, [])
      else if c = '_' then none
      else some (taken.reverse, [c])
    | c :: d :: rest =>
      if isDigit c then go (c :: taken) (d :: rest)
      else if c = '_' then if isDigit d then go (d :: taken) rest else none
      else some (taken.reverse, c :: d :: rest)

/-- The number that digits of a radix stand for. -/
def ofDigits (radix : Nat) (ds : List Char) : Nat :=
  ds.foldl (fun n c => n * radix + (Json.hexValue? c).getD 0) 0

/-- An integer of 64 bits. -/
def integer? (n : Int) : Option Json :=
  if -0x8000000000000000 ≤ n ∧ n < 0x8000000000000000 then some (.int n) else none

/-- The sign at the front of a text: whether it is a minus, and the rest. -/
def sign : List Char → Bool × List Char
  | '-' :: rest => (true, rest)
  | '+' :: rest => (false, rest)
  | cs => (false, cs)

/-- An integer with a radix, given the text after its mark. -/
def radixNumber? (radix : Nat) (isDigit : Char → Bool) (cs : List Char) :
    Option (Json × List Char) := do
  let (ds, rest) ← digits? isDigit cs
  return (← integer? (ofDigits radix ds), rest)

/-- The fraction at the front of a text. -/
def fraction? : List Char → Option (List Char × List Char)
  | '.' :: rest => digits? Char.isDigit rest
  | cs => some ([], cs)

/-- The exponent at the front of a text. -/
def exponent? : List Char → Option (Int × List Char)
  | c :: rest =>
    if c = 'e' ∨ c = 'E' then do
      let (negative, rest) := sign rest
      let (ds, rest) ← digits? Char.isDigit rest
      let n : Int := ofDigits 10 ds
      return (if negative then -n else n, rest)
    else some (0, c :: rest)
  | [] => some (0, [])

/-- A decimal number: an integer, or a double if it has a fraction or an exponent. A double may not
come out as infinity. -/
def decimal? (cs : List Char) : Option (Json × List Char) := do
  let (negative, cs) := sign cs
  match cs with
  | 'i' :: 'n' :: 'f' :: rest =>
    return (.float (if negative then -Text.infinity else Text.infinity).toBits, rest)
  | 'n' :: 'a' :: 'n' :: rest => return (.float (0.0 / 0.0 : Float).toBits, rest)
  | _ =>
    let (whole, rest) ← match cs with
      | '0' :: rest => some (['0'], rest)
      | cs => digits? Char.isDigit cs
    match rest with
    | c :: _ =>
      if c = '.' ∨ c = 'e' ∨ c = 'E' then
        let (fraction, rest) ← fraction? rest
        let (exponent, rest) ← exponent? rest
        let x := Text.nearestDouble (ofDigits 10 (whole ++ fraction)) (exponent - fraction.length)
        if x.isInf && !negative then none
        else return (.float (if negative then -x else x).toBits, rest)
      else
        let n : Int := ofDigits 10 whole
        return (← integer? (if negative then -n else n), rest)
    | [] =>
      let n : Int := ofDigits 10 whole
      return (← integer? (if negative then -n else n), rest)

/-! ### Dates -/

/-- A number of exactly so many digits, and the rest. -/
def fixedNumber? (count : Nat) (cs : List Char) : Option (Nat × List Char) :=
  let ds := cs.take count
  if ds.length = count ∧ ds.all Char.isDigit then some (ofDigits 10 ds, cs.drop count) else none

/-- How many days a month has. -/
def monthLength (year month : Nat) : Nat :=
  if month = 2 then if year % 4 = 0 ∧ (year % 100 ≠ 0 ∨ year % 400 = 0) then 29 else 28
  else if [4, 6, 9, 11].contains month then 30
  else 31

/-- The text after a day of the calendar. -/
def day? (cs : List Char) : Option (List Char) := do
  let (year, rest) ← fixedNumber? 4 cs
  let rest ← Json.word? ['-'] rest
  let (month, rest) ← fixedNumber? 2 rest
  let rest ← Json.word? ['-'] rest
  let (day, rest) ← fixedNumber? 2 rest
  if 1 ≤ month ∧ month ≤ 12 ∧ 1 ≤ day ∧ day ≤ monthLength year month then some rest else none

/-- The text after a time of day; a minute may have a leap second. -/
def time? (cs : List Char) : Option (List Char) := do
  let (hour, rest) ← fixedNumber? 2 cs
  let rest ← Json.word? [':'] rest
  let (minute, rest) ← fixedNumber? 2 rest
  let rest ← Json.word? [':'] rest
  let (second, rest) ← fixedNumber? 2 rest
  if 24 ≤ hour ∨ 60 ≤ minute ∨ 61 ≤ second then none
  else
    match rest with
    | '.' :: c :: rest => some (if c.isDigit then rest.dropWhile Char.isDigit else '.' :: c :: rest)
    | rest => some rest

/-- The text after an offset from universal time, if there is one. -/
def offset? : List Char → Option (List Char)
  | c :: rest =>
    if c = 'Z' ∨ c = 'z' then some rest
    else if c = '+' ∨ c = '-' then do
      let (hour, rest) ← fixedNumber? 2 rest
      let rest ← Json.word? [':'] rest
      let (minute, rest) ← fixedNumber? 2 rest
      if hour < 24 ∧ minute < 60 then some rest else none
    else none
  | [] => none

/-- The text after a date, a time, or both. -/
def moment? (cs : List Char) : Option (List Char) :=
  match day? cs with
  | some rest =>
    match rest with
    | c :: after =>
      if c = 'T' ∨ c = 't' ∨ c = ' ' then
        match time? after with
        | some rest => some ((offset? rest).getD rest)
        | none => some rest
      else some rest
    | [] => some []
  | none => time? cs

/-- The field that holds the text of a date. -/
def momentField : String := "date-time"

/-- A number or a date. -/
def numeric? (cs : List Char) : Option (Json × List Char) :=
  match moment? cs with
  | some rest =>
    some (.obj [(momentField, .str (String.ofList (cs.take (cs.length - rest.length))))], rest)
  | none =>
    match cs with
    | '0' :: 'x' :: rest => radixNumber? 16 (fun c => (Json.hexValue? c).isSome) rest
    | '0' :: 'o' :: rest => radixNumber? 8 (fun c => '0' ≤ c ∧ c ≤ '7') rest
    | '0' :: 'b' :: rest => radixNumber? 2 (fun c => c = '0' ∨ c = '1') rest
    | _ => decimal? cs

end JitBroker.Toml
