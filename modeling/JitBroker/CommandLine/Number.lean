import JitBroker.Text.Nearest
import JitBroker.Text.Shortest

/-!
# Numbers on the command line

Counts are machine words. Real numbers are doubles, read with one rounding; they are written with
as few digits as read back, and never with an exponent.
-/

namespace JitBroker.CommandLine

/-- The number that digits stand for. -/
def digitsValue (cs : List Char) : Nat := cs.foldl (fun n c => n * 10 + (c.toNat - '0'.toNat)) 0

/-- Whether a text has digits and nothing else. -/
def isDigits (cs : List Char) : Bool := !cs.isEmpty && cs.all Char.isDigit

/-- The text after a sign, and whether the sign is a minus. -/
def unsigned : List Char → Bool × List Char
  | '-' :: rest => (true, rest)
  | '+' :: rest => (false, rest)
  | cs => (false, cs)

/-- The machine word that a text stands for. -/
def count? (text : String) : Option UInt64 :=
  let digits := match text.toList with
    | '+' :: rest => rest
    | cs => cs
  if isDigits digits ∧ digitsValue digits < UInt64.size then
    some (.ofNat (digitsValue digits))
  else none

/-- The exponent that a text stands for. -/
def exponent? (cs : List Char) : Option Int :=
  let (negative, digits) := unsigned cs
  if isDigits digits then
    some (if negative then -(digitsValue digits : Int) else digitsValue digits)
  else none

/-- The number that digits, perhaps with a point among them and an exponent after them, stand
for. -/
def magnitude? (cs : List Char) : Option Float := do
  let isMark (c : Char) : Bool := c = 'e' || c = 'E'
  let mantissa := cs.takeWhile (!isMark ·)
  let exponent ← match cs.dropWhile (!isMark ·) with
    | [] => some 0
    | _ :: rest => exponent? rest
  let whole := mantissa.takeWhile (· != '.')
  let fraction := (mantissa.dropWhile (· != '.')).drop 1
  if isDigits (whole ++ fraction) then
    some (Text.nearestDouble (digitsValue (whole ++ fraction)) (exponent - fraction.length))
  else none

/-- The double that a text stands for. -/
def real? (text : String) : Option Float :=
  let (negative, cs) := unsigned text.toList
  let size? := match String.ofList (cs.map Char.toLower) with
    | "inf" | "infinity" => some Text.infinity
    | "nan" => some (0.0 / 0.0 : Float)
    | _ => magnitude? cs
  size?.map fun x => if negative then -x else x

/-- Real numbers are positional, and whole ones have no point. -/
def realFormat : Text.DecimalFormat := ⟨-400, 400, "", "e", ""⟩

/-- The text of a double. -/
def realText (x : Float) : String :=
  if x.isNaN then "NaN"
  else if x.isInf then if x < 0.0 then "-inf" else "inf"
  else Text.formatBits realFormat x.toBits

end JitBroker.CommandLine
