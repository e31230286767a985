import JitBroker.Json

/-!
# Numbers in JSON texts

A number without fraction and exponent is an integer if it lies between `-2 ^ 63` and `2 ^ 64 - 1`;
minus zero and everything else is a double. The double is found from the digits in a fixed number
of operations: the digits, as far as they fit into a word, make an integer, which is rounded to a
double and then multiplied with or divided by the power of ten that is left, rounded itself. So
the result is within a few units of the nearest double, and is the nearest one as long as both
integer and power are exact. A number beyond the range of doubles is refused.
-/

namespace JitBroker.Json

/-- The digits of a number as far as they fit into a word, and the power of ten that is left. -/
structure Significand where
  /-- The digits taken, as a number. -/
  value : Nat := 0
  /-- The decimal exponent of the last digit taken. -/
  exponent : Int := 0
  /-- Whether a digit of the current part no longer fitted. -/
  full : Bool := false
  deriving Repr, DecidableEq

namespace Significand

/-- The value of a decimal digit. -/
def digitValue (c : Char) : Nat := c.toNat - '0'.toNat

/-- Whether one more digit fits into a word. -/
def fits (s : Significand) (d : Nat) : Bool := decide (s.value * 10 + d < UInt64.size)

/-- Takes the digits before the point; the ones that no longer fit only raise the exponent. -/
def takeWhole (s : Significand) : List Char → Significand
  | [] => s
  | c :: rest =>
    let d := digitValue c
    if !s.full && s.fits d then takeWhole { s with value := s.value * 10 + d } rest
    else takeWhole { s with exponent := s.exponent + 1, full := true } rest

/-- Takes the digits after the point, up to the first that does not fit. -/
def takeFraction (s : Significand) : List Char → Significand
  | [] => s
  | c :: rest =>
    let d := digitValue c
    if s.fits d then
      takeFraction { s with value := s.value * 10 + d, exponent := s.exponent - 1 } rest
    else s

end Significand

/-- The greatest power of ten used in one multiplication or division. -/
def greatestPower : Nat := 308

/-- The double nearest to a power of ten. -/
def powerOfTen (n : Nat) : Float := Float.ofScientific 1 false n

/-- A double scaled by a power of ten, in steps of the greatest power; the count bounds the steps
that divide. There is no result beyond the range of doubles. -/
def scale (x : Float) (exponent : Int) : Nat → Option Float
  | 0 => some 0.0
  | steps + 1 =>
    if exponent.natAbs ≤ greatestPower then
      if 0 ≤ exponent then
        let y := x * powerOfTen exponent.natAbs
        if y.isInf then none else some y
      else some (x / powerOfTen exponent.natAbs)
    else if x == 0.0 then some x
    else if 0 ≤ exponent then none
    else scale (x / powerOfTen greatestPower) (exponent + greatestPower) steps

/-- The parts of the text of a number. -/
structure NumberText where
  /-- Whether it begins with a minus sign. -/
  negative : Bool
  /-- The digits before the point. -/
  whole : List Char
  /-- The digits after the point, if there is one. -/
  fraction : Option (List Char)
  /-- The exponent, if there is one. -/
  exponent : Option Int

namespace NumberText

/-- The exponents beyond this have no effect but to make the number infinite or zero. -/
def exponentLimit : Nat := 0x7FFFFFFF

/-- The double that a text stands for. -/
def toFloat? (t : NumberText) : Option Float :=
  let s := ({} : Significand).takeWhole t.whole
  let s := match t.fraction with
    | some digits => s.takeFraction digits
    | none => s
  let magnitude := match t.exponent with
    | some e =>
      if exponentLimit < e.natAbs then
        if s.value ≠ 0 ∧ 0 ≤ e then none else some 0.0
      else scale (UInt64.ofNat s.value).toFloat (s.exponent + e) 8
    | none => scale (UInt64.ofNat s.value).toFloat s.exponent 8
  magnitude.map fun x => if t.negative then -x else x

/-- The value that a text stands for. -/
def value? (t : NumberText) : Option Json :=
  let n := t.whole.foldl (fun n c => n * 10 + Significand.digitValue c) 0
  if t.fraction.isNone && t.exponent.isNone && !t.negative && decide (n < UInt64.size) then
    some (.int n)
  else if t.fraction.isNone && t.exponent.isNone && t.negative
      && decide (0 < n ∧ n ≤ 0x8000000000000000) then
    some (.int (-n))
  else t.toFloat?.map fun x => .float x.toBits

end NumberText

/-- The digits at the front of a text, and the rest. -/
def digits (cs : List Char) : List Char × List Char :=
  (cs.takeWhile (·.isDigit), cs.dropWhile (·.isDigit))

/-- The fraction at the front of a text, which needs a digit after its point. -/
def fractionText? (cs : List Char) : Option (Option (List Char) × List Char) :=
  match cs with
  | '.' :: rest =>
    match digits rest with
    | ([], _) => none
    | (ds, rest) => some (some ds, rest)
  | _ => some (none, cs)

/-- The exponent at the front of a text, which needs a digit after its mark and sign. -/
def exponentText? (cs : List Char) : Option (Option Int × List Char) :=
  let signed (negative : Bool) (rest : List Char) :=
    match digits rest with
    | ([], _) => none
    | (ds, rest) =>
      let n : Int := ds.foldl (fun n c => n * 10 + Significand.digitValue c) 0
      some (some (if negative then -n else n), rest)
  match cs with
  | c :: rest =>
    if c = 'e' ∨ c = 'E' then
      match rest with
      | '+' :: rest => signed false rest
      | '-' :: rest => signed true rest
      | _ => signed false rest
    else some (none, cs)
  | [] => some (none, cs)

/-- The number at the front of a text, and the rest. No digit may follow a leading zero. -/
def numberText? (cs : List Char) : Option (NumberText × List Char) := do
  let (negative, cs) := match cs with
    | '-' :: rest => (true, rest)
    | _ => (false, cs)
  let (whole, rest) ← match digits cs with
    | ([], _) => none
    | ('0' :: _ :: _, _) => none
    | parts => some parts
  let (fraction, rest) ← fractionText? rest
  let (exponent, rest) ← exponentText? rest
  return (⟨negative, whole, fraction, exponent⟩, rest)

end JitBroker.Json
