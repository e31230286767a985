/-!
# Shortest decimals of binary floating-point numbers

A finite double is `m * 2 ^ q` with natural `m`. Every real number between the midpoints to its two
neighbours rounds to it, the midpoints themselves exactly if `m` is even. Among the decimals in
that interval those with the fewest digits are sought, for one digit, two digits and so on up to
seventeen, which always suffice. On each grid only the two neighbours of the value can be nearest,
so these are tested, in exact arithmetic on natural numbers; of two hits the nearer one is taken,
and of two equally near ones the one whose last digit is even.
-/

namespace JitBroker.Text

/-- A finite positive double: `mantissa * 2 ^ exponent`. -/
structure Binary where
  /-- The mantissa. -/
  mantissa : Nat
  /-- The binary exponent. -/
  exponent : Int
  /-- Whether the next smaller double is only half a unit away from the value. -/
  tight : Bool
  deriving Repr, DecidableEq

/-- A decimal: `digits * 10 ^ exponent`. -/
structure Decimal where
  /-- The digits, as a number. -/
  digits : Nat
  /-- The decimal exponent. -/
  exponent : Int
  deriving Repr, DecidableEq

/-- The absolute value of the double with the given bits; the exponent of infinities and of what
is no number reads like any other. -/
def Binary.ofBits (bits : UInt64) : Binary :=
  let field : Nat := (bits.toNat / 0x10000000000000) % 0x800
  let fraction : Nat := bits.toNat % 0x10000000000000
  if field = 0 then ⟨fraction, -1074, false⟩
  else ⟨0x10000000000000 + fraction, (field : Int) - 1075, decide (fraction = 0 ∧ 1 < field)⟩

/-- The quotient `a * 2 ^ q / 10 ^ k` as a fraction of natural numbers. -/
def scaled (a : Nat) (q k : Int) : Nat × Nat :=
  (a * Nat.pow 2 q.toNat * Nat.pow 10 (-k).toNat, Nat.pow 2 (-q).toNat * Nat.pow 10 k.toNat)

/-- How many digits a number has, at least one. -/
def digitCount (n : Nat) : Nat := (Nat.toDigits 10 n).length

/-- How many digits stand before the point of a value of at least one, or minus the number of zeros
that follow the point. -/
def pointPosition (b : Binary) : Int :=
  let (n, d) := scaled b.mantissa b.exponent 0
  if d ≤ n then digitCount (n / d)
  else
    -- The count of digits of `d / n` is off by at most one.
    let guess := digitCount (d / n)
    let (n', d') := scaled b.mantissa b.exponent (-guess)
    if d' ≤ n' then 1 - (guess : Int) else -(guess : Int)

/-- The decimal on the grid of step `10 ^ k` that rounds to the double and is nearest to it. -/
def onGrid? (b : Binary) (k : Int) : Option Decimal :=
  -- Everything is counted in quarters of a unit of the mantissa.
  let (v, d) := scaled (4 * b.mantissa) (b.exponent - 2) k
  let (lo, _) := scaled (4 * b.mantissa - if b.tight then 1 else 2) (b.exponent - 2) k
  let (hi, _) := scaled (4 * b.mantissa + 2) (b.exponent - 2) k
  let even := b.mantissa % 2 = 0
  let inside (c : Nat) : Bool :=
    if even then lo ≤ c * d && c * d ≤ hi else lo < c * d && c * d < hi
  let below := v / d
  let above := below + 1
  let toBelow := v - below * d
  let toAbove := above * d - v
  match inside below && 0 < below, inside above with
  | true, true =>
    if toBelow < toAbove || (toBelow = toAbove && below % 2 = 0) then some ⟨below, k⟩
    else some ⟨above, k⟩
  | true, false => some ⟨below, k⟩
  | false, true => some ⟨above, k⟩
  | false, false => none

/-- The shortest decimal of a positive double. -/
def shortest (b : Binary) : Decimal :=
  let point := pointPosition b
  let found := (List.range 17).findSome? fun n : Nat => onGrid? b (point - ((n : Int) + 1))
  found.getD ⟨0, 0⟩

/-- A decimal without zeros at its end; the count bounds how many are taken off. -/
def Decimal.trim (x : Decimal) : Nat → Decimal
  | 0 => x
  | n + 1 =>
    if x.digits % 10 = 0 ∧ x.digits ≠ 0 then (Decimal.mk (x.digits / 10) (x.exponent + 1)).trim n
    else x

/-- How a decimal is written. -/
structure DecimalFormat where
  /-- The least point position written without an exponent. -/
  leastPoint : Int
  /-- The greatest point position written without an exponent. -/
  greatestPoint : Int
  /-- What follows a whole number. -/
  wholeEnd : String
  /-- The mark before an exponent. -/
  exponentMark : String
  /-- The sign of an exponent that is not negative. -/
  plusSign : String

/-- The digits of the decimal with the point after the first `point` of them. -/
def placePoint (digits : List Char) (point : Int) (wholeEnd : String) : List Char :=
  let n : Int := digits.length
  if point ≤ 0 then '0' :: '.' :: (List.replicate (-point).toNat '0' ++ digits)
  else if n ≤ point then digits ++ List.replicate (point - n).toNat '0' ++ wholeEnd.toList
  else digits.take point.toNat ++ '.' :: digits.drop point.toNat

/-- The text of a positive decimal. -/
def Decimal.format (f : DecimalFormat) (x : Decimal) : String :=
  let digits := Nat.toDigits 10 x.digits
  let point := (digits.length : Int) + x.exponent
  if f.leastPoint ≤ point ∧ point ≤ f.greatestPoint then
    String.ofList (placePoint digits point f.wholeEnd)
  else
    let mantissa := match digits with
      | [] => []
      | [c] => [c]
      | c :: rest => c :: '.' :: rest
    String.ofList mantissa ++ f.exponentMark ++ (if 1 ≤ point then f.plusSign else "")
      ++ toString (point - 1)

/-- The shortest text of the finite double with the given bits. -/
def formatBits (f : DecimalFormat) (bits : UInt64) : String :=
  let sign := if bits.toNat < 0x8000000000000000 then "" else "-"
  let b := Binary.ofBits (UInt64.ofNat (bits.toNat % 0x8000000000000000))
  if b.mantissa = 0 then sign ++ "0" ++ f.wholeEnd
  else sign ++ ((shortest b).trim 400).format f

end JitBroker.Text
