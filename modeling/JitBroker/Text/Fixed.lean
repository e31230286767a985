/-!
# Numbers with fixed places, and columns

A quotient is rounded to a given number of decimal places, a half to the even neighbour. Texts are
filled up with blanks to stand in columns.
-/

namespace JitBroker.Text

/-- The whole number nearest to a quotient; of two equally near ones, the even one. -/
def roundQuotient (n d : Nat) : Nat :=
  let q := n / d
  let r := n % d
  if 2 * r < d then q
  else if d < 2 * r then q + 1
  else q + q % 2

/-- A quotient with the given number of places after the point. -/
def fixed (places n d : Nat) : String :=
  let scaled := roundQuotient (n * Nat.pow 10 places) d
  let fraction := (Nat.toDigits 10 (scaled % Nat.pow 10 places)).leftpad places '0'
  toString (scaled / Nat.pow 10 places) ++ "." ++ String.ofList fraction

/-- A text at the left of a column. -/
def toLeft (width : Nat) (text : String) : String := String.ofList (text.toList.rightpad width ' ')

/-- A text at the right of a column. -/
def toRight (width : Nat) (text : String) : String := String.ofList (text.toList.leftpad width ' ')

end JitBroker.Text
