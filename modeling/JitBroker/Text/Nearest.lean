/-!
# The double nearest to a decimal

Digits and a power of ten are rounded once, to the nearest double. Powers far out of range are cut,
where every number is infinite or zero.
-/

namespace JitBroker.Text

/-- A positive double beyond every finite one. -/
def infinity : Float := Float.ofScientific 1 false 400

/-- The double nearest to `n * 10 ^ exponent`. -/
def nearestDouble (n : Nat) (exponent : Int) : Float :=
  let bound : Int := 400 + (Nat.toDigits 10 n).length
  if n = 0 ∨ exponent < -bound then 0.0
  else if bound < exponent then infinity
  else Float.ofScientific n (decide (exponent < 0)) exponent.natAbs

end JitBroker.Text
