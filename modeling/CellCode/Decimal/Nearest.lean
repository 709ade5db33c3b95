/-!
# The nearest floating-point number

The floating-point number that a decimal is read as. Exponents far outside the range of the
format are settled without computing the power.
-/

namespace CellCode.Decimal

/-- The floating-point number nearest to `m * 10 ^ e`. -/
def nearest (m : Nat) (e : Int) : Float :=
  let magnitude := (Nat.toDigits 10 m).length + e
  if m = 0 ∨ magnitude < -400 then 0
  else if 400 < magnitude then 1 / 0
  else Float.ofScientific m (e < 0) e.natAbs

end CellCode.Decimal
