import Reckoner.Binary64

namespace Reckoner

/-!
# Decimals

A decimal is a coefficient with a power of ten. `Decimal.code` rounds it to the nearest double,
whatever its size, and `Decimal.exact` writes a double as a decimal without rounding:
`2 ^ (-1074)` is `5 ^ 1074 * 10 ^ (-1074)`.
-/

/-- The number `coefficient * 10 ^ exponent`. -/
structure Decimal where
  coefficient : Nat
  exponent : Int
  deriving DecidableEq, Repr

namespace Decimal

/-- The exponents from which on a decimal that is not zero lies beyond every finite double, on
    the one side, or below half of the smallest, on the other. -/
def exponentLimit : Int := 400

/-- The code of the nearest double; a half goes to the even code. The cases in the middle keep
    the powers of ten small; they cut off only what rounds to infinity and to zero. -/
def code (d : Decimal) : Nat :=
  if d.coefficient = 0 then 0
  else if exponentLimit < d.exponent then Binary64.infinity
  else if d.exponent + d.coefficient.log2 < -exponentLimit then 0
  else
    Binary64.nearest (d.coefficient * Nat.pow 10 d.exponent.toNat)
      (Nat.pow 10 (-d.exponent).toNat)

/-- The finite double with a code, as a decimal. -/
def exact (code : Nat) : Decimal :=
  ⟨Binary64.units code * Nat.pow 5 1074, -1074⟩

end Decimal

end Reckoner
