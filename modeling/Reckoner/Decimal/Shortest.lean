import Reckoner.Decimal

namespace Reckoner

/-!
# The shortest decimal of a double

Of all decimals that round to a double, `Decimal.shortest` is one with the fewest digits, and of
those the nearest; a tie goes up. The grids of 1, 2, 3, … digits are tried in turn, and on each
only the two neighbours of the double have to be tested. The last grid is fine enough for the
exact value, so there always is an answer.
-/

namespace Decimal

/-- Of the two neighbours of `exact code` among the multiples of `10 ^ drop` of its last place, the
    nearer one that rounds to `code`. -/
def neighbour? (code drop : Nat) : Option Decimal :=
  let step := Nat.pow 10 drop
  let coefficient := (exact code).coefficient
  let below : Decimal := ⟨coefficient / step, (exact code).exponent + drop⟩
  let above : Decimal := { below with coefficient := below.coefficient + 1 }
  if below.code = code then
    if above.code = code ∧ step ≤ 2 * (coefficient % step) then some above else some below
  else if above.code = code then some above
  else none

/-- Search the grids that drop at most `drop` places, the coarsest first. -/
def shortestFrom (code : Nat) : Nat → Decimal
  | 0 => exact code
  | drop + 1 => (neighbour? code (drop + 1)).getD (shortestFrom code drop)

/-- The digits of a number, the first one first. -/
def digits (n : Nat) : List Char := Nat.toDigits 10 n

/-- The shortest decimal that rounds to a finite code other than zero. -/
def shortest (code : Nat) : Decimal :=
  shortestFrom code ((digits (exact code).coefficient).length - 1)

end Decimal

end Reckoner
