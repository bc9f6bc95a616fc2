namespace Reckoner

/-!
# The grid of doubles

Without its sign, a double is a *code*: its bit pattern as a number below `2 ^ 63`. Codes count
the doubles upwards from zero, so a larger double has a larger code; `infinity` comes after the
finite ones and the codes that are no number come after `infinity`.

Every finite double is a whole number of units of `2 ^ (-1074)`, and `units` is that number:
a code has 52 bits of fraction under its exponent, and each exponent past the first doubles the
step. `nearest` goes the other way, from a quotient to the nearest code.
-/

namespace Binary64

/-- The steps between two neighbouring powers of two. -/
def stepsPerBinade : Nat := Nat.pow 2 52

/-- The units in one. -/
def unitsInOne : Nat := Nat.pow 2 1074

/-- The code of infinity, and the number of finite codes. -/
def infinity : Nat := 2047 * stepsPerBinade

/-- The code of a value that is no number. -/
def notANumber : Nat := infinity + stepsPerBinade / 2

/-- How often the step has doubled at a code. -/
def doublings (code : Nat) : Nat := code / stepsPerBinade - 1

/-- The units in the double with a finite code. -/
def units (code : Nat) : Nat :=
  (code - doublings code * stepsPerBinade) * Nat.pow 2 (doublings code)

/-- The whole number nearest to `num / den`; a half goes to the even one. -/
def roundToEven (num den : Nat) : Nat :=
  let quotient := num / den
  let twice := 2 * (num % den)
  if den < twice ∨ (twice = den ∧ quotient % 2 = 1) then quotient + 1 else quotient

/-- The code nearest to `num / den`; a half goes to the even one, and what lies past the last
    finite double goes to infinity. If the mantissa rounds up to the next power of two, the sum
    carries it into the exponent. -/
def nearest (num den : Nat) : Nat :=
  let scaled := num * unitsInOne
  let doublings := (scaled / den).log2 - 52
  min infinity (doublings * stepsPerBinade + roundToEven scaled (den * Nat.pow 2 doublings))

/-- The bit of the sign. -/
def signBit : Nat := Nat.pow 2 63

/-- Whether the sign of a double is a minus. -/
def isNegative (v : Float) : Bool := signBit ≤ v.toBits.toNat

/-- The code of a double without its sign. -/
def code (v : Float) : Nat := v.toBits.toNat % signBit

/-- The double with a sign and a code. -/
def ofCode (negative : Bool) (code : Nat) : Float :=
  Float.ofBits (UInt64.ofNat (if negative then signBit + code else code))

/-! ### Units and codes -/

theorem roundToEven_mul (n : Nat) {d : Nat} (h : 0 < d) : roundToEven (n * d) d = n := by
  simp [roundToEven, Nat.mul_div_cancel _ h, Nat.ne_of_lt h]

theorem units_of_lt {code : Nat} (h : code < stepsPerBinade) : units code = code := by
  simp [units, doublings, Nat.div_eq_of_lt h]

example : units 1 = 1 ∧ units (1023 * stepsPerBinade) = unitsInOne := by decide +kernel
example : nearest 1 10 = 0x3FB999999999999A ∧ nearest (10 ^ 309) 1 = infinity := by
  decide +kernel
example : nearest 5 (10 ^ 324) = 1 ∧ nearest 2 (10 ^ 324) = 0 := by decide +kernel

end Binary64

end Reckoner
