import Reckoner.Decimal

namespace Reckoner

/-!
# Numerals

A numeral is the text of a double: an optional sign, then `inf`, `infinity` or `nan` in any case,
or digits with an optional point and an optional exponent. One digit is enough, on either side of
the point. Blanks are not allowed. `Numeral.value?` reads any such text to the nearest double.
-/

namespace Numeral

/-- The number that a list of digits writes. -/
def ofDigits (digits : List Char) : Nat :=
  digits.foldl (fun n c => 10 * n + (c.toNat - '0'.toNat)) 0

/-- Split a sign off; without one the numeral is positive. -/
def splitSign : List Char → Bool × List Char
  | '+' :: cs => (false, cs)
  | '-' :: cs => (true, cs)
  | cs => (false, cs)

/-- Split the places after a point off. -/
def splitPlaces : List Char → List Char × List Char
  | '.' :: cs => (cs.takeWhile Char.isDigit, cs.dropWhile Char.isDigit)
  | cs => ([], cs)

/-- The exponent that ends a numeral; without one it is zero. -/
def exponent? : List Char → Option Int
  | [] => some 0
  | c :: cs =>
    let (negative, digits) := splitSign cs
    if c.toLower = 'e' ∧ digits ≠ [] ∧ digits.all Char.isDigit then
      let n : Int := ofDigits digits
      some (if negative then -n else n)
    else none

/-- A numeral in digits, without its sign. -/
def decimal? (cs : List Char) : Option Decimal :=
  let whole := cs.takeWhile Char.isDigit
  let (places, more) := splitPlaces (cs.dropWhile Char.isDigit)
  if whole ++ places = [] then none
  else (exponent? more).map fun e => ⟨ofDigits (whole ++ places), e - places.length⟩

/-- The code of a numeral without its sign. -/
def code? (cs : List Char) : Option Nat :=
  let word := String.ofList (cs.map Char.toLower)
  if word = "inf" ∨ word = "infinity" then some Binary64.infinity
  else if word = "nan" then some Binary64.notANumber
  else (decimal? cs).map Decimal.code

/-- The double that a numeral writes; `none` if the text is no numeral. -/
def value? (text : String) : Option Float :=
  let (negative, cs) := splitSign text.toList
  (code? cs).map (Binary64.ofCode negative)

example : decimal? "12.50e-3".toList = some ⟨1250, -5⟩ := by decide
example : decimal? "5.".toList = some ⟨5, 0⟩ ∧ decimal? ".5".toList = some ⟨5, -1⟩ := by decide
example : decimal? ".".toList = none ∧ decimal? "1e".toList = none ∧ decimal? "".toList = none := by
  decide

end Numeral

end Reckoner
