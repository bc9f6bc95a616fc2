import Reckoner.Decimal.Shortest

namespace Reckoner

/-!
# Number text

The text of a double is made of its shortest digits `d₁ d₂ … dₖ` and the power of ten of the
first one.

* `Significant.plain` writes them with a point and as many zeros as it takes;
* `Significant.scientific` writes `d₁.d₂…dₖe±n`;
* `Significant.layout` is plain from `10 ^ (-6)` to below `10 ^ 21` and scientific elsewhere.

`NumberText.shown` is how a result is shown, `NumberText.logged` how the log writes it.
-/

/-- Digits that neither start nor end with a zero, and the power of ten of the first one. -/
structure Significant where
  digits : List Char
  exponent : Int
  deriving DecidableEq, Repr

/-- The digits of a decimal without the zeros at their end. -/
def Decimal.significant (d : Decimal) : Significant :=
  let all := digits d.coefficient
  { digits := (all.reverse.dropWhile (· == '0')).reverse
    exponent := d.exponent + all.length - 1 }

namespace Significant

/-- The digits with a point where it belongs, filled up with zeros. -/
def plain (s : Significant) : List Char :=
  if s.exponent < 0 then
    '0' :: '.' :: List.replicate (-s.exponent - 1).toNat '0' ++ s.digits
  else
    let whole := s.exponent.toNat + 1
    if s.digits.length ≤ whole then
      s.digits ++ List.replicate (whole - s.digits.length) '0'
    else s.digits.take whole ++ '.' :: s.digits.drop whole

/-- The first digit, the others after a point, and the power of ten with its sign. -/
def scientific (s : Significant) : List Char :=
  let mantissa :=
    match s.digits with
    | first :: second :: more => first :: '.' :: second :: more
    | short => short
  mantissa ++ 'e' :: (if s.exponent < 0 then '-' else '+') :: Decimal.digits s.exponent.natAbs

/-- Plain where that takes few zeros, scientific elsewhere. -/
def layout (s : Significant) : List Char :=
  if -6 ≤ s.exponent ∧ s.exponent ≤ 20 then s.plain else s.scientific

end Significant

namespace NumberText

/-- The words for the values that are no finite numbers. -/
structure Words where
  notANumber : List Char
  infinity : List Char

/-- The sign of a number's text. -/
def signed (negative : Bool) (cs : List Char) : List Char :=
  if negative then '-' :: cs else cs

/-- The text of a double, given the words, whether zero has a sign, and the layout. -/
def write (words : Words) (signedZero : Bool) (layout : Significant → List Char) (v : Float) :
    String :=
  let code := Binary64.code v
  let negative := Binary64.isNegative v
  String.ofList <|
    if Binary64.infinity < code then words.notANumber
    else if code = Binary64.infinity then signed negative words.infinity
    else if code = 0 then signed (negative && signedZero) ['0']
    else signed negative (layout (Decimal.shortest code).significant)

/-- A result as it is shown: zero has no sign, and very large and very small numbers are
    scientific. -/
def shown : Float → String :=
  write ⟨"NaN".toList, "Infinity".toList⟩ false Significant.layout

/-- A result as the log writes it: zero keeps its sign, and no number is scientific. -/
def logged : Float → String :=
  write ⟨"NaN".toList, "inf".toList⟩ true Significant.plain

end NumberText

end Reckoner
