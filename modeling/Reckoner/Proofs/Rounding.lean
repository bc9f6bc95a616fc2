import Reckoner.Decimal.Shortest
import Reckoner.Proofs.Doubles

namespace Reckoner

/-!
# Rounding keeps the order

A larger decimal never rounds to a smaller double (`Decimal.code_le_code`), so decimals of one value
round to one double, whatever their coefficients and exponents are.  This comes from the quotients
that are rounded (`Binary64.nearest_le_nearest`): within one power of two it is the rounding to
whole steps that keeps the order, and from one power of two to the next, the codes in between do.

A double written exactly rounds to itself (`Decimal.code_exact`), and so does its shortest decimal,
which has been tried (`Decimal.code_shortest`).
-/

namespace Binary64

section Quotients

variable {num den num' den' n : Nat}

/-! ### Rounding to whole steps -/

theorem div_le_roundToEven (num den : Nat) : num / den ≤ roundToEven num den := by
  rw [roundToEven]
  split <;> omega

theorem roundToEven_le_div_succ (num den : Nat) : roundToEven num den ≤ num / den + 1 := by
  rw [roundToEven]
  split <;> omega

/-- Whole quotients of larger numbers, compared as `num / den ≤ num' / den'`. -/
theorem div_le_div_of_mul_le (hden : 0 < den) (hden' : 0 < den') (h : num * den' ≤ num' * den) :
    num / den ≤ num' / den' := by
  rw [Nat.le_div_iff_mul_le hden']
  refine Nat.le_of_mul_le_mul_right ?_ hden
  calc num / den * den' * den = num / den * den * den' := Nat.mul_right_comm _ _ _
    _ ≤ num * den' := Nat.mul_le_mul_right _ (Nat.div_mul_le_self _ _)
    _ ≤ num' * den := h

/-- A larger quotient does not round to a smaller number. -/
theorem roundToEven_le_roundToEven (hden : 0 < den) (hden' : 0 < den')
    (h : num * den' ≤ num' * den) : roundToEven num den ≤ roundToEven num' den' := by
  have hquotient : num / den ≤ num' / den' := div_le_div_of_mul_le hden hden' h
  rcases Nat.lt_or_eq_of_le hquotient with hlt | heq
  · calc roundToEven num den ≤ num / den + 1 := roundToEven_le_div_succ num den
      _ ≤ num' / den' := hlt
      _ ≤ roundToEven num' den' := div_le_roundToEven num' den'
  · -- With the same quotient, the remainders decide.
    have hremainder : num % den * den' ≤ num' % den' * den := by
      have hsum := Nat.div_add_mod num den
      have hsum' := Nat.div_add_mod num' den'
      rw [← heq] at hsum'
      rw [← hsum, ← hsum'] at h
      linarith
    have hhalf (hle : den ≤ 2 * (num % den)) : den' ≤ 2 * (num' % den') := by
      refine Nat.le_of_mul_le_mul_right ?_ hden
      have hscaled := Nat.mul_le_mul_right den' hle
      linarith
    have hpast (hlt : den < 2 * (num % den)) : den' < 2 * (num' % den') := by
      refine Nat.lt_of_mul_lt_mul_right (a := den) ?_
      have hscaled := Nat.mul_lt_mul_of_pos_right hlt hden'
      linarith
    rw [roundToEven, roundToEven, ← heq]
    split <;> split <;> omega

/-- A quotient that is at most a whole number rounds to at most it. -/
theorem roundToEven_le (hden : 0 < den) (h : num ≤ n * den) : roundToEven num den ≤ n := by
  rw [← roundToEven_mul n hden]
  exact roundToEven_le_roundToEven hden hden (Nat.mul_le_mul_right den h)

/-- A quotient that is at least a whole number rounds to at least it. -/
theorem le_roundToEven (hden : 0 < den) (h : n * den ≤ num) : n ≤ roundToEven num den := by
  rw [← roundToEven_mul n hden]
  exact roundToEven_le_roundToEven hden hden (Nat.mul_le_mul_right den h)

/-! ### Rounding to codes -/

/-- The doublings of the step where a number of units is rounded. -/
def scale (units : Nat) : Nat := units.log2 - 52

/-- The code nearest to `num / den` units, as if there were no infinity. -/
def unitsCode (num den : Nat) : Nat :=
  scale (num / den) * stepsPerBinade + roundToEven num (den * 2 ^ scale (num / den))

theorem nearest_eq (num den : Nat) :
    nearest num den = min infinity (unitsCode (num * unitsInOne) den) := rfl

theorem scale_le_scale {m n : Nat} (h : m ≤ n) : scale m ≤ scale n := by
  refine Nat.sub_le_sub_right ?_ 52
  rcases Nat.eq_zero_or_pos m with rfl | hm
  · exact Nat.zero_le _
  · exact (Nat.le_log2 (by omega)).2 ((Nat.log2_self_le (by omega)).trans h)

/-- At its scale, a number of units is less than two powers of two of steps. -/
theorem lt_of_scale (units : Nat) : units < 2 * stepsPerBinade * 2 ^ scale units := by
  have hlt : units < 2 ^ (units.log2 + 1) := Nat.lt_log2_self
  have hpow : 2 ^ (53 + scale units) = 2 * stepsPerBinade * 2 ^ scale units := by
    rw [Nat.pow_add]
    rfl
  rw [← hpow]
  refine hlt.trans_le (Nat.pow_le_pow_right (by decide) ?_)
  rw [scale]
  omega

/-- Where steps are doubled, it is at least one power of two of steps. -/
theorem le_of_scale {units : Nat} (h : 0 < scale units) :
    stepsPerBinade * 2 ^ scale units ≤ units := by
  have hlog : 52 + scale units = units.log2 := by
    rw [scale] at h ⊢
    omega
  have hne : units ≠ 0 := by
    rintro rfl
    exact absurd h (by decide)
  have hpow : 2 ^ (52 + scale units) = stepsPerBinade * 2 ^ scale units := Nat.pow_add 2 52 _
  rw [← hpow, hlog]
  exact Nat.log2_self_le hne

/-- So rounding stays within the power of two, or goes to the end of it. -/
theorem roundToEven_le_steps (num : Nat) (hden : 0 < den) :
    roundToEven num (den * 2 ^ scale (num / den)) ≤ 2 * stepsPerBinade := by
  refine roundToEven_le (Nat.mul_pos hden (Nat.two_pow_pos _)) (Nat.le_of_lt ?_)
  have hlt := (Nat.div_lt_iff_lt_mul hden).1 (lt_of_scale (num / den))
  rwa [Nat.mul_assoc, Nat.mul_comm (2 ^ _)] at hlt

theorem steps_le_roundToEven (hden : 0 < den) (h : 0 < scale (num / den)) :
    stepsPerBinade ≤ roundToEven num (den * 2 ^ scale (num / den)) := by
  refine le_roundToEven (Nat.mul_pos hden (Nat.two_pow_pos _)) ?_
  have hle := (Nat.le_div_iff_mul_le hden).1 (le_of_scale h)
  rwa [Nat.mul_assoc, Nat.mul_comm (2 ^ _)] at hle

/-- A larger quotient does not round to a smaller code. -/
theorem unitsCode_le_unitsCode (hden : 0 < den) (hden' : 0 < den')
    (h : num * den' ≤ num' * den) : unitsCode num den ≤ unitsCode num' den' := by
  have hquotient : num / den ≤ num' / den' := div_le_div_of_mul_le hden hden' h
  rw [unitsCode, unitsCode]
  rcases Nat.lt_or_eq_of_le (scale_le_scale hquotient) with hlt | heq
  · -- The codes between the two powers of two keep the order.
    have hupper := roundToEven_le_steps num hden
    have hlower : stepsPerBinade ≤ roundToEven num' _ := steps_le_roundToEven hden' (by omega)
    have hsteps := Nat.mul_le_mul_right stepsPerBinade (Nat.succ_le_of_lt hlt)
    rw [Nat.succ_mul] at hsteps
    omega
  · rw [heq]
    refine Nat.add_le_add_left (roundToEven_le_roundToEven ?_ ?_ ?_) _
    · exact Nat.mul_pos hden (Nat.two_pow_pos _)
    · exact Nat.mul_pos hden' (Nat.two_pow_pos _)
    · have hscaled := Nat.mul_le_mul_right (2 ^ scale (num' / den')) h
      rwa [Nat.mul_assoc, Nat.mul_assoc] at hscaled

/-- **A larger quotient does not round to a smaller double.** -/
theorem nearest_le_nearest (hden : 0 < den) (hden' : 0 < den') (h : num * den' ≤ num' * den) :
    nearest num den ≤ nearest num' den' := by
  rw [nearest_eq, nearest_eq]
  have hscaled := Nat.mul_le_mul_right unitsInOne h
  rw [Nat.mul_right_comm num, Nat.mul_right_comm num'] at hscaled
  have hle := unitsCode_le_unitsCode hden hden' hscaled
  omega

/-! ### Doubles round to themselves -/

/-- The units of a double are at its own scale. -/
theorem scale_units (c : Nat) : scale (units c) = doublings c := by
  rcases Nat.lt_or_ge c stepsPerBinade with hlt | hge
  · rw [units_of_lt hlt, (mantissa_of_lt hlt).1, scale, Nat.sub_eq_zero_iff_le]
    rcases Nat.eq_zero_or_pos c with rfl | hpos
    · exact Nat.zero_le _
    · exact Nat.le_of_lt ((Nat.log2_lt (by omega)).2 hlt)
  · have hlog := log2_mantissa hge
    have hpos : mantissa c ≠ 0 := fun hzero => by simp [hzero] at hlog
    obtain ⟨hlower, hupper⟩ := (Nat.log2_eq_iff hpos).1 hlog
    have hunits : (units c).log2 = 52 + doublings c := by
      refine (Nat.log2_eq_iff (Nat.mul_ne_zero hpos (Nat.two_pow_pos _).ne')).2 ⟨?_, ?_⟩
      · rw [Nat.pow_add]
        exact Nat.mul_le_mul_right _ hlower
      · rw [Nat.add_right_comm, Nat.pow_add]
        exact Nat.mul_lt_mul_of_pos_right hupper (Nat.two_pow_pos _)
    rw [scale, hunits, Nat.add_sub_cancel_left]

/-- The units of a double round to its code. -/
theorem unitsCode_units (c : Nat) (hden : 0 < den) : unitsCode (units c * den) den = c := by
  have hunits : units c = mantissa c * 2 ^ doublings c := rfl
  rw [unitsCode, Nat.mul_div_cancel _ hden, scale_units]
  conv_lhs => rw [hunits, Nat.mul_assoc, Nat.mul_comm _ den]
  rw [roundToEven_mul _ (Nat.mul_pos hden (Nat.two_pow_pos _)), doublings_add_mantissa]

end Quotients

end Binary64

namespace Decimal

variable {d d' : Decimal} {n : Nat}

/-! ### The value of a decimal -/

/-- The number that a decimal writes. -/
def value (d : Decimal) : ℚ := d.coefficient * 10 ^ d.exponent

/-- The two parts of a decimal as a quotient of whole numbers. -/
def numerator (d : Decimal) : Nat := d.coefficient * 10 ^ d.exponent.toNat

def denominator (d : Decimal) : Nat := 10 ^ (-d.exponent).toNat

theorem denominator_pos (d : Decimal) : 0 < d.denominator := Nat.pow_pos (by decide)

theorem value_eq_div (d : Decimal) : d.value = d.numerator / d.denominator := by
  have hexponent : d.exponent = (d.exponent.toNat : ℤ) - ((-d.exponent).toNat : ℤ) :=
    (Int.toNat_sub_toNat_neg d.exponent).symm
  rw [value, numerator, denominator]
  conv_lhs => rw [hexponent, zpow_sub₀ (by norm_num), zpow_natCast, zpow_natCast]
  push_cast
  rw [mul_div_assoc]

theorem value_le_iff :
    d.value ≤ d'.value ↔ d.numerator * d'.denominator ≤ d'.numerator * d.denominator := by
  have hd : (0 : ℚ) < d.denominator := by exact_mod_cast d.denominator_pos
  have hd' : (0 : ℚ) < d'.denominator := by exact_mod_cast d'.denominator_pos
  rw [value_eq_div, value_eq_div, div_le_div_iff₀ hd hd']
  norm_cast

/-! ### The code of a decimal -/

/-- Past the limit of exponents, a decimal rounds to infinity. -/
theorem nearest_of_limit_lt (hcoefficient : d.coefficient ≠ 0) (h : exponentLimit < d.exponent) :
    Binary64.nearest d.numerator d.denominator = Binary64.infinity := by
  obtain ⟨k, hk, hbig⟩ : ∃ k : Nat, k ≤ exponentLimit ∧
      Binary64.nearest (10 ^ k) 1 = Binary64.infinity :=
    ⟨309, by decide, by decide +kernel⟩
  have hden : d.denominator = 1 := by
    rw [denominator, Int.toNat_of_nonpos (by omega), Nat.pow_zero]
  have hnum : 10 ^ k ≤ d.numerator := by
    calc 10 ^ k ≤ 10 ^ d.exponent.toNat := Nat.pow_le_pow_right (by decide) (by omega)
      _ ≤ d.numerator := Nat.le_mul_of_pos_left _ (Nat.pos_of_ne_zero hcoefficient)
  have hle : Binary64.nearest (10 ^ k) 1 ≤ Binary64.nearest d.numerator d.denominator := by
    refine Binary64.nearest_le_nearest Nat.one_pos d.denominator_pos ?_
    rwa [hden, Nat.mul_one, Nat.mul_one]
  rw [hbig] at hle
  exact Nat.le_antisymm (Nat.min_le_left _ _) hle

/-- On the other side of it, it rounds to zero. -/
theorem nearest_of_lt_limit (h : d.exponent + d.coefficient.log2 < -exponentLimit) :
    Binary64.nearest d.numerator d.denominator = 0 := by
  obtain ⟨k, hk, hsmall⟩ : ∃ k : Nat, k ≤ exponentLimit ∧ Binary64.nearest 2 (10 ^ k) = 0 :=
    ⟨324, by decide, by decide +kernel⟩
  have hlimit : 0 ≤ exponentLimit := by decide
  have hnum : d.numerator = d.coefficient := by
    rw [numerator, Int.toNat_of_nonpos (by omega), Nat.pow_zero, Nat.mul_one]
  have hle : d.numerator * 10 ^ k ≤ 2 * d.denominator := by
    calc d.numerator * 10 ^ k ≤ 2 ^ (d.coefficient.log2 + 1) * 10 ^ k := by
          rw [hnum]
          exact Nat.mul_le_mul_right _ (Nat.le_of_lt Nat.lt_log2_self)
      _ ≤ 2 * 10 ^ d.coefficient.log2 * 10 ^ k := by
          rw [Nat.pow_succ, Nat.mul_comm _ 2]
          exact Nat.mul_le_mul_right _
            (Nat.mul_le_mul_left 2 (Nat.pow_le_pow_left (by decide) _))
      _ = 2 * 10 ^ (d.coefficient.log2 + k) := by rw [Nat.mul_assoc, ← Nat.pow_add]
      _ ≤ 2 * d.denominator :=
          Nat.mul_le_mul_left 2 (Nat.pow_le_pow_right (by decide) (by omega))
  have hbound := Binary64.nearest_le_nearest d.denominator_pos (Nat.pow_pos (by decide)) hle
  rw [hsmall] at hbound
  exact Nat.le_zero.1 hbound

theorem nearest_zero (hden : 0 < n) : Binary64.nearest 0 n = 0 := by
  have hbound : Binary64.nearest 0 n ≤ Binary64.nearest 0 1 :=
    Binary64.nearest_le_nearest hden Nat.one_pos (by rw [Nat.zero_mul, Nat.zero_mul])
  have hsmall : Binary64.nearest 0 1 = 0 := by decide +kernel
  rw [hsmall] at hbound
  exact Nat.le_zero.1 hbound

/-- **The short cuts change nothing**: what they answer is what rounding gives. -/
theorem code_eq_nearest (d : Decimal) : d.code = Binary64.nearest d.numerator d.denominator := by
  rw [code]
  split
  · next hzero =>
    rw [numerator, hzero, Nat.zero_mul]
    exact (nearest_zero d.denominator_pos).symm
  · next hne =>
    split
    · next h => exact (nearest_of_limit_lt hne h).symm
    · split
      · next h => exact (nearest_of_lt_limit h).symm
      · rfl

/-- **A larger decimal does not round to a smaller double.** -/
theorem code_le_code (h : d.value ≤ d'.value) : d.code ≤ d'.code := by
  rw [code_eq_nearest, code_eq_nearest]
  exact Binary64.nearest_le_nearest d.denominator_pos d'.denominator_pos (value_le_iff.1 h)

/-- Decimals of one value round to one double. -/
theorem code_congr (h : d.value = d'.value) : d.code = d'.code :=
  Nat.le_antisymm (code_le_code (le_of_eq h)) (code_le_code (ge_of_eq h))

/-! ### The decimals of a double -/

variable {c drop : Nat}

theorem exact_eq (c : Nat) :
    exact c = ⟨Binary64.units c * Nat.pow 5 1074, -((1074 : Nat) : Int)⟩ := by
  rw [exact]
  rfl

/-- **A double written exactly rounds to itself.** -/
theorem code_exact (hc : c ≤ Binary64.infinity) : (exact c).code = c := by
  have hexact := exact_eq c
  rw [code_eq_nearest, Binary64.nearest_eq]
  unfold Binary64.unitsInOne
  -- All that matters of the exponent is that it is the same three times.
  generalize 1074 = k at hexact ⊢
  have hexponent : (-(k : Int)).toNat = 0 := by omega
  have hnum : (exact c).numerator * Nat.pow 2 k = Binary64.units c * (exact c).denominator := by
    rw [hexact, numerator, denominator]
    simp only [hexponent, Int.neg_neg, Int.toNat_natCast, Nat.pow_eq, Nat.pow_zero, Nat.mul_one]
    rw [Nat.mul_assoc, ← Nat.mul_pow]
  rw [hnum, Binary64.unitsCode_units c (exact c).denominator_pos, Nat.min_eq_right hc]

/-- A neighbour is only given if it rounds to the double. -/
theorem code_of_neighbour? (h : neighbour? c drop = some d) : d.code = c := by
  unfold neighbour? at h
  extract_lets step coefficient below above at h
  -- What the two neighbours are does not matter.
  clear_value above below
  split at h
  · next hbelow =>
    split at h
    · next habove =>
      obtain rfl := Option.some.inj h
      exact habove.1
    · obtain rfl := Option.some.inj h
      exact hbelow
  · split at h
    · next habove =>
      obtain rfl := Option.some.inj h
      exact habove
    · cases h

/-- **The shortest decimal of a double rounds to it**, on whatever grid the search starts. -/
theorem code_shortestFrom (hc : c ≤ Binary64.infinity) (drop : Nat) :
    (shortestFrom c drop).code = c := by
  induction drop with
  | zero => exact code_exact hc
  | succ drop ih =>
    rw [shortestFrom]
    cases h : neighbour? c (drop + 1) with
    | none => exact ih
    | some d => exact code_of_neighbour? h

theorem code_shortest (hc : c ≤ Binary64.infinity) : (shortest c).code = c :=
  code_shortestFrom hc _

end Decimal

end Reckoner
