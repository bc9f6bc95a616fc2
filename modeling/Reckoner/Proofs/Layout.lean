import Reckoner.Decimal.Layout
import Reckoner.Proofs.Rounding
import Reckoner.Proofs.Segmentation

namespace Reckoner

/-!
# Layouts keep the value

Digits are moved about twice: the zeros at the end of a decimal's digits are dropped, and what is
left is laid out with a point, with zeros or with an exponent.  Neither changes the number that is
written.

* `Decimal.value_significant` — the digits without the zeros, at the power of ten of the first one;
* `Writes` — digits, possibly with a point, and the number that they write;
* `Significant.writes_plain` — a plain layout writes the value;
* `Significant.decimal?_layout` — every layout is read back as a decimal of this value.
-/

/-! ### The number that digits write -/

namespace Numeral

theorem ofDigits_append (xs ys : List Char) :
    ofDigits (xs ++ ys) = ofDigits xs * 10 ^ ys.length + ofDigits ys := by
  calc ofDigits (xs ++ ys) = Nat.ofDigitChars 10 ys (ofDigits xs) := Nat.ofDigitChars_append 0
    _ = 10 ^ ys.length * ofDigits xs + ofDigits ys := Nat.ofDigitChars_eq_ofDigitChars_zero
    _ = ofDigits xs * 10 ^ ys.length + ofDigits ys := by rw [Nat.mul_comm]

theorem ofDigits_zeros (k : Nat) : ofDigits (List.replicate k '0') = 0 := by
  have hzeros : Nat.ofDigitChars 10 (List.replicate k '0') 0 = 10 ^ k * 0 :=
    Nat.ofDigitChars_replicate_zero
  rwa [Nat.mul_zero] at hzeros

theorem ofDigits_append_zeros (xs : List Char) (k : Nat) :
    ofDigits (xs ++ List.replicate k '0') = ofDigits xs * 10 ^ k := by
  rw [ofDigits_append, ofDigits_zeros, List.length_replicate, Nat.add_zero]

theorem ofDigits_zeros_append (k : Nat) (xs : List Char) :
    ofDigits (List.replicate k '0' ++ xs) = ofDigits xs := by
  rw [ofDigits_append, ofDigits_zeros, Nat.zero_mul, Nat.zero_add]

theorem isDigit_of_mem_zeros {k : Nat} {c : Char} (h : c ∈ List.replicate k '0') :
    c.isDigit = true := by
  obtain rfl := List.eq_of_mem_replicate h
  rfl

/-- Without a point there are no places. -/
theorem splitPlaces_of_ne {rest : List Char} (h : ∀ c ∈ rest.head?, c ≠ '.') :
    splitPlaces rest = ([], rest) := by
  unfold splitPlaces
  split
  · exact absurd rfl (h '.' rfl)
  · rfl

end Numeral

namespace Decimal

theorem ofDigits_digits (n : Nat) : Numeral.ofDigits (digits n) = n :=
  Nat.ofDigitChars_ten_toDigits

theorem isDigit_of_mem_digits {n : Nat} {c : Char} (h : c ∈ digits n) : c.isDigit = true :=
  Nat.isDigit_of_mem_toDigits (by decide) (by decide) h

end Decimal

/-! ### The significant digits -/

namespace Significant

/-- The number that digits write, the first one standing for the power of ten. -/
def value (s : Significant) : ℚ :=
  Numeral.ofDigits s.digits * 10 ^ (s.exponent + 1 - s.digits.length)

/-- The power of ten of the last digit. -/
def place (s : Significant) : Int := s.exponent + 1 - s.digits.length

/-- There are digits, and nothing else. -/
structure Proper (s : Significant) : Prop where
  nonempty : s.digits ≠ []
  all : ∀ c ∈ s.digits, c.isDigit = true

end Significant

namespace Decimal

variable {d : Decimal}

/-- The digits of a decimal are its significant ones and zeros. -/
theorem exists_zeros (d : Decimal) :
    ∃ k, digits d.coefficient = d.significant.digits ++ List.replicate k '0' := by
  let zeros := (digits d.coefficient).reverse.takeWhile (· == '0')
  have hcut : zeros ++ (digits d.coefficient).reverse.dropWhile (· == '0')
      = (digits d.coefficient).reverse := List.takeWhile_append_dropWhile
  have hzeros : zeros.reverse = List.replicate zeros.reverse.length '0' := by
    refine List.eq_replicate_of_mem fun c hc => ?_
    have hall := List.all_eq_true.1 List.all_takeWhile c (List.mem_reverse.1 hc)
    exact eq_of_beq hall
  refine ⟨zeros.reverse.length, ?_⟩
  rw [← hzeros, significant, ← List.reverse_append, hcut, List.reverse_reverse]

/-- The digits and zeros as numbers, and the place of the first digit. -/
theorem significant_spec (d : Decimal) :
    ∃ k : Nat, d.coefficient = Numeral.ofDigits d.significant.digits * 10 ^ k ∧
      d.significant.exponent = d.exponent + (d.significant.digits.length + k : Nat) - 1 := by
  obtain ⟨k, hdigits⟩ := d.exists_zeros
  refine ⟨k, ?_, ?_⟩
  · rw [← Numeral.ofDigits_append_zeros, ← hdigits, ofDigits_digits]
  · have hlength : (digits d.coefficient).length = d.significant.digits.length + k := by
      rw [hdigits, List.length_append, List.length_replicate]
    rw [← hlength]
    rfl

/-- **Dropping zeros keeps the value.** -/
theorem value_significant (d : Decimal) : d.significant.value = d.value := by
  obtain ⟨k, hcoefficient, hexponent⟩ := d.significant_spec
  have hplace : d.significant.exponent + 1 - d.significant.digits.length = k + d.exponent := by
    omega
  rw [Significant.value, value, hplace, hcoefficient, zpow_add₀ (by norm_num), zpow_natCast]
  push_cast
  rw [mul_assoc]

theorem proper_significant (h : d.coefficient ≠ 0) : d.significant.Proper := by
  obtain ⟨k, hdigits⟩ := d.exists_zeros
  refine ⟨fun hnil => h ?_, fun c hc => ?_⟩
  · obtain ⟨k, hcoefficient, -⟩ := d.significant_spec
    rw [hcoefficient, hnil]
    exact Nat.zero_mul _
  · exact isDigit_of_mem_digits (by rw [hdigits]; exact List.mem_append_left _ hc)

/-- The number of digits of a number, by the powers of ten around it. -/
theorem digits_bounds {n : Nat} (h : n ≠ 0) :
    10 ^ ((digits n).length - 1) ≤ n ∧ n < 10 ^ (digits n).length := by
  have hpos : 0 < (digits n).length := Nat.length_toDigits_pos
  refine ⟨?_, (Nat.length_toDigits_le_iff (by decide) hpos).1 (Nat.le_refl _)⟩
  by_cases hone : (digits n).length - 1 = 0
  · rw [hone, Nat.pow_zero]
    omega
  · refine Nat.le_of_not_lt fun hlt => ?_
    have hle : (digits n).length ≤ (digits n).length - 1 :=
      (Nat.length_toDigits_le_iff (by decide) (by omega)).2 hlt
    omega

/-- **The exponent is that of the largest power of ten in the value.** -/
theorem value_bounds (h : d.coefficient ≠ 0) :
    10 ^ d.significant.exponent ≤ d.value ∧ d.value < 10 ^ (d.significant.exponent + 1) := by
  obtain ⟨hlower, hupper⟩ := digits_bounds h
  have hlength : 0 < (digits d.coefficient).length := Nat.length_toDigits_pos
  have hexponent : d.significant.exponent
      = ((digits d.coefficient).length - 1 : Nat) + d.exponent := by
    show d.exponent + (digits d.coefficient).length - 1 = _
    omega
  have hnext : d.significant.exponent + 1 = (digits d.coefficient).length + d.exponent := by
    omega
  have hpos : (0 : ℚ) < 10 ^ d.exponent := zpow_pos (by norm_num) _
  rw [hnext, hexponent, value, zpow_add₀ (by norm_num), zpow_add₀ (by norm_num), zpow_natCast,
    zpow_natCast]
  constructor
  · exact mul_le_mul_of_nonneg_right (by exact_mod_cast hlower) hpos.le
  · exact mul_lt_mul_of_pos_right (by exact_mod_cast hupper) hpos

end Decimal

/-! ### Plain numbers -/

/-- **Digits, possibly with a point, and the number that they write.** -/
inductive Writes : List Char → ℚ → Prop where
  | whole {digits : List Char} (nonempty : digits ≠ [])
      (all : ∀ c ∈ digits, c.isDigit = true) : Writes digits (Numeral.ofDigits digits)
  | places {digits places : List Char} (nonempty : digits ≠ [])
      (all : ∀ c ∈ digits, c.isDigit = true) (placesNonempty : places ≠ [])
      (placesAll : ∀ c ∈ places, c.isDigit = true) :
      Writes (digits ++ '.' :: places)
        (Numeral.ofDigits (digits ++ places) / 10 ^ places.length)

namespace Writes

variable {cs rest : List Char} {x : ℚ}

/-- What writes a number is a literal. -/
theorem literal (h : Writes cs x) : Literal cs := by
  cases h with
  | whole nonempty all => exact .whole nonempty all
  | places nonempty all placesNonempty placesAll =>
    exact .places nonempty all placesNonempty placesAll

/-- **A number with an exponent is read** as its value at the power of ten. -/
theorem decimal?_append (h : Writes cs x) (hrest : ∀ c ∈ rest.head?, c.isDigit = false ∧ c ≠ '.')
    {e : Int} (he : Numeral.exponent? rest = some e) :
    ∃ d, Numeral.decimal? (cs ++ rest) = some d ∧ d.value = x * 10 ^ e := by
  cases h with
  | whole nonempty all =>
    obtain ⟨htake, hdrop⟩ := span_append all fun c hc => (hrest c hc).1
    have hsplit : Numeral.splitPlaces rest = ([], rest) :=
      Numeral.splitPlaces_of_ne fun c hc => (hrest c hc).2
    refine ⟨⟨Numeral.ofDigits cs, e⟩, ?_, rfl⟩
    simp [Numeral.decimal?, htake, hdrop, hsplit, he, nonempty]
  | @places digits places nonempty all placesNonempty placesAll =>
    have hpoint : ∀ c ∈ ('.' :: (places ++ rest)).head?, c.isDigit = false := by simp
    obtain ⟨htake, hdrop⟩ := span_append all hpoint
    obtain ⟨htakePlaces, hdropPlaces⟩ := span_append placesAll fun c hc => (hrest c hc).1
    refine ⟨⟨Numeral.ofDigits (digits ++ places), e - places.length⟩, ?_, ?_⟩
    · rw [List.append_assoc, List.cons_append]
      simp [Numeral.decimal?, htake, hdrop, Numeral.splitPlaces, htakePlaces, hdropPlaces, he,
        nonempty]
    · rw [Decimal.value, zpow_sub₀ (by norm_num), zpow_natCast]
      ring

/-- A number without an exponent is read as its value. -/
theorem decimal?_eq (h : Writes cs x) : ∃ d, Numeral.decimal? cs = some d ∧ d.value = x := by
  have hnone : ∀ c ∈ ([] : List Char).head?, c.isDigit = false ∧ c ≠ '.' := by simp
  obtain ⟨d, hd, hvalue⟩ := h.decimal?_append hnone rfl
  rw [List.append_nil] at hd
  rw [zpow_zero, mul_one] at hvalue
  exact ⟨d, hd, hvalue⟩

end Writes

namespace Significant

variable {s : Significant}

/-- Below one, a zero stands before the point. -/
theorem plain_of_neg (h : s.exponent < 0) :
    s.plain = ['0'] ++ '.' :: (List.replicate (-s.exponent - 1).toNat '0' ++ s.digits) := by
  rw [plain, if_pos h]
  rfl

/-- Whole numbers are filled up with zeros. -/
theorem plain_of_place_nonneg (hs : s.Proper) (h : 0 ≤ s.place) :
    s.plain = s.digits ++ List.replicate s.place.toNat '0' := by
  have hpos := List.length_pos_iff.2 hs.nonempty
  unfold place at h ⊢
  have hcount : s.exponent.toNat + 1 - s.digits.length
      = (s.exponent + 1 - s.digits.length).toNat := by omega
  unfold plain
  rw [if_neg (by omega)]
  dsimp only
  rw [if_pos (by omega), hcount]

/-- Other numbers have the point between their digits. -/
theorem plain_of_place_neg (hexponent : 0 ≤ s.exponent) (h : s.place < 0) :
    s.plain = s.digits.take (s.exponent + 1).toNat
      ++ '.' :: s.digits.drop (s.exponent + 1).toNat := by
  unfold place at h
  have hcut : s.exponent.toNat + 1 = (s.exponent + 1).toNat := by omega
  unfold plain
  rw [if_neg (by omega)]
  dsimp only
  rw [if_neg (by omega), hcut]

/-- Then there are digits on either side of the point. -/
theorem sides_nonempty (hexponent : 0 ≤ s.exponent) (h : s.place < 0) :
    s.digits.take (s.exponent + 1).toNat ≠ [] ∧ s.digits.drop (s.exponent + 1).toNat ≠ [] := by
  unfold place at h
  constructor
  · apply List.length_pos_iff.1
    rw [List.length_take]
    omega
  · apply List.length_pos_iff.1
    rw [List.length_drop]
    omega

/-- **A plain layout writes the value.** -/
theorem writes_plain (hs : s.Proper) : Writes s.plain s.value := by
  have hzeros (k : Nat) : ∀ c ∈ List.replicate k '0', c.isDigit = true :=
    fun c hc => Numeral.isDigit_of_mem_zeros hc
  by_cases hnegative : s.exponent < 0
  · let places := List.replicate (-s.exponent - 1).toNat '0' ++ s.digits
    have hplaces : ∀ c ∈ places, c.isDigit = true :=
      List.forall_mem_append.2 ⟨hzeros _, hs.all⟩
    have hlength : places.length = (-s.exponent - 1).toNat + s.digits.length := by simp [places]
    have hplace : s.exponent + 1 - s.digits.length = -(places.length : Int) := by omega
    have hdigits : Numeral.ofDigits (['0'] ++ places) = Numeral.ofDigits s.digits :=
      (Numeral.ofDigits_zeros_append 1 _).trans (Numeral.ofDigits_zeros_append _ _)
    rw [plain_of_neg hnegative, value, hplace, zpow_neg, zpow_natCast, ← div_eq_mul_inv, ← hdigits]
    exact .places (by simp) (hzeros 1) (by simp [hs.nonempty]) hplaces
  by_cases hwhole : 0 ≤ s.place
  · have hplace : s.exponent + 1 - s.digits.length = (s.place.toNat : Int) :=
      (Int.toNat_of_nonneg hwhole).symm
    have hvalue : s.value
        = (Numeral.ofDigits (s.digits ++ List.replicate s.place.toNat '0') : Nat) := by
      rw [value, hplace, zpow_natCast, Numeral.ofDigits_append_zeros]
      push_cast
      rfl
    rw [plain_of_place_nonneg hs hwhole, hvalue]
    exact .whole (by simp [hs.nonempty]) (List.forall_mem_append.2 ⟨hs.all, hzeros _⟩)
  · let whole := s.digits.take (s.exponent + 1).toNat
    let places := s.digits.drop (s.exponent + 1).toNat
    have hcut : whole ++ places = s.digits := List.take_append_drop _ _
    have hplace : s.exponent + 1 - s.digits.length = -(places.length : Int) := by
      have hlength : places.length = s.digits.length - (s.exponent + 1).toNat := List.length_drop
      unfold place at hwhole
      omega
    have hvalue : s.value = (Numeral.ofDigits (whole ++ places) : Nat) / 10 ^ places.length := by
      rw [value, hplace, zpow_neg, zpow_natCast, ← div_eq_mul_inv, hcut]
    have hall : ∀ c ∈ whole ++ places, c.isDigit = true := by
      rw [hcut]
      exact hs.all
    obtain ⟨hwholeNonempty, hplacesNonempty⟩ := sides_nonempty (s := s) (by omega) (by omega)
    obtain ⟨hwholeAll, hplacesAll⟩ := List.forall_mem_append.1 hall
    rw [plain_of_place_neg (by omega) (by omega), hvalue]
    exact .places hwholeNonempty hwholeAll hplacesNonempty hplacesAll

/-- The digits of the scientific layout, with a point behind the first one. -/
def mantissa (s : Significant) : List Char :=
  match s.digits with
  | first :: second :: more => first :: '.' :: second :: more
  | short => short

/-- The exponent of the scientific layout. -/
def power (s : Significant) : List Char :=
  'e' :: (if s.exponent < 0 then '-' else '+') :: Decimal.digits s.exponent.natAbs

theorem scientific_eq (s : Significant) : s.scientific = s.mantissa ++ s.power := rfl

/-- The mantissa writes the value, but for the power of ten. -/
theorem writes_mantissa (hs : s.Proper) :
    ∃ x, Writes s.mantissa x ∧ x * 10 ^ s.exponent = s.value := by
  obtain ⟨digits, exponent⟩ := s
  obtain ⟨nonempty, all⟩ := hs
  rcases digits with _ | ⟨first, _ | ⟨second, more⟩⟩
  · exact absurd rfl nonempty
  · refine ⟨_, .whole nonempty all, ?_⟩
    simp [value, mantissa]
  · obtain ⟨hfirst, hmore⟩ := List.forall_mem_cons.1 all
    have hone : ∀ c ∈ [first], c.isDigit = true := by simpa using hfirst
    refine ⟨_, .places (List.cons_ne_nil first []) hone (List.cons_ne_nil second more) hmore, ?_⟩
    have hplace : exponent + 1 - (first :: second :: more).length
        = exponent - (second :: more).length := by
      simp only [List.length_cons]
      omega
    rw [value, hplace, zpow_sub₀ (by norm_num), zpow_natCast, List.singleton_append]
    ring

/-- The exponent is read as a power of ten. -/
theorem exponent?_power (s : Significant) : Numeral.exponent? s.power = some s.exponent := by
  have hdigits : Decimal.digits s.exponent.natAbs ≠ [] := Nat.toDigits_ne_nil
  have hall : (Decimal.digits s.exponent.natAbs).all Char.isDigit = true :=
    List.all_eq_true.2 fun c hc => Decimal.isDigit_of_mem_digits hc
  have he : 'e'.toLower = 'e' := rfl
  unfold power Numeral.exponent?
  by_cases hnegative : s.exponent < 0
  · have hvalue : -(s.exponent.natAbs : Int) = s.exponent := by omega
    simp only [if_pos hnegative, Numeral.splitSign, he, ne_eq, hdigits, not_false_eq_true, hall,
      and_self, if_true, Decimal.ofDigits_digits, hvalue]
  · have hvalue : (s.exponent.natAbs : Int) = s.exponent := by omega
    simp only [if_neg hnegative, Numeral.splitSign, he, ne_eq, hdigits, not_false_eq_true, hall,
      and_self, if_true, Bool.false_eq_true, if_false, Decimal.ofDigits_digits, hvalue]

/-- **Every layout is read back** as a decimal of the value. -/
theorem decimal?_layout (hs : s.Proper) :
    ∃ d, Numeral.decimal? s.layout = some d ∧ d.value = s.value := by
  rw [layout]
  split
  · exact (writes_plain hs).decimal?_eq
  · obtain ⟨x, hmantissa, hx⟩ := writes_mantissa hs
    have hpower : ∀ c ∈ s.power.head?, c.isDigit = false ∧ c ≠ '.' := by simp [power]
    obtain ⟨d, hd, hvalue⟩ := hmantissa.decimal?_append hpower s.exponent?_power
    exact ⟨d, hd, hvalue.trans hx⟩

end Significant

end Reckoner
