import Reckoner.Proofs.Layout

namespace Reckoner

/-!
# Layouts are canonical

Digits without a zero at either end are laid out in one way only, and the layout tells them apart
from all others (`layout_canonical`).

* `Significant.Canonical.place_le` — whole tens are in the exponent, so no other number of whole
  units makes up the value at a higher place;
* `Significant.Canonical.eq_of_value` — digits and exponent are fixed by the value;
* `Decimal.canonical_significant` — the digits that are laid out for a number are canonical;
* `Significant.Tidy` — plain notation without needless zeros;
* `Significant.checkedLayout?` — the layout in 32-bit arithmetic, where anything out of range fails.
  Nothing is (`checkedLayout?_eq`).
-/

/-! ### Digits without zeros in front -/

namespace Numeral

variable {c : Char}

/-- A digit is written for the number that it is read as. -/
theorem digits_ofDigits_singleton (hc : c.isDigit = true) :
    ofDigits [c] < 10 ∧ Decimal.digits (ofDigits [c]) = [c] := by
  obtain ⟨hlow, hhigh⟩ : 48 ≤ c.toNat ∧ c.toNat ≤ 57 := Char.isDigit_iff_toNat.1 hc
  have hvalue : ofDigits [c] = c.toNat - 48 := Nat.zero_add _
  have hlt : c.toNat - 48 < 10 := by omega
  rw [hvalue]
  refine ⟨hlt, ?_⟩
  rw [Decimal.digits, Nat.toDigits_of_lt_base hlt]
  have hchar : (c.toNat - 48).digitChar = c := by
    apply Char.toNat_inj.1
    rw [Nat.toNat_digitChar_of_lt_ten hlt]
    omega
  rw [hchar]

/-- A first digit other than zero makes a number positive. -/
theorem ofDigits_pos (hc : c.isDigit = true) (hne : c ≠ '0') (cs : List Char) :
    0 < ofDigits (c :: cs) := by
  obtain ⟨-, hdigit⟩ := digits_ofDigits_singleton hc
  have hpos : ofDigits [c] ≠ 0 := by
    intro hzero
    rw [hzero] at hdigit
    exact hne (List.singleton_inj.1 hdigit).symm
  rw [← List.singleton_append, ofDigits_append]
  have hpow : 0 < 10 ^ cs.length := Nat.pow_pos (by decide)
  have hproduct : 0 < ofDigits [c] * 10 ^ cs.length := Nat.mul_pos (by omega) hpow
  omega

end Numeral

namespace Decimal

/-- **Digits are written again as they are read**, if there is no zero in front. -/
theorem digits_ofDigits {ds : List Char} (nonempty : ds ≠ []) (all : ∀ c ∈ ds, c.isDigit = true)
    (head : ds.head? ≠ some '0') : digits (Numeral.ofDigits ds) = ds := by
  -- From the last digit, for this is the one that is written last and split off first.
  induction ds using List.reverseRecOn with
  | nil => exact absurd rfl nonempty
  | append_singleton ds c ih =>
    obtain ⟨hds, hone⟩ := List.forall_mem_append.1 all
    obtain ⟨hlt, hdigit⟩ := Numeral.digits_ofDigits_singleton (hone c (List.mem_singleton_self c))
    rcases ds with _ | ⟨first, more⟩
    · exact hdigit
    · have hne : first ≠ '0' := fun h => head (congrArg some h)
      have hpos := Numeral.ofDigits_pos (hds first List.mem_cons_self) hne more
      have hfront := ih (List.cons_ne_nil first more) hds head
      have happend := Nat.toDigits_append_toDigits (by decide) hpos hlt
      unfold digits at hfront hdigit
      rw [hfront, hdigit] at happend
      rw [Numeral.ofDigits_append, Nat.mul_comm, List.length_singleton, Nat.pow_one]
      exact happend.symm

/-- A number other than zero is written without a zero in front. -/
theorem head?_digits {n : Nat} (h : n ≠ 0) : (digits n).head? ≠ some '0' := by
  induction n using Nat.strongRecOn with
  | ind n ih =>
    unfold digits at ih ⊢
    rcases Nat.lt_or_ge n 10 with hlt | hge
    · rw [Nat.toDigits_of_lt_base hlt]
      simpa using h
    · rw [Nat.toDigits_of_base_le (by decide) hge,
        List.head?_append_of_ne_nil _ Nat.toDigits_ne_nil]
      exact ih (n / 10) (by omega) (by omega)

end Decimal

/-! ### Canonical digits -/

namespace Significant

variable {s t : Significant}

/-- Digits, the first and the last of which are not zero. -/
structure Canonical (s : Significant) : Prop extends Proper s where
  head : s.digits.head? ≠ some '0'
  last : s.digits.getLast? ≠ some '0'

namespace Canonical

theorem not_ten_dvd (hs : s.Canonical) : ¬10 ∣ Numeral.ofDigits s.digits := by
  obtain ⟨ds, c, hcut⟩ : ∃ ds c, s.digits = ds ++ [c] :=
    ⟨_, _, (List.dropLast_append_getLast hs.nonempty).symm⟩
  have hc : c.isDigit = true := hs.all c (by simp [hcut])
  have hne : c ≠ '0' := by
    rintro rfl
    exact hs.last (by simp [hcut])
  obtain ⟨hlt, -⟩ := Numeral.digits_ofDigits_singleton hc
  have hpos := Numeral.ofDigits_pos hc hne []
  rw [hcut, Numeral.ofDigits_append, List.length_singleton, Nat.pow_one]
  omega

/-- **No whole number of a higher power of ten** makes up the value. -/
theorem place_le (hs : s.Canonical) {n : Nat} {e : Int} (h : s.value = n * 10 ^ e) :
    e ≤ s.place := by
  by_contra hlt
  obtain ⟨j, hj⟩ : ∃ j : Nat, e = (j + 1 : Nat) + s.place := ⟨(e - s.place - 1).toNat, by omega⟩
  have hne : (10 : ℚ) ^ s.place ≠ 0 := zpow_ne_zero _ (by norm_num)
  have hvalue : (Numeral.ofDigits s.digits : ℚ) = (n * 10 ^ (j + 1) : Nat) := by
    apply mul_right_cancel₀ hne
    calc (Numeral.ofDigits s.digits : ℚ) * 10 ^ s.place = s.value := rfl
      _ = n * 10 ^ e := h
      _ = (n * 10 ^ (j + 1) : Nat) * 10 ^ s.place := by
        rw [hj, zpow_add₀ (by norm_num), zpow_natCast]
        push_cast
        ring
  have hnat : Numeral.ofDigits s.digits = n * 10 ^ (j + 1) := by exact_mod_cast hvalue
  apply hs.not_ten_dvd
  rw [hnat, Nat.pow_succ]
  exact ⟨n * 10 ^ j, by ring⟩

/-- **Digits and exponent are fixed by the value.** -/
theorem eq_of_value (hs : s.Canonical) (ht : t.Canonical) (h : s.value = t.value) : s = t := by
  have hplace : s.place = t.place := Int.le_antisymm (ht.place_le h.symm) (hs.place_le h)
  have hne : (10 : ℚ) ^ t.place ≠ 0 := zpow_ne_zero _ (by norm_num)
  have hnat : Numeral.ofDigits s.digits = Numeral.ofDigits t.digits := by
    have hproduct : (Numeral.ofDigits s.digits : ℚ) * 10 ^ t.place
        = Numeral.ofDigits t.digits * 10 ^ t.place := by
      calc (Numeral.ofDigits s.digits : ℚ) * 10 ^ t.place = s.value := by rw [← hplace]; rfl
        _ = t.value := h
    exact_mod_cast mul_right_cancel₀ hne hproduct
  have hdigits : s.digits = t.digits := by
    rw [← Decimal.digits_ofDigits hs.nonempty hs.all hs.head, hnat,
      Decimal.digits_ofDigits ht.nonempty ht.all ht.head]
  have hexponent : s.exponent = t.exponent := by
    unfold place at hplace
    rw [hdigits] at hplace
    omega
  cases s
  cases t
  exact congrArg₂ Significant.mk hdigits hexponent

/-- The value is whole if its last digit is one of units or above. -/
theorem whole_iff (hs : s.Canonical) : (∃ n : Nat, s.value = n) ↔ 0 ≤ s.place := by
  constructor
  · rintro ⟨n, hn⟩
    exact hs.place_le (by rw [hn, zpow_zero, mul_one])
  · intro h
    refine ⟨Numeral.ofDigits s.digits * 10 ^ s.place.toNat, ?_⟩
    have hcast : s.place = (s.place.toNat : Int) := (Int.toNat_of_nonneg h).symm
    show (Numeral.ofDigits s.digits : ℚ) * 10 ^ s.place = _
    rw [hcast, zpow_natCast]
    push_cast
    rfl

end Canonical

end Significant

/-- **What is left of a decimal's digits is canonical**, unless it is zero. -/
theorem Decimal.canonical_significant {d : Decimal} (h : d.coefficient ≠ 0) :
    d.significant.Canonical := by
  have hproper := proper_significant h
  refine ⟨hproper, ?_, ?_⟩
  · obtain ⟨k, hdigits⟩ := d.exists_zeros
    have hhead := head?_digits h
    rw [hdigits, List.head?_append_of_ne_nil _ hproper.nonempty] at hhead
    exact hhead
  · unfold significant
    rw [List.getLast?_reverse]
    intro hzero
    have hkept := List.head?_dropWhile_not (· == '0') (digits d.coefficient).reverse
    rw [hzero] at hkept
    cases hkept

/-! ### Tidy numbers -/

namespace Significant

variable {s : Significant}

/-- **Plain notation without needless zeros**: none in front of a whole number or of a part before
    the point, unless this part is a single zero, and none at the end of the places. -/
inductive Tidy : List Char → Prop where
  | whole {digits : List Char} (nonempty : digits ≠ [])
      (all : ∀ c ∈ digits, c.isDigit = true) (head : digits.head? ≠ some '0') : Tidy digits
  | places {digits places : List Char} (nonempty : digits ≠ [])
      (all : ∀ c ∈ digits, c.isDigit = true) (head : digits = ['0'] ∨ digits.head? ≠ some '0')
      (placesNonempty : places ≠ []) (placesAll : ∀ c ∈ places, c.isDigit = true)
      (last : places.getLast? ≠ some '0') : Tidy (digits ++ '.' :: places)

theorem Canonical.tidy_plain (hs : s.Canonical) : Tidy s.plain := by
  have hzeros (k : Nat) := fun c => Numeral.isDigit_of_mem_zeros (k := k) (c := c)
  by_cases hnegative : s.exponent < 0
  · rw [plain_of_neg hnegative]
    refine .places (by simp) (hzeros 1) (.inl rfl) (by simp [hs.nonempty])
      (List.forall_mem_append.2 ⟨hzeros _, hs.all⟩) ?_
    rw [List.getLast?_append_of_ne_nil _ hs.nonempty]
    exact hs.last
  by_cases hplace : 0 ≤ s.place
  · rw [plain_of_place_nonneg hs.toProper hplace]
    refine .whole (by simp [hs.nonempty]) (List.forall_mem_append.2 ⟨hs.all, hzeros _⟩) ?_
    rw [List.head?_append_of_ne_nil _ hs.nonempty]
    exact hs.head
  · have hcut := List.take_append_drop (s.exponent + 1).toNat s.digits
    obtain ⟨hwhole, hrest⟩ := sides_nonempty (s := s) (by omega) (by omega)
    have hall := hs.all
    have hhead := hs.head
    have hlast := hs.last
    rw [← hcut] at hall hhead hlast
    rw [List.head?_append_of_ne_nil _ hwhole] at hhead
    rw [List.getLast?_append_of_ne_nil _ hrest] at hlast
    obtain ⟨hwholeAll, hrestAll⟩ := List.forall_mem_append.1 hall
    rw [plain_of_place_neg (by omega) (by omega)]
    exact .places hwhole hwholeAll (.inr hhead) hrest hrestAll hlast

theorem Tidy.not_mem_e {cs : List Char} (h : Tidy cs) : 'e' ∉ cs := by
  have hletter {ds : List Char} (hds : ∀ c ∈ ds, c.isDigit = true) : 'e' ∉ ds := by
    intro he
    exact absurd (hds 'e' he) (by decide)
  cases h with
  | whole _ all _ => exact hletter all
  | places _ all _ _ placesAll _ =>
    rw [List.mem_append, List.mem_cons]
    rintro (he | he | he)
    · exact hletter all he
    · exact absurd he (by decide)
    · exact hletter placesAll he

/-- A plain layout has a point if the last digit is below the units. -/
theorem point_mem_plain (hs : s.Proper) : '.' ∈ s.plain ↔ s.place < 0 := by
  by_cases hplace : 0 ≤ s.place
  · have hpoint : '.' ∉ s.plain := by
      rw [plain_of_place_nonneg hs hplace, List.mem_append]
      rintro (hmem | hmem)
      · exact absurd (hs.all '.' hmem) (by decide)
      · exact absurd (List.eq_of_mem_replicate hmem) (by decide)
    exact iff_of_false hpoint (not_lt.2 hplace)
  · refine iff_of_true ?_ (not_le.1 hplace)
    by_cases hnegative : s.exponent < 0
    · rw [plain_of_neg hnegative]
      simp
    · rw [plain_of_place_neg (by omega) (by omega)]
      simp

/-- **Scientific notation**: the first digit, a point before the others if there are any, and the
    exponent with its sign and without zeros in front. -/
def Powered (s : Significant) (cs : List Char) : Prop :=
  ∃ first more magnitude, s.digits = first :: more ∧
    cs = first :: (if more = [] then [] else '.' :: more)
      ++ 'e' :: (if s.exponent < 0 then '-' else '+') :: magnitude ∧
    (∀ c ∈ magnitude, c.isDigit = true) ∧ magnitude.head? ≠ some '0' ∧
    Numeral.ofDigits magnitude = s.exponent.natAbs

theorem scientific_of_cons {first : Char} {more : List Char} (h : s.digits = first :: more) :
    s.scientific = first :: (if more = [] then [] else '.' :: more)
      ++ 'e' :: (if s.exponent < 0 then '-' else '+') :: Decimal.digits s.exponent.natAbs := by
  unfold scientific
  rw [h]
  cases more <;> rfl

theorem powered_scientific (hs : s.Proper) (h : s.exponent ≠ 0) : s.Powered s.scientific := by
  obtain ⟨first, more, hdigits⟩ := List.exists_cons_of_ne_nil hs.nonempty
  exact ⟨first, more, Decimal.digits s.exponent.natAbs, hdigits, scientific_of_cons hdigits,
    fun c hc => Decimal.isDigit_of_mem_digits hc, Decimal.head?_digits (Int.natAbs_ne_zero.2 h),
    Decimal.ofDigits_digits _⟩

/-! ### The layout in 32-bit arithmetic -/

/-- A number of 32 bits with its sign, none if it does not fit. -/
def word? (n : Int) : Option Int := if -2 ^ 31 ≤ n ∧ n < 2 ^ 31 then some n else none

/-- So many zeros, none if the count is negative. -/
def zeros? (count : Int) : Option (List Char) :=
  if 0 ≤ count then some (List.replicate count.toNat '0') else none

/-- Characters before and after a place, none if they do not reach it. -/
def cut? (cs : List Char) (place : Int) : Option (List Char × List Char) :=
  if 0 ≤ place ∧ place ≤ cs.length then some (cs.splitAt place.toNat) else none

/-- **The layout step by step**: `k` digits, `n` of them or of the zeros before the point.  Every
    intermediate number is a word, every count and every cut is checked. -/
def checkedLayout? (s : Significant) : Option (List Char) := do
  let k ← word? s.digits.length
  let n ← word? (s.exponent + 1)
  if k ≤ n ∧ n ≤ 21 then
    let count ← word? (n - k)
    let zeros ← zeros? count
    return s.digits ++ zeros
  else if 0 < n ∧ n ≤ 21 then
    let (whole, places) ← cut? s.digits n
    return whole ++ '.' :: places
  else if -6 < n ∧ n ≤ 0 then
    let count ← word? (-n)
    let zeros ← zeros? count
    return '0' :: '.' :: zeros ++ s.digits
  else
    let (first, rest) ← cut? s.digits 1
    let power ← word? (n - 1)
    let magnitude ← word? |power|
    let sign := if power < 0 then '-' else '+'
    let ending := 'e' :: sign :: Decimal.digits magnitude.toNat
    if rest.isEmpty then return first ++ ending
    else return first ++ '.' :: rest ++ ending

theorem word?_of_lt {n : Int} (hlow : -2 ^ 31 ≤ n) (hhigh : n < 2 ^ 31) : word? n = some n :=
  if_pos ⟨hlow, hhigh⟩

theorem zeros?_of_nonneg {count : Int} (h : 0 ≤ count) :
    zeros? count = some (List.replicate count.toNat '0') :=
  if_pos h

theorem cut?_of_le {cs : List Char} {place : Int} (hlow : 0 ≤ place) (hhigh : place ≤ cs.length) :
    cut? cs place = some (cs.take place.toNat, cs.drop place.toNat) := by
  rw [cut?, if_pos ⟨hlow, hhigh⟩, List.splitAt_eq]

/-- **Nothing fails**: the layout step by step is the layout. -/
theorem checkedLayout?_eq (hs : s.Proper) (hlength : s.digits.length < 2 ^ 30)
    (hexponent : s.exponent.natAbs < 2 ^ 30) : s.checkedLayout? = some s.layout := by
  have hpos := List.length_pos_iff.2 hs.nonempty
  unfold checkedLayout?
  rw [word?_of_lt (n := (s.digits.length : Int)) (by omega) (by omega),
    word?_of_lt (n := s.exponent + 1) (by omega) (by omega)]
  simp only [Option.bind_eq_bind, Option.bind_some]
  -- The branches in the order in which they are tried; in each, its condition bounds the numbers.
  by_cases hfilled : (s.digits.length : Int) ≤ s.exponent + 1 ∧ s.exponent + 1 ≤ 21
  · have hplain : s.layout = s.plain := if_pos (by omega)
    have hplace : 0 ≤ s.place := by
      unfold place
      omega
    rw [if_pos hfilled, word?_of_lt (by omega) (by omega), Option.bind_some,
      zeros?_of_nonneg (by omega), Option.bind_some, hplain, plain_of_place_nonneg hs hplace]
    rfl
  rw [if_neg hfilled]
  by_cases hbetween : 0 < s.exponent + 1 ∧ s.exponent + 1 ≤ 21
  · have hplain : s.layout = s.plain := if_pos (by omega)
    have hplace : s.place < 0 := by
      unfold place
      omega
    rw [if_pos hbetween, cut?_of_le (by omega) (by omega), Option.bind_some, hplain,
      plain_of_place_neg (by omega) hplace]
    rfl
  rw [if_neg hbetween]
  by_cases hsmall : -6 < s.exponent + 1 ∧ s.exponent + 1 ≤ 0
  · have hplain : s.layout = s.plain := if_pos (by omega)
    have hcount : -(s.exponent + 1) = -s.exponent - 1 := by omega
    rw [if_pos hsmall, word?_of_lt (by omega) (by omega), Option.bind_some,
      zeros?_of_nonneg (by omega), Option.bind_some, hplain, plain_of_neg (by omega), hcount]
    rfl
  · have hscientific : s.layout = s.scientific := if_neg (by omega)
    obtain ⟨first, more, hdigits⟩ := List.exists_cons_of_ne_nil hs.nonempty
    have hpower : s.exponent + 1 - 1 = s.exponent := by omega
    have habs : |s.exponent| = s.exponent.natAbs := Int.abs_eq_natAbs _
    rw [if_neg hsmall, cut?_of_le (by omega) (by omega), Option.bind_some, hpower,
      word?_of_lt (by omega) (by omega), Option.bind_some, habs,
      word?_of_lt (by omega) (by omega), Option.bind_some, hscientific,
      scientific_of_cons hdigits, hdigits, Int.toNat_natCast]
    cases more <;> rfl

/-! ### Canonical layouts -/

/-- **The layout is exact and canonical.**  Digits without a zero at either end can be laid out in
    32-bit arithmetic, and what is read back has their value.  The notation is plain from `-6` to
    `20`, without needless zeros, without a point for whole numbers and with one zero before the
    point below one; elsewhere it is scientific.  And no other digits or exponent have this
    layout. -/
theorem layout_canonical (hs : s.Canonical) (hlength : s.digits.length < 2 ^ 30)
    (hexponent : s.exponent.natAbs < 2 ^ 30) :
    s.checkedLayout? = some s.layout ∧
    (∃ d, Numeral.decimal? s.layout = some d ∧ d.value = s.value) ∧
    ('e' ∉ s.layout ↔ -6 ≤ s.exponent ∧ s.exponent ≤ 20) ∧
    (-6 ≤ s.exponent ∧ s.exponent ≤ 20 →
      Tidy s.layout ∧ ('.' ∉ s.layout ↔ ∃ n : Nat, s.value = n) ∧
        (s.exponent < 0 → ∃ places, s.layout = '0' :: '.' :: places)) ∧
    (¬(-6 ≤ s.exponent ∧ s.exponent ≤ 20) → s.Powered s.layout) ∧
    ∀ t : Significant, t.Canonical → t.layout = s.layout → t = s := by
  have hplain (h : -6 ≤ s.exponent ∧ s.exponent ≤ 20) : s.layout = s.plain := if_pos h
  have hpowered (h : ¬(-6 ≤ s.exponent ∧ s.exponent ≤ 20)) : s.Powered s.layout := by
    rw [layout, if_neg h]
    exact powered_scientific hs.toProper (by omega)
  refine ⟨checkedLayout?_eq hs.toProper hlength hexponent, decimal?_layout hs.toProper, ?_, ?_,
    hpowered, ?_⟩
  · constructor
    · intro he
      by_contra h
      obtain ⟨first, more, magnitude, -, hlayout, -⟩ := hpowered h
      rw [hlayout] at he
      simp at he
    · intro h
      rw [hplain h]
      exact hs.tidy_plain.not_mem_e
  · intro h
    rw [hplain h]
    refine ⟨hs.tidy_plain, ?_, ?_⟩
    · rw [hs.whole_iff, point_mem_plain hs.toProper, not_lt]
    · intro hnegative
      exact ⟨_, plain_of_neg hnegative⟩
  · intro t ht h
    obtain ⟨d, hd, hvalue⟩ := decimal?_layout hs.toProper
    obtain ⟨d', hd', hvalue'⟩ := decimal?_layout ht.toProper
    rw [h, hd] at hd'
    obtain rfl := Option.some.inj hd'
    exact ht.eq_of_value hs (hvalue'.symm.trans hvalue)

/-- One and a half ten-millionths, just below the numbers with a plain layout. -/
theorem layout_canonical_scientific :
    checkedLayout? ⟨['1', '5'], -7⟩ = some "1.5e-7".toList ∧
      ∀ t : Significant, t.Canonical → t.layout = "1.5e-7".toList → t = ⟨['1', '5'], -7⟩ := by
  have hs : Canonical ⟨['1', '5'], -7⟩ := ⟨⟨by simp, by simp⟩, by simp, by simp⟩
  obtain ⟨hlayout, -, -, -, -, hinjective⟩ := layout_canonical hs (by simp) (by simp)
  exact ⟨hlayout, hinjective⟩

end Significant

end Reckoner
