import Mathlib
import Reckoner.Binary64

namespace Reckoner

/-!
# Signs and codes of doubles

A double is known by its sign and its code (`Binary64.eq_of_code`), and what the operations of
doubles do can be said about these two.  The operations take a double apart into a sign, a mantissa
and an exponent; `Coded` says what they find, and with it each operation is a case analysis:

* `coded_unpack` — every pattern of bits is taken apart as its sign and code say;
* `Coded.toNat_pack` — and is put together from them again;
* `compare_unpack` — doubles are compared by their places, that is by their codes with the sign: so
  equal doubles are zeros or the same (`beq_iff`), and sizes are ordered as their codes
  (`le_abs_iff`, `abs_lt_iff`).

There is only one double that is no number (`sign_code_of_infinity_lt`).
-/

namespace Binary64

open Float.Model (UnpackedFloat Format)
open Float.Model.UnpackedFloat (Sign unpackMantissa unpackExponent unpackSign packComponents)

/-- The pattern of bits with a sign and a code. -/
def pattern (negative : Bool) (code : Nat) : Nat :=
  if negative then signBit + code else code

/-- A sign, as doubles have it when they are taken apart. -/
def sign (negative : Bool) : Sign :=
  if negative then .negative else .positive

/-- The steps of a code in its power of two, with the leading one. -/
def mantissa (code : Nat) : Nat := code - doublings code * stepsPerBinade

/-- **A double taken apart**, by its sign and its code. -/
inductive Coded (negative : Bool) : (code : Nat) → UnpackedFloat → Prop where
  | notANumber {code : Nat} (past : infinity < code) : Coded negative code .notANumber
  | infinity : Coded negative infinity (.infinity (sign negative))
  | zero : Coded negative 0 (.zero (sign negative))
  | finite {code : Nat} (pos : 0 < code) (bounded : code < Binary64.infinity)
      (hpos : 0 < mantissa code) :
      Coded negative code (.finite (sign negative) (mantissa code) (doublings code - 1074) hpos)

/-! ### Fields of a code -/

section Fields

variable {code : Nat}

/-- A code in the first power of two is its own mantissa. -/
theorem mantissa_of_lt (h : code < stepsPerBinade) :
    doublings code = 0 ∧ mantissa code = code := by
  have hzero : doublings code = 0 := by simp [doublings, Nat.div_eq_of_lt h]
  exact ⟨hzero, by rw [mantissa, hzero, Nat.zero_mul, Nat.sub_zero]⟩

/-- Past it, a mantissa has a leading one. -/
theorem mantissa_of_le (h : stepsPerBinade ≤ code) :
    doublings code + 1 = code / stepsPerBinade ∧
      mantissa code = stepsPerBinade + code % stepsPerBinade := by
  have hexponent : 1 ≤ code / stepsPerBinade := (Nat.one_le_div_iff (by decide)).2 h
  have hsum := Nat.div_add_mod code stepsPerBinade
  have hdoublings : doublings code + 1 = code / stepsPerBinade := by rw [doublings]; omega
  refine ⟨hdoublings, ?_⟩
  rw [← hdoublings, Nat.mul_comm, Nat.succ_mul] at hsum
  rw [mantissa]
  omega

end Fields

/-- A finite double, with its mantissa and exponent given in another way. -/
theorem Coded.of_fields {negative : Bool} {code m : Nat} {e : Int} {hm : 0 < m} (hcode : 0 < code)
    (hbounded : code < Binary64.infinity) (hmantissa : mantissa code = m)
    (hexponent : doublings code - 1074 = e) :
    Coded negative code (.finite (sign negative) m e hm) := by
  subst hmantissa hexponent
  exact .finite hcode hbounded hm

/-! ### Fields of a pattern -/

section Patterns

variable (b : BitVec Format.binary64.numBits)

theorem toNat_unpackMantissa :
    (unpackMantissa b).toNat = b.toNat % signBit % stepsPerBinade := by
  have hfield : (unpackMantissa b).toNat = b.toNat >>> 0 % 2 ^ (52 - 1 - 0 + 1) := by
    rw [unpackMantissa, BitVec.toNat_cast, BitVec.extractLsb_toNat]
  rw [hfield, Nat.shiftRight_zero]
  simp only [signBit, stepsPerBinade, Nat.pow_eq]
  omega

theorem toNat_unpackExponent :
    (unpackExponent b).toNat = b.toNat % signBit / stepsPerBinade := by
  have hfield : (unpackExponent b).toNat = b.toNat >>> 52 % 2 ^ (52 + 11 - 1 - 52 + 1) := by
    rw [unpackExponent, BitVec.toNat_cast, BitVec.extractLsb_toNat]
  rw [hfield, Nat.shiftRight_eq_div_pow]
  simp only [signBit, stepsPerBinade, Nat.pow_eq]
  omega

theorem ofBitVec_unpackSign :
    Sign.ofBitVec (unpackSign b) = sign (signBit ≤ b.toNat) := by
  have hfield : (unpackSign b).toNat = b.toNat >>> 63 % 2 ^ (52 + 11 - (52 + 11) + 1) := by
    rw [unpackSign, BitVec.toNat_cast, BitVec.extractLsb_toNat]
    rfl
  rw [Nat.shiftRight_eq_div_pow] at hfield
  have hb : b.toNat < 2 ^ 64 := b.isLt
  have hiff : unpackSign b = 0#1 ↔ ¬ signBit ≤ b.toNat := by
    rw [← BitVec.toNat_inj, hfield]
    simp only [signBit, Nat.pow_eq, BitVec.toNat_zero]
    omega
  unfold Sign.ofBitVec sign
  by_cases hs : signBit ≤ b.toNat <;> simp [hiff, hs]

theorem toNat_packComponents (negative : Bool) (e : BitVec 11) (m : BitVec 52) :
    (packComponents .binary64 (sign negative) e m).toNat
      = pattern negative (e.toNat * stepsPerBinade + m.toNat) := by
  have hsign : (sign negative).toBitVec.toNat = if negative then 1 else 0 := by
    cases negative <;> rfl
  have he := e.isLt
  have hm := m.isLt
  rw [packComponents, BitVec.toNat_append, ← Nat.shiftLeft_add_eq_or_of_lt m.isLt,
    BitVec.toNat_append, ← Nat.shiftLeft_add_eq_or_of_lt e.isLt, hsign]
  simp only [Nat.shiftLeft_eq, pattern, signBit, stepsPerBinade, Nat.pow_eq]
  split <;> omega

/-- **Every pattern is taken apart** as its sign and its code say. -/
theorem coded_unpack :
    Coded (signBit ≤ b.toNat) (b.toNat % signBit) (UnpackedFloat.unpack .binary64 b) := by
  have hexponent := toNat_unpackExponent b
  have hfraction := toNat_unpackMantissa b
  have hcode : b.toNat % signBit < 2048 * stepsPerBinade := Nat.mod_lt _ (by decide)
  have hlt : (unpackMantissa b).toNat < stepsPerBinade := (unpackMantissa b).isLt
  generalize b.toNat % signBit = code at hexponent hfraction hcode ⊢
  have hsum := Nat.div_add_mod code stepsPerBinade
  rw [← hexponent, ← hfraction] at hsum
  have hinfinity : infinity = 9218868437227405312 := rfl
  have hsteps : stepsPerBinade = 4503599627370496 := rfl
  have hbias : (Format.binary64.exponentBias : Int) = 1023 := rfl
  rw [hsteps] at hsum hlt hcode
  rw [UnpackedFloat.unpack, ofBitVec_unpackSign]
  dsimp only
  split
  · next hones =>
    have hones : (unpackExponent b).toNat = 2047 := by rw [hones]; rfl
    split
    · next hzero =>
      have hzero : (unpackMantissa b).toNat = 0 := by rw [hzero]; rfl
      obtain rfl : infinity = code := by omega
      exact .infinity
    · next hne =>
      have hne : (unpackMantissa b).toNat ≠ 0 := fun h => hne (BitVec.eq_of_toNat_eq h)
      exact .notANumber (by omega)
  · next hones =>
    have hones : (unpackExponent b).toNat ≠ 2047 := fun h => hones (BitVec.eq_of_toNat_eq h)
    split
    · next hnone =>
      have hnone : (unpackExponent b).toNat = 0 := by rw [hnone]; rfl
      split
      · next hzero =>
        have hzero : (unpackMantissa b).toNat = 0 := by rw [hzero]; rfl
        obtain rfl : 0 = code := by omega
        exact .zero
      · next hne =>
        have hne : (unpackMantissa b).toNat ≠ 0 := fun h => hne (BitVec.eq_of_toNat_eq h)
        obtain ⟨hdoublings, hmantissa⟩ : doublings code = 0 ∧ mantissa code = code :=
          mantissa_of_lt (by omega)
        refine .of_fields (by omega) (by omega) (by omega) ?_
        rw [hdoublings, hnone, hbias]
        rfl
    · next hsome =>
      have hsome : (unpackExponent b).toNat ≠ 0 := fun h => hsome (BitVec.eq_of_toNat_eq h)
      obtain ⟨hdoublings, hmantissa⟩ : doublings code + 1 = code / stepsPerBinade ∧
          mantissa code = stepsPerBinade + code % stepsPerBinade := mantissa_of_le (by omega)
      rw [← hexponent] at hdoublings
      rw [← hfraction] at hmantissa
      refine .of_fields (by omega) (by omega) ?_ ?_
      · rw [hmantissa, BitVec.toNat_append,
          ← Nat.shiftLeft_add_eq_or_of_lt (unpackMantissa b).isLt]
        rfl
      · rw [← hdoublings, hbias]
        show (doublings code : Int) - 1074 = ((doublings code + 1 : Nat) : Int) - (1023 + 52)
        omega

end Patterns

/-- A pattern has the sign and the code it was made of. -/
theorem sign_code_pattern (negative : Bool) {code : Nat} (h : code < signBit) :
    decide (signBit ≤ pattern negative code) = negative ∧
      pattern negative code % signBit = code := by
  cases negative <;> simp [pattern, h, Nat.mod_eq_of_lt h]

/-- The mantissa of a code has 53 bits, unless the code is in the first power of two. -/
theorem log2_mantissa {code : Nat} (h : stepsPerBinade ≤ code) : (mantissa code).log2 = 52 := by
  have hmantissa := (mantissa_of_le h).2
  have hlt : code % stepsPerBinade < stepsPerBinade := Nat.mod_lt _ (by decide)
  have hsteps : stepsPerBinade = 2 ^ 52 := rfl
  exact (Nat.log2_eq_iff (by omega)).2 (by omega)

/-- **The pattern is put together again.** -/
theorem Coded.toNat_pack {negative : Bool} {code : Nat} {u : UnpackedFloat}
    (h : Coded negative code u) (hcode : code ≤ Binary64.infinity) :
    (UnpackedFloat.pack .binary64 u).toNat = pattern negative code := by
  cases h with
  | notANumber past => omega
  | infinity => exact toNat_packComponents negative (-1#11) 0
  | zero => exact toNat_packComponents negative 0 0
  | finite pos bounded hpos =>
    have hbias : (Format.binary64.exponentBias : Int) = 1023 := rfl
    have hexponent : (((doublings code : Int) - 1074) + Format.binary64.exponentBias
        + Format.binary64.mantissaBitsWithoutImplicit).toNat = doublings code + 1 := by
      rw [hbias]
      show ((doublings code : Int) - 1074 + 1023 + 52).toNat = doublings code + 1
      omega
    have hfield : code / stepsPerBinade < 2047 := Nat.div_lt_of_lt_mul bounded
    have hsum := Nat.div_add_mod code stepsPerBinade
    have hsteps : stepsPerBinade = 4503599627370496 := rfl
    rw [UnpackedFloat.pack]
    simp only [hexponent]
    rcases Nat.lt_or_ge code stepsPerBinade with hlt | hge
    · obtain ⟨hdoublings, hmantissa⟩ := mantissa_of_lt hlt
      have hlog : (mantissa code).log2 < 52 := by
        rw [hmantissa, Nat.log2_lt (by omega)]
        exact hlt
      rw [if_neg (by rw [hdoublings]; decide), if_neg (by show ¬ _ = 53; omega),
        toNat_packComponents, BitVec.toNat_ofNat, BitVec.toNat_ofNat, hmantissa]
      have hfraction : code % 2 ^ 52 = code := Nat.mod_eq_of_lt hlt
      rw [hfraction, Nat.zero_mod, Nat.zero_mul, Nat.zero_add]
    · obtain ⟨hdoublings, hmantissa⟩ := mantissa_of_le hge
      have hlog := log2_mantissa hge
      rw [if_neg (by show ¬ 2 ^ 11 ≤ _; omega), if_pos (by rw [hlog]; rfl), toNat_packComponents,
        BitVec.toNat_ofNat, BitVec.toNat_ofNat, hmantissa, hdoublings]
      have hpow : 2 ^ 52 = stepsPerBinade := rfl
      rw [hpow, Nat.add_mod_left, Nat.mod_mod, Nat.mod_eq_of_lt (by omega), Nat.mul_comm, hsum]

section Operations

variable {negative : Bool} {code : Nat} {u : UnpackedFloat}

theorem Coded.neg (h : Coded negative code u) : Coded (!negative) code u.neg := by
  cases h with
  | notANumber past => exact .notANumber past
  | infinity => cases negative <;> exact .infinity
  | zero => cases negative <;> exact .zero
  | finite pos bounded hpos => cases negative <;> exact .finite pos bounded hpos

theorem Coded.abs (h : Coded negative code u) : Coded false code u.abs := by
  cases h with
  | notANumber past => exact .notANumber past
  | infinity => exact .infinity
  | zero => exact .zero
  | finite pos bounded hpos => exact .finite pos bounded hpos

end Operations

/-- Past infinity, a double is no number. -/
theorem Coded.eq_notANumber {negative : Bool} {code : Nat} {u : UnpackedFloat}
    (h : Coded negative code u) (hcode : Binary64.infinity < code) : u = .notANumber := by
  cases h with
  | notANumber => rfl
  | infinity | zero | finite => omega

/-! ### Codes in order -/

section Order

variable {c c' : Nat}

theorem doublings_add_mantissa (c : Nat) : doublings c * stepsPerBinade + mantissa c = c := by
  have hle : doublings c * stepsPerBinade ≤ c :=
    Nat.le_trans (Nat.mul_le_mul_right _ (Nat.sub_le _ _)) (Nat.div_mul_le_self _ _)
  rw [mantissa]
  omega

/-- A larger code has a larger exponent, or the same exponent and a larger mantissa. -/
theorem fields_lt (h : c < c') :
    doublings c < doublings c' ∨ doublings c = doublings c' ∧ mantissa c < mantissa c' := by
  have hle : doublings c ≤ doublings c' :=
    Nat.sub_le_sub_right (Nat.div_le_div_right (Nat.le_of_lt h)) 1
  rcases Nat.lt_or_eq_of_le hle with hlt | heq
  · exact .inl hlt
  · have hsum := doublings_add_mantissa c
    have hsum' := doublings_add_mantissa c'
    rw [← heq] at hsum'
    exact .inr ⟨heq, by omega⟩

/-- **Codes are compared by their fields**, exponents first. -/
theorem compare_fields (c c' : Nat) :
    (compare ((doublings c : Int) - 1074) (doublings c' - 1074)).then
      (compare (mantissa c) (mantissa c')) = compare (c : Int) c' := by
  rcases Nat.lt_trichotomy c c' with hlt | rfl | hgt
  · rw [Int.compare_eq_lt.2 (Int.ofNat_lt.2 hlt)]
    rcases fields_lt hlt with hexponent | ⟨hexponent, hmantissa⟩
    · rw [Int.compare_eq_lt.2 (by omega)]
      rfl
    · rw [Int.compare_eq_eq.2 (by omega), Nat.compare_eq_lt.2 hmantissa]
      rfl
  · rw [Int.compare_eq_eq.2 rfl, Int.compare_eq_eq.2 rfl, Nat.compare_eq_eq.2 rfl]
    rfl
  · rw [Int.compare_eq_gt.2 (Int.ofNat_lt.2 hgt)]
    rcases fields_lt hgt with hexponent | ⟨hexponent, hmantissa⟩
    · rw [Int.compare_eq_gt.2 (by omega)]
      rfl
    · rw [Int.compare_eq_eq.2 (by omega), Nat.compare_eq_gt.2 hmantissa]
      rfl

/-- A code with its sign, as a number. -/
def signed (negative : Bool) (c : Nat) : Int :=
  if negative then -c else c

@[simp] theorem signed_false (c : Nat) : signed false c = c := rfl

@[simp] theorem signed_true (c : Nat) : signed true c = -c := rfl

theorem signed_bounds (negative : Bool) (c : Nat) :
    -c ≤ signed negative c ∧ signed negative c ≤ c := by
  cases negative <;> simp only [signed_false, signed_true] <;> omega

theorem swap_compare (a b : Int) : (compare a b).swap = compare (-a) (-b) := by
  rcases Int.lt_trichotomy a b with hlt | rfl | hgt
  · rw [Int.compare_eq_lt.2 hlt, Int.compare_eq_gt.2 (Int.neg_lt_neg hlt)]
    rfl
  · rw [Int.compare_eq_eq.2 rfl, Int.compare_eq_eq.2 rfl]
    rfl
  · rw [Int.compare_eq_gt.2 hgt, Int.compare_eq_lt.2 (Int.neg_lt_neg hgt)]
    rfl

variable {negative negative' : Bool} {u u' : UnpackedFloat}

/-- **Doubles compare as their codes with their signs**, apart from what is no number. -/
theorem Coded.compare_eq (h : Coded negative c u) (h' : Coded negative' c' u')
    (hc : c ≤ Binary64.infinity) (hc' : c' ≤ Binary64.infinity) :
    u.compare u' = some (compare (signed negative c) (signed negative' c')) := by
  have hfirst := signed_bounds negative c
  have hsecond := signed_bounds negative' c'
  have hless (hlt : signed negative c < signed negative' c') :
      some .lt = some (compare (signed negative c) (signed negative' c')) :=
    congrArg some (Int.compare_eq_lt.2 hlt).symm
  have hmore (hgt : signed negative' c' < signed negative c) :
      some .gt = some (compare (signed negative c) (signed negative' c')) :=
    congrArg some (Int.compare_eq_gt.2 hgt).symm
  cases h with
  | notANumber past => omega
  | infinity =>
    cases h' with
    | notANumber past => omega
    | infinity | zero => cases negative <;> cases negative' <;> rfl
    | finite pos bounded =>
      cases negative with
      | false => exact hmore (by rw [signed_false]; omega)
      | true => exact hless (by rw [signed_true]; omega)
  | zero =>
    cases h' with
    | notANumber past => omega
    | infinity | zero => cases negative <;> cases negative' <;> rfl
    | finite pos bounded =>
      cases negative' with
      | false => exact hless (by rw [signed_false]; omega)
      | true => exact hmore (by rw [signed_true]; omega)
  | finite pos bounded =>
    cases h' with
    | notANumber past => omega
    | infinity =>
      cases negative' with
      | false => exact hless (by rw [signed_false]; omega)
      | true => exact hmore (by rw [signed_true]; omega)
    | zero =>
      cases negative with
      | false => exact hmore (by rw [signed_false]; omega)
      | true => exact hless (by rw [signed_true]; omega)
    | finite pos' bounded' =>
      have hfields := compare_fields c c'
      cases negative with
      | false =>
        cases negative' with
        | false => exact congrArg some hfields
        | true => exact hmore (by rw [signed_false, signed_true]; omega)
      | true =>
        cases negative' with
        | false => exact hless (by rw [signed_true, signed_false]; omega)
        | true => exact congrArg some ((congrArg Ordering.swap hfields).trans (swap_compare _ _))

end Order

/-! ### Doubles -/

section Doubles

variable {negative : Bool} {c : Nat} {u : UnpackedFloat} {v w : Float}

/-- A double is taken apart as its sign and its code say. -/
theorem coded (v : Float) : Coded (isNegative v) (code v) v.toModel.unpack :=
  coded_unpack v.toModel.toBits.toBitVec

/-- Putting a double together gives it the sign and the code of its parts. -/
theorem isNegative_code_pack (h : Coded negative c u) (hc : c ≤ infinity) :
    isNegative ⟨.pack u⟩ = negative ∧ code ⟨.pack u⟩ = c := by
  have hpattern : (Float.ofModel (.pack u)).toBits.toNat = pattern negative c := h.toNat_pack hc
  rw [isNegative, code, hpattern]
  exact sign_code_pattern negative (Nat.lt_of_le_of_lt hc (by decide))

/-- So does giving a sign and a code. -/
theorem isNegative_code_ofCode (negative : Bool) (hc : c ≤ infinity) :
    isNegative (ofCode negative c) = negative ∧ code (ofCode negative c) = c := by
  have hlt : c < signBit := Nat.lt_of_le_of_lt hc (by decide)
  obtain ⟨hsign, hcode⟩ := sign_code_pattern negative hlt
  have hcoded := coded_unpack (UInt64.ofNat (pattern negative c)).toBitVec
  have hpattern : (UInt64.ofNat (pattern negative c)).toBitVec.toNat = pattern negative c := by
    have hsize : UInt64.size = 2 * signBit := rfl
    refine UInt64.toNat_ofNat_of_lt ?_
    cases negative <;> simp only [pattern, hsize, Bool.false_eq_true, if_false, if_true] <;> omega
  rw [hpattern, hsign, hcode] at hcoded
  exact isNegative_code_pack hcoded hc

/-- **What is no number.** -/
theorem isNaN_iff (v : Float) : v.isNaN = true ↔ infinity < code v := by
  show v.toModel.unpack.isNaN = true ↔ _
  have hcoded := coded v
  generalize v.toModel.unpack = u at hcoded
  generalize code v = c at hcoded
  cases hcoded with
  | notANumber past => simp [UnpackedFloat.isNaN, past]
  | infinity => simp [UnpackedFloat.isNaN]
  | zero => simp [UnpackedFloat.isNaN]
  | finite pos bounded => simp [UnpackedFloat.isNaN, Nat.le_of_lt bounded]

/-- What is no number has one pattern only. -/
theorem sign_code_of_infinity_lt (h : infinity < code v) :
    isNegative v = false ∧ code v = notANumber := by
  obtain rfl : v = Float.nan := by simpa using (isNaN_iff v).2 h
  decide

/-- **What is infinite.** -/
theorem isInf_iff (v : Float) : v.isInf = true ↔ code v = infinity := by
  show v.toModel.unpack.isInf = true ↔ _
  have hcoded := coded v
  generalize v.toModel.unpack = u at hcoded
  generalize code v = c at hcoded
  cases hcoded with
  | notANumber past => simp [UnpackedFloat.isInf, Nat.ne_of_gt past]
  | infinity => simp [UnpackedFloat.isInf]
  | zero => simp [UnpackedFloat.isInf, infinity, stepsPerBinade]
  | finite pos bounded => simp [UnpackedFloat.isInf, Nat.ne_of_lt bounded]

/-- **What is finite.** -/
theorem isFinite_iff (v : Float) : v.isFinite = true ↔ code v < infinity := by
  show v.toModel.unpack.isFinite = true ↔ _
  have hcoded := coded v
  generalize v.toModel.unpack = u at hcoded
  generalize code v = c at hcoded
  cases hcoded with
  | notANumber past => simp [UnpackedFloat.isFinite, Nat.le_of_lt past]
  | infinity => simp [UnpackedFloat.isFinite]
  | zero => simp [UnpackedFloat.isFinite, infinity, stepsPerBinade]
  | finite pos bounded => simp [UnpackedFloat.isFinite, bounded]

/-- **A double is given back by its sign and its code.** -/
theorem ofCode_code (v : Float) : ofCode (isNegative v) (code v) = v := by
  have hv : v.toBits.toNat < 2 * signBit := v.toBits.toNat_lt
  have hbits : (if isNegative v then signBit + code v else code v) = v.toBits.toNat := by
    rw [isNegative, code]
    split
    · next h =>
      have hle : signBit ≤ v.toBits.toNat := of_decide_eq_true h
      rw [Nat.mod_eq_sub_mod hle, Nat.mod_eq_of_lt (by omega), Nat.add_sub_cancel' hle]
    · next h =>
      have hlt : v.toBits.toNat < signBit := by simpa using h
      exact Nat.mod_eq_of_lt hlt
  rw [ofCode, hbits, UInt64.ofNat_toNat, Float.ofBits_toBits]

/-- **A double is known by its sign and its code.** -/
theorem eq_of_code (hsign : isNegative v = isNegative w) (hcode : code v = code w) : v = w := by
  rw [← ofCode_code v, ← ofCode_code w, hsign, hcode]

/-- A double with its sign, as a number that grows with it. -/
def place (v : Float) : Int := signed (isNegative v) (code v)

/-- **Doubles are compared by their places**; what is no number compares with nothing. -/
theorem compare_unpack (v w : Float) :
    v.toModel.unpack.compare w.toModel.unpack
      = if code v ≤ infinity ∧ code w ≤ infinity then some (compare (place v) (place w))
        else none := by
  have hv := coded v
  have hw := coded w
  split
  · next hle => exact hv.compare_eq hw hle.1 hle.2
  · next hnot =>
    rcases Nat.lt_or_ge infinity (code v) with hpast | hle
    · rw [hv.eq_notANumber hpast]
      rfl
    · rw [hw.eq_notANumber (by omega)]
      cases v.toModel.unpack <;> rfl

theorem le_iff (v w : Float) :
    v ≤ w ↔ code v ≤ infinity ∧ code w ≤ infinity ∧ place v ≤ place w := by
  show decide (Option.any Ordering.isLE (v.toModel.unpack.compare w.toModel.unpack) = true)
    = true ↔ _
  rw [compare_unpack, decide_eq_true_iff, ← and_assoc]
  split
  · next hle => rw [Option.any_some, Int.isLE_compare, and_iff_right hle]
  · next hnot => simp [hnot]

theorem lt_iff (v w : Float) :
    v < w ↔ code v ≤ infinity ∧ code w ≤ infinity ∧ place v < place w := by
  show decide ((v.toModel.unpack.compare w.toModel.unpack == some .lt) = true) = true ↔ _
  rw [compare_unpack, decide_eq_true_iff, beq_iff_eq, ← and_assoc]
  split
  · next hle => rw [Option.some_inj, Int.compare_eq_lt, and_iff_right hle]
  · next hnot => simp [hnot]

/-- Doubles at one place are the same, or both zero. -/
theorem place_eq_iff (v w : Float) : place v = place w ↔ v = w ∨ code v = 0 ∧ code w = 0 := by
  constructor
  · intro h
    rw [place, place] at h
    by_cases hsign : isNegative v = isNegative w
    · refine .inl (eq_of_code hsign ?_)
      rw [hsign] at h
      cases hw : isNegative w <;> simp [hw] at h <;> omega
    · -- The signs differ, so neither place is on the other side of zero.
      refine .inr ?_
      cases hv : isNegative v <;> cases hw : isNegative w <;> simp [hv, hw] at h hsign <;> omega
  · rintro (rfl | ⟨hv, hw⟩)
    · rfl
    · rw [place, place, hv, hw]
      cases isNegative v <;> cases isNegative w <;> rfl

/-- **Equal doubles** are the same, or both zero. -/
theorem beq_iff (v w : Float) :
    (v == w) = true ↔ code v ≤ infinity ∧ (v = w ∨ code v = 0 ∧ code w = 0) := by
  show (v.toModel.unpack.compare w.toModel.unpack == some .eq) = true ↔ _
  rw [compare_unpack, beq_iff_eq, ← place_eq_iff]
  split
  · next hle => rw [Option.some_inj, Int.compare_eq_eq, and_iff_right hle.1]
  · next hnot =>
    refine iff_of_false (by simp) fun h => hnot ⟨h.1, ?_⟩
    rcases (place_eq_iff v w).1 h.2 with rfl | ⟨-, hw⟩
    · exact h.1
    · omega

theorem beq_zero_iff (v : Float) : (v == 0) = true ↔ code v = 0 := by
  have hzero : code 0 = 0 := by decide +kernel
  rw [beq_iff]
  constructor
  · rintro ⟨-, rfl | ⟨hv, -⟩⟩
    · exact hzero
    · exact hv
  · intro hv
    exact ⟨by omega, .inr ⟨hv, hzero⟩⟩

/-- A negated double has the other sign. -/
theorem isNegative_code_neg (hv : code v ≤ infinity) :
    isNegative (-v) = !isNegative v ∧ code (-v) = code v :=
  isNegative_code_pack (coded v).neg hv

/-- A positive double negated is the negative one. -/
theorem neg_ofCode (hc : c ≤ infinity) : -ofCode false c = ofCode true c := by
  obtain ⟨hsign, hcode⟩ := isNegative_code_ofCode false hc
  obtain ⟨hsign', hcode'⟩ := isNegative_code_ofCode true hc
  obtain ⟨hsignNeg, hcodeNeg⟩ := isNegative_code_neg (v := ofCode false c) (by rwa [hcode])
  exact eq_of_code (by rw [hsignNeg, hsign, hsign', Bool.not_false])
    (by rw [hcodeNeg, hcode, hcode'])

/-- A size is not negative. -/
theorem isNegative_code_abs (v : Float) : isNegative v.abs = false ∧ code v.abs = code v := by
  rcases Nat.lt_or_ge infinity (code v) with hpast | hle
  · show isNegative ⟨.pack v.toModel.unpack.abs⟩ = false ∧ code ⟨.pack v.toModel.unpack.abs⟩ = _
    rw [(coded v).eq_notANumber hpast, (sign_code_of_infinity_lt hpast).2]
    decide
  · exact isNegative_code_pack (coded v).abs hle

/-- A size has its code for its place. -/
theorem place_abs (v : Float) : place v.abs = code v := by
  obtain ⟨hsign, hcode⟩ := isNegative_code_abs v
  rw [place, hsign, hcode, signed_false]

/-- **Sizes are ordered as their codes.** -/
theorem le_abs_iff (hw : isNegative w = false) (hbound : code w ≤ infinity) :
    w ≤ v.abs ↔ code w ≤ code v ∧ code v ≤ infinity := by
  have hcode := (isNegative_code_abs v).2
  have hplace : place w = code w := by rw [place, hw, signed_false]
  rw [le_iff, place_abs, hcode, hplace, Int.ofNat_le]
  exact ⟨fun h => ⟨h.2.2, h.2.1⟩, fun h => ⟨hbound, h.2, h.1⟩⟩

theorem abs_lt_iff (hw : isNegative w = false) (hbound : code w ≤ infinity) :
    v.abs < w ↔ code v < code w := by
  have hcode := (isNegative_code_abs v).2
  have hplace : place w = code w := by rw [place, hw, signed_false]
  rw [lt_iff, place_abs, hcode, hplace, Int.ofNat_lt]
  exact ⟨fun h => h.2.2, fun h => ⟨by omega, hbound, h⟩⟩

end Doubles

end Binary64

end Reckoner
