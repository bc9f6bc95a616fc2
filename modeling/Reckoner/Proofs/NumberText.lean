import Reckoner.Calculator
import Reckoner.Proofs.Layout

namespace Reckoner

/-!
# Results are read back

A result that is shown is the text of a number again: as a number of a program it has the value that
was shown (`shown_readBack`).  So different values are shown differently, whatever layout they get,
and no value is shown as an error.

* `Significant.code?_layout` — a layout is read as the code whose digits it lays out;
* `Numeral.value?_shown` — every text of a value is a numeral of it; only the sign of zero is lost.
-/

namespace Numeral

variable {c : Char} {cs : List Char}

theorem toLower_of_isDigit (hc : c.isDigit = true) : c.toLower = c := by
  have hhigh : c.toNat ≤ 57 := (Char.isDigit_iff_toNat.1 hc).2
  unfold Char.toLower
  refine dif_neg fun h => ?_
  have hlow : 65 ≤ c.toNat := UInt32.le_iff_toNat_le.1 h.1
  omega

/-- No word starts with a digit. -/
theorem code?_of_isDigit (hc : c.isDigit = true) :
    code? (c :: cs) = (decimal? (c :: cs)).map Decimal.code := by
  have hword (w : Char) (ws : List Char) (hw : w.isDigit = false) :
      String.ofList ((c :: cs).map Char.toLower) ≠ String.ofList (w :: ws) := by
    intro h
    have hcons := String.ofList_injective h
    rw [List.map_cons, toLower_of_isDigit hc] at hcons
    obtain rfl := (List.cons.inj hcons).1
    simp [hc] at hw
  unfold code?
  rw [if_neg, if_neg]
  · exact hword 'n' "an".toList rfl
  · rintro (h | h)
    · exact hword 'i' "nf".toList rfl h
    · exact hword 'i' "nfinity".toList rfl h

/-- A sign is split off again. -/
theorem splitSign_signed (negative : Bool) (hcs : ∀ c ∈ cs.head?, c ≠ '+' ∧ c ≠ '-') :
    splitSign (NumberText.signed negative cs) = (negative, cs) := by
  cases negative with
  | true => rfl
  | false =>
    show splitSign cs = (false, cs)
    unfold splitSign
    split
    · exact absurd rfl (hcs '+' rfl).1
    · exact absurd rfl (hcs '-' rfl).2
    · rfl

/-- **A text with a sign** has the code of the text and the sign. -/
theorem value?_signed (negative : Bool) (hcs : ∀ c ∈ cs.head?, c ≠ '+' ∧ c ≠ '-') :
    value? (String.ofList (NumberText.signed negative cs))
      = (code? cs).map (Binary64.ofCode negative) := by
  rw [value?, String.toList_ofList, splitSign_signed negative hcs]

end Numeral

namespace Significant

variable {s : Significant}

/-- A layout starts with a digit. -/
theorem exists_cons_layout (hs : s.Proper) : ∃ c cs, s.layout = c :: cs ∧ c.isDigit = true := by
  rw [layout]
  split
  · exact (writes_plain hs).literal.exists_cons
  · obtain ⟨x, hmantissa, -⟩ := writes_mantissa hs
    obtain ⟨c, cs, hcons, hc⟩ := hmantissa.literal.exists_cons
    exact ⟨c, cs ++ s.power, by rw [scientific_eq, hcons, List.cons_append], hc⟩

theorem head_layout (hs : s.Proper) : ∀ c ∈ s.layout.head?, c ≠ '+' ∧ c ≠ '-' := by
  obtain ⟨d, ds, hcons, hd⟩ := exists_cons_layout hs
  intro c hc
  rw [hcons] at hc
  obtain rfl : d = c := Option.some.inj hc
  constructor <;> rintro rfl <;> exact absurd hd (by decide)

/-- **A layout is read as the code** of any decimal with its value. -/
theorem code?_layout (hs : s.Proper) {d : Decimal} (hd : d.value = s.value) :
    Numeral.code? s.layout = some d.code := by
  obtain ⟨c, cs, hcons, hc⟩ := exists_cons_layout hs
  obtain ⟨read, hread, hvalue⟩ := decimal?_layout hs
  rw [hcons] at hread
  rw [hcons, Numeral.code?_of_isDigit hc, hread, Option.map_some,
    Decimal.code_congr (hvalue.trans hd.symm)]

end Significant

namespace NumberText

variable {v : Float}

/-! ### The texts of the four kinds of values -/

/-- What is written depends on the kind of the value. -/
theorem shown_eq (v : Float) :
    shown v = String.ofList (
      if Binary64.infinity < Binary64.code v then "NaN".toList
      else if Binary64.code v = Binary64.infinity then
        signed (Binary64.isNegative v) "Infinity".toList
      else if Binary64.code v = 0 then signed (Binary64.isNegative v && false) ['0']
      else signed (Binary64.isNegative v)
        (Decimal.shortest (Binary64.code v)).significant.layout) := rfl

theorem shown_of_infinity_lt (h : Binary64.infinity < Binary64.code v) : shown v = "NaN" := by
  rw [shown_eq, if_pos h]
  rfl

theorem shown_of_infinity (h : Binary64.code v = Binary64.infinity) :
    shown v = String.ofList (signed (Binary64.isNegative v) "Infinity".toList) := by
  rw [shown_eq, if_neg (Nat.not_lt.2 (Nat.le_of_eq h)), if_pos h]

theorem shown_of_zero (h : Binary64.code v = 0) : shown v = "0" := by
  have hfinite : Binary64.code v < Binary64.infinity := by
    rw [h]
    decide
  rw [shown_eq, if_neg (Nat.lt_asymm hfinite), if_neg (Nat.ne_of_lt hfinite), if_pos h,
    Bool.and_false]
  rfl

theorem shown_of_finite (hpos : 0 < Binary64.code v)
    (hfinite : Binary64.code v < Binary64.infinity) :
    shown v = String.ofList (signed (Binary64.isNegative v)
      (Decimal.shortest (Binary64.code v)).significant.layout) := by
  rw [shown_eq, if_neg (Nat.lt_asymm hfinite), if_neg (Nat.ne_of_lt hfinite),
    if_neg (Nat.ne_of_gt hpos)]

end NumberText

/-- A decimal that rounds to a positive double is not zero. -/
theorem Decimal.coefficient_ne_zero {d : Decimal} (h : 0 < d.code) : d.coefficient ≠ 0 := by
  intro hzero
  rw [code, if_pos hzero] at h
  exact Nat.lt_irrefl 0 h

/-- The shortest decimal of a positive double has digits. -/
theorem Decimal.proper_shortest {c : Nat} (hpos : 0 < c) (hc : c ≤ Binary64.infinity) :
    (shortest c).significant.Proper := by
  refine proper_significant (coefficient_ne_zero ?_)
  rwa [code_shortest hc]

/-- **What is shown is a numeral of the value**; only the sign of zero is lost. -/
theorem Numeral.value?_shown (v : Float) :
    value? (NumberText.shown v)
      = some (if Binary64.code v = 0 then Binary64.ofCode false 0 else v) := by
  have hgiven := Binary64.ofCode_code v
  rcases Nat.lt_trichotomy (Binary64.code v) Binary64.infinity with hfinite | hinfinite | hpast
  · split
    · next hzero =>
      rw [NumberText.shown_of_zero hzero]
      rfl
    · next hne =>
      have hpos := Nat.pos_of_ne_zero hne
      have hproper := Decimal.proper_shortest hpos (Nat.le_of_lt hfinite)
      have hcode := Significant.code?_layout hproper (Decimal.value_significant _).symm
      rw [Decimal.code_shortest (Nat.le_of_lt hfinite)] at hcode
      rw [NumberText.shown_of_finite hpos hfinite,
        value?_signed _ (Significant.head_layout hproper), hcode, Option.map_some, hgiven]
  · have hne : Binary64.code v ≠ 0 := by
      rw [hinfinite]
      decide
    have hcode : code? "Infinity".toList = some Binary64.infinity := by decide
    rw [if_neg hne, NumberText.shown_of_infinity hinfinite, value?_signed _ (by simp), hcode,
      Option.map_some, ← hinfinite, hgiven]
  · have hcode : code? "NaN".toList = some Binary64.notANumber := by decide
    obtain ⟨hsign, hnan⟩ := Binary64.sign_code_of_infinity_lt hpast
    rw [hsign, hnan] at hgiven
    rw [if_neg (by omega), NumberText.shown_of_infinity_lt hpast]
    show (code? "NaN".toList).map (Binary64.ofCode false) = some v
    rw [hcode, Option.map_some, hgiven]

/-! ### Different texts for different values -/

namespace NumberText

/-- **Values are shown alike** if they are equal, or if they both are no numbers. -/
theorem shown_eq_shown_iff (a b : Float) :
    shown a = shown b ↔ (a == b) = true ∨ a.isNaN = true ∧ b.isNaN = true := by
  rw [Binary64.beq_iff, Binary64.isNaN_iff, Binary64.isNaN_iff]
  constructor
  · intro h
    have hread := congrArg Numeral.value? h
    rw [Numeral.value?_shown, Numeral.value?_shown, Option.some_inj] at hread
    have hzero : Binary64.code (Binary64.ofCode false 0) = 0 := by decide
    by_cases ha : Binary64.code a = 0 <;> by_cases hb : Binary64.code b = 0
    · exact .inl ⟨by omega, .inr ⟨ha, hb⟩⟩
    · rw [if_pos ha, if_neg hb] at hread
      exact absurd (hread ▸ hzero) hb
    · rw [if_neg ha, if_pos hb] at hread
      exact absurd (hread ▸ hzero) ha
    · rw [if_neg ha, if_neg hb] at hread
      subst hread
      rcases Nat.lt_or_ge Binary64.infinity (Binary64.code a) with hpast | hle
      · exact .inr ⟨hpast, hpast⟩
      · exact .inl ⟨hle, .inl rfl⟩
  · rintro (⟨-, rfl | ⟨ha, hb⟩⟩ | ⟨ha, hb⟩)
    · rfl
    · rw [shown_of_zero ha, shown_of_zero hb]
    · rw [shown_of_infinity_lt ha, shown_of_infinity_lt hb]

theorem shown_ne_errorText (v : Float) : shown v ≠ Evaluation.errorText := by
  intro h
  have hread := Numeral.value?_shown v
  have hnone : Numeral.value? Evaluation.errorText = none := by decide
  rw [h, hnone] at hread
  cases hread

end NumberText

/-- A number as a program gives the value of its text. -/
theorem Program.execute_number {text : String} {v : Float} (h : Numeral.value? text = some v) :
    (execute [.number text]).outcome = .ok v := by
  simp [execute, run, Instruction.run, h, Stack.push, single, Except.bind]

/-- **Results are read back.**  What is shown of a value, as the only number of a program, has that
    value: the same bits, but for zero, which has no sign, and some value that is no number for any.
    So two values are shown alike exactly if they are equal or both no numbers, and the text of an
    evaluation tells an error from every value, and a value from every other. -/
theorem shown_readBack :
    (∀ v : Float, ∃ w, (Program.execute [.number (NumberText.shown v)]).outcome = .ok w ∧
      (v.isNaN = false → (v == 0) = false → w.toBits = v.toBits) ∧
      ((v == 0) = true → w.toBits = (0 : Float).toBits) ∧ (v.isNaN = true → w.isNaN = true)) ∧
    (∀ a b : Float, NumberText.shown a = NumberText.shown b ↔
      (a == b) = true ∨ a.isNaN = true ∧ b.isNaN = true) ∧
    (∀ v : Float, NumberText.shown v ≠ Evaluation.errorText) ∧
    (∀ e : Evaluation, e.text = Evaluation.errorText ↔ ∃ error, e.outcome = .error error) ∧
    (∀ (e e' : Evaluation) (a b : Float), e.outcome = .ok a → e'.outcome = .ok b →
      (e.text = e'.text ↔ (a == b) = true ∨ a.isNaN = true ∧ b.isNaN = true)) := by
  refine ⟨fun v => ?_, NumberText.shown_eq_shown_iff, NumberText.shown_ne_errorText, fun e => ?_,
    fun e e' a b ha hb => ?_⟩
  · refine ⟨_, Program.execute_number (Numeral.value?_shown v), fun _ hzero => ?_, fun hzero => ?_,
      fun hnan => ?_⟩
    · have hne : Binary64.code v ≠ 0 := fun h => by
        simp [(Binary64.beq_zero_iff v).2 h] at hzero
      rw [if_neg hne]
    · rw [if_pos ((Binary64.beq_zero_iff v).1 hzero)]
      decide +kernel
    · have hpast := (Binary64.isNaN_iff v).1 hnan
      rwa [if_neg (by omega)]
  · constructor
    · intro h
      cases houtcome : e.outcome with
      | ok v =>
        rw [Evaluation.text, houtcome] at h
        exact absurd h (NumberText.shown_ne_errorText v)
      | error x => exact ⟨x, rfl⟩
    · rintro ⟨x, hx⟩
      rw [Evaluation.text, hx]
  · rw [Evaluation.text, Evaluation.text, ha, hb]
    exact NumberText.shown_eq_shown_iff a b

end Reckoner
