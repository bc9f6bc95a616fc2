import Mathlib.Data.List.TakeWhile
import Reckoner.Decimal.Numeral
import Reckoner.Proofs.DraftRun

namespace Reckoner

/-!
# Number tokens are numerals

Numbers are read twice: as tokens when a source is compiled, and as numerals when its program runs.
The second reader takes every text that the first one makes (`numeral_of_mem_sourceTokens`).

* `Literal` — the language of number tokens, `digit+ ('.' digit+)?`;
* `Scan.literal_of_start` — a number token is a literal;
* `Literal.isSome_value?` — a literal is a numeral, without sign and exponent.
-/

/-- The texts of number tokens: digits, and possibly a point with digits after it. -/
inductive Literal : List Char → Prop where
  | whole {digits : List Char} (nonempty : digits ≠ [])
      (all : ∀ c ∈ digits, c.isDigit = true) : Literal digits
  | places {digits places : List Char} (nonempty : digits ≠ [])
      (all : ∀ c ∈ digits, c.isDigit = true) (placesNonempty : places ≠ [])
      (placesAll : ∀ c ∈ places, c.isDigit = true) : Literal (digits ++ '.' :: places)

/-! ### Tokens are literals -/

/-- What a run of digits takes are digits. -/
theorem isDigit_of_mem_takeWhile {c : Char} {cs : List Char} (h : c ∈ cs.takeWhile Char.isDigit) :
    c.isDigit = true := by
  have hall := List.all_takeWhile (p := Char.isDigit) (l := cs)
  exact List.all_eq_true.1 hall c h

namespace Scan

/-- A number that is read where a digit stands is a literal. -/
theorem literal_of_number {c : Char} {cs : List Char} {text : String} (hc : c.isDigit = true)
    (h : (number (c :: cs)).reading = .token (.number text)) : Literal text.toList := by
  have hne : (c :: cs).takeWhile Char.isDigit ≠ [] := by simp [hc]
  unfold number at h
  split at h
  · -- A point stands after the digits, and is part of the number.
    next more _ =>
    by_cases hplaces : (more.takeWhile Char.isDigit).isEmpty = true
    · simp [hplaces] at h
    · simp only [hplaces, Bool.false_eq_true, if_false, Reading.token.injEq,
        Token.number.injEq] at h
      subst h
      rw [String.toList_ofList]
      exact .places hne (fun _ => isDigit_of_mem_takeWhile) (by simpa using hplaces)
        fun _ => isDigit_of_mem_takeWhile
  · simp only [Reading.token.injEq, Token.number.injEq] at h
    subst h
    rw [String.toList_ofList]
    exact .whole hne fun _ => isDigit_of_mem_takeWhile

/-- No character alone writes a number. -/
theorem ofSymbol?_ne_number (c : Char) (text : String) :
    Token.ofSymbol? c ≠ some (.number text) := by
  unfold Token.ofSymbol?
  split
  · simp
  · simp
  · cases Operator.ofChar? c <;> simp

/-- **A number token is a literal.** -/
theorem literal_of_start {cs : List Char} {text : String}
    (h : (start cs).reading = .token (.number text)) : Literal text.toList := by
  unfold start at h
  split at h
  · cases h
  · next c cs =>
    split at h
    · next t ht =>
      obtain rfl := Reading.token.inj h
      exact absurd ht (ofSymbol?_ne_number c text)
    · split at h
      · next hdigit => exact literal_of_number hdigit h
      · split at h
        · simp [name] at h
        · cases h

end Scan

/-- Every number token from a cursor on is a literal. -/
theorem Cursor.literal_of_mem_tokens {c : Cursor} {text : String}
    (h : Token.number text ∈ c.tokens.tokens) : Literal text.toList := by
  fun_induction Cursor.tokens c with
  | case1 c r t ht _ later ih =>
    rcases List.mem_cons.1 h with rfl | h
    · exact Scan.literal_of_start ht
    · exact ih h
  | case2 c r ht => cases h
  | case3 c r e ht => cases h

/-! ### Literals are numerals -/

namespace Literal

variable {cs : List Char}

/-- A literal starts with a digit. -/
theorem exists_cons (h : Literal cs) : ∃ c rest, cs = c :: rest ∧ c.isDigit = true := by
  cases h with
  | whole nonempty all =>
    obtain ⟨c, rest, rfl⟩ := List.exists_cons_of_ne_nil nonempty
    exact ⟨c, rest, rfl, all c List.mem_cons_self⟩
  | places nonempty all =>
    obtain ⟨c, rest, rfl⟩ := List.exists_cons_of_ne_nil nonempty
    exact ⟨c, _, rfl, all c List.mem_cons_self⟩

/-- So it has no sign. -/
theorem splitSign_eq (h : Literal cs) : Numeral.splitSign cs = (false, cs) := by
  obtain ⟨c, rest, rfl, hc⟩ := h.exists_cons
  -- Neither sign is a digit.
  unfold Numeral.splitSign
  split
  · next heq => obtain ⟨rfl, -⟩ := List.cons.inj heq; exact absurd hc (by decide)
  · next heq => obtain ⟨rfl, -⟩ := List.cons.inj heq; exact absurd hc (by decide)
  · rfl

/-- A literal is a numeral in digits. -/
theorem isSome_decimal? (h : Literal cs) : (Numeral.decimal? cs).isSome = true := by
  unfold Numeral.decimal?
  cases h with
  | whole nonempty all =>
    have htaken : cs.takeWhile Char.isDigit = cs := List.takeWhile_eq_self_iff.2 all
    have hleft : cs.dropWhile Char.isDigit = [] := List.dropWhile_eq_nil_iff.2 all
    simp [htaken, hleft, Numeral.splitPlaces, Numeral.exponent?, nonempty]
  | @places digits places nonempty all _ placesAll =>
    have htaken : (digits ++ '.' :: places).takeWhile Char.isDigit = digits := by
      rw [List.takeWhile_append_of_pos all]
      simp
    have hleft : (digits ++ '.' :: places).dropWhile Char.isDigit = '.' :: places := by
      rw [List.dropWhile_append_of_pos all]
      simp
    have hplaces : places.takeWhile Char.isDigit = places := List.takeWhile_eq_self_iff.2 placesAll
    have hend : places.dropWhile Char.isDigit = [] := List.dropWhile_eq_nil_iff.2 placesAll
    simp [htaken, hleft, Numeral.splitPlaces, hplaces, hend, Numeral.exponent?, nonempty]

/-- **A literal is a numeral.** -/
theorem isSome_value? {text : String} (h : Literal text.toList) :
    (Numeral.value? text).isSome = true := by
  unfold Numeral.value?
  rw [h.splitSign_eq]
  show ((Numeral.code? text.toList).map _).isSome = true
  rw [Option.isSome_map]
  -- The words are tried first; no literal is one, but each would have a value.
  unfold Numeral.code?
  dsimp only
  split
  · rfl
  · split
    · rfl
    · rw [Option.isSome_map]
      exact h.isSome_decimal?

end Literal

/-- **Every number token of a source is a numeral.** -/
theorem numeral_of_mem_sourceTokens {source text : String}
    (h : Token.number text ∈ sourceTokens source) : (Numeral.value? text).isSome = true :=
  (Cursor.literal_of_mem_tokens h).isSome_value?

end Reckoner
