import Reckoner.Proofs.Acceptance
import Reckoner.Proofs.Evaluation
import Reckoner.Proofs.NumberText
import Reckoner.Proofs.Rejection
import Reckoner.Proofs.Rendering

namespace Reckoner

/-!
# Results as expressions

What is shown of a value may be typed in again.  A plain text is a literal, possibly after a minus,
and has the value that was shown.  A scientific text is no expression, since it goes on behind its
mantissa with the name `e`; it is rejected there, and never read as a sum.  The words for the other
values are names that stand for nothing.

* `Decimal.le_exponent_shortest_iff` — which layout a double gets depends on its code alone: the
  bounds are the codes of `1e-6` and `1e21`;
* `compile_signed`, `eval_signed_literal`, `eval_signed_name` — what a single word comes to, with
  and without a minus;
* `compile_scientific` — a scientific text is rejected at its exponent.
-/

/-! ### Which layout a double gets -/

namespace Decimal

variable {c : Nat} {k : Int}

theorem value_one (k : Int) : (⟨1, k⟩ : Decimal).value = 10 ^ k := by
  rw [value, Nat.cast_one, one_mul]

/-- **The exponent of a double** is at least that of a power of ten exactly if the double is at
    least as large as the double of this power.  This needs that the double of the power itself is
    written with its exponent: the decimals that round to it lie on both sides of the power. -/
theorem le_exponent_shortest_iff
    (hself : (shortest (code ⟨1, k⟩)).significant.exponent = k) (hpos : 0 < c)
    (hc : c ≤ Binary64.infinity) :
    k ≤ (shortest c).significant.exponent ↔ code ⟨1, k⟩ ≤ c := by
  have hcode := code_shortest hc
  have hne : (shortest c).coefficient ≠ 0 := coefficient_ne_zero (by rwa [hcode])
  obtain ⟨hlower, hupper⟩ := value_bounds hne
  constructor
  · intro hk
    have hle : (⟨1, k⟩ : Decimal).value ≤ (shortest c).value := by
      rw [value_one]
      exact (zpow_le_zpow_right₀ (by norm_num) hk).trans hlower
    rw [← hcode]
    exact code_le_code hle
  · intro hle
    by_contra hk
    have hge : (shortest c).value ≤ (⟨1, k⟩ : Decimal).value := by
      rw [value_one]
      exact hupper.le.trans (zpow_le_zpow_right₀ (by norm_num) (by omega))
    have hcodes := code_le_code hge
    rw [hcode] at hcodes
    obtain rfl : c = code ⟨1, k⟩ := Nat.le_antisymm hcodes hle
    exact hk hself.ge

/-- The powers of ten where the layout changes are written with their own exponents. -/
theorem exponent_shortest_bounds :
    (shortest (code ⟨1, -6⟩)).significant.exponent = -6 ∧
      (shortest (code ⟨1, 21⟩)).significant.exponent = 21 := by
  decide +kernel

end Decimal

/-! ### Words with a sign -/

/-- The token of a minus. -/
def signTokens (negative : Bool) : List Token :=
  if negative then [.operator .sub] else []

/-- The instruction of a minus. -/
def signCode (negative : Bool) : Program :=
  if negative then [.negate] else []

/-- A minus may stand before any cut. -/
theorem Segmented.signed {cs rest : List Char} {ts : List Token} (h : Segmented cs ts rest)
    (negative : Bool) :
    Segmented (NumberText.signed negative cs) (signTokens negative ++ ts) rest := by
  cases negative with
  | false => exact h
  | true => exact (h.cons_symbol (c := '-') (t := .operator .sub) rfl).1

/-- The tokens of a text that is cut as a whole. -/
theorem sourceTokens_ofList {cs : List Char} {ts : List Token} (h : Segmented cs ts []) :
    sourceTokens (String.ofList cs) = ts ∧ sourceFault? (String.ofList cs) = none :=
  sourceTokens_of_segmented (by rwa [String.toList_ofList])

/-- **A single word, possibly after a minus**, is compiled to its instruction and the one of the
    minus. -/
theorem compile_signed {p : Phrase} {t : Token} (hp : p.Proper)
    (hrank : Operator.pow.rank ≤ p.rank) (htokens : p.tokens = [t]) (hnesting : p.nesting = 0)
    (ht : t.Lexeme) (negative : Bool) :
    compile (String.ofList (NumberText.signed negative t.text.toList))
      = ⟨p.tree.program ++ signCode negative, none⟩ := by
  have hend : Segmented [] [] [] := .gap (by simp)
  have hword := (hend.cons ht (by simp [Token.EndsBefore])).signed negative
  rw [List.append_nil] at hword
  obtain ⟨hread, hfault⟩ := sourceTokens_ofList hword
  cases negative with
  | false =>
    have hphrase : p.tokens = signTokens false ++ [t] := htokens
    rw [compile_of_phrase hfault hp (hphrase.trans hread.symm) (by rw [hnesting]; decide)]
    simp [signCode]
  | true =>
    have hsign : (Phrase.sign true p).Proper := .sign true hrank hp
    have hphrase : (Phrase.sign true p).tokens = signTokens true ++ [t] := by
      rw [Phrase.tokens, htokens]
      rfl
    rw [compile_of_phrase hfault hsign (hphrase.trans hread.symm)
      (by rw [Phrase.nesting, hnesting]; decide)]
    rfl

section Words

variable {cs : List Char} {c : Nat} (negative : Bool)

theorem compile_signed_literal (hcs : Literal cs) :
    compile (String.ofList (NumberText.signed negative cs))
      = ⟨.number (String.ofList cs) :: signCode negative, none⟩ := by
  have ht : (Token.number (String.ofList cs)).Lexeme := by simpa [Token.Lexeme] using hcs
  have hword := compile_signed (.number (String.ofList cs)) (Nat.le_succ _) rfl rfl ht negative
  rwa [Token.text, String.toList_ofList] at hword

/-- **A literal has its value**, and a minus negates it. -/
theorem eval_signed_literal (hcs : Literal cs) (hcode : Numeral.code? cs = some c)
    (hc : c ≤ Binary64.infinity) :
    eval (String.ofList (NumberText.signed negative cs)) = .ok (Binary64.ofCode negative c) := by
  have hcompile := compile_signed_literal negative hcs
  have hvalue : Numeral.value? (String.ofList cs) = some (Binary64.ofCode false c) := by
    rw [Numeral.value?, String.toList_ofList, hcs.splitSign_eq]
    show (Numeral.code? cs).map _ = _
    rw [hcode, Option.map_some]
  rw [eval_of_accepted (by rw [hcompile]), hcompile]
  cases negative with
  | false => simp [signCode, Program.value, Program.execute_number hvalue, Except.mapError]
  | true =>
    rw [← Binary64.neg_ofCode hc]
    simp [signCode, Program.value, Program.execute, Program.run, Instruction.run, hvalue,
      Stack.push, Stack.pop?, Program.single, Except.bind, Except.mapError]

/-- A name that stands for nothing has no value. -/
theorem eval_signed_name {name : String} (hname : (Token.name name).Lexeme)
    (hnone : Builtin.constant? name = none) :
    eval (String.ofList (NumberText.signed negative name.toList))
      = .error (.runtime (.unknownConstant name)) := by
  have hword := compile_signed (.name name) (Nat.le_succ _) rfl rfl hname negative
  rw [Token.text] at hword
  rw [eval_of_accepted (by rw [hword]), hword]
  simp [Phrase.tree, Expr.program, Program.value, Program.execute, Program.run, Instruction.run,
    hnone, Except.bind, Except.mapError]

end Words

/-- A scientific text is cut into its mantissa, the name `e`, and what is left of the exponent. -/
theorem Significant.segmented_scientific {s : Significant} (hs : s.Proper) :
    ∃ ts, Segmented s.scientific
      (.number (String.ofList s.mantissa) :: .name "e" :: ts) [] := by
  obtain ⟨x, hmantissa, -⟩ := writes_mantissa hs
  obtain ⟨t, hsymbol⟩ : ∃ t, Token.ofSymbol? (if s.exponent < 0 then '-' else '+') = some t := by
    split
    · exact ⟨.operator .sub, rfl⟩
    · exact ⟨.operator .add, rfl⟩
  have hdigits : (Token.number (String.ofList (Decimal.digits s.exponent.natAbs))).Lexeme := by
    simp only [Token.Lexeme, String.toList_ofList]
    exact .whole Nat.toDigits_ne_nil fun c hc => Decimal.isDigit_of_mem_digits hc
  have hnumber : (Token.number (String.ofList s.mantissa)).Lexeme := by
    simpa [Token.Lexeme] using hmantissa.literal
  have hend : Segmented [] [] [] := .gap (by simp)
  obtain ⟨hsign, hseparates⟩ := (hend.cons hdigits (by simp [Token.EndsBefore])).cons_symbol hsymbol
  have hname : (Token.name "e").Lexeme := ⟨by decide, by simp⟩
  obtain ⟨-, htext, -⟩ := Token.lexeme_of_ofSymbol? hsymbol
  rw [htext] at hsign hseparates
  let ts := [t, .number (String.ofList (Decimal.digits s.exponent.natAbs))]
  have hpower : Segmented s.power (.name "e" :: ts) [] := by
    simpa [power, Token.text] using hsign.cons hname (hseparates.endsBefore _)
  -- Behind the mantissa stands an `e`, which continues no number.
  have hends : (Token.number (String.ofList s.mantissa)).EndsBefore (s.power ++ []) := by
    simp [Token.EndsBefore, power]
  refine ⟨ts, ?_⟩
  simpa [scientific_eq, Token.text] using hpower.cons hnumber hends

/-- **A scientific text is rejected at its exponent**: behind the mantissa, a name continues
    nothing. -/
theorem compile_scientific {s : Significant} (hs : s.Proper) (negative : Bool) :
    (compile (String.ofList (NumberText.signed negative s.scientific))).rejection?
      = some (.trailingToken (.name "e")) := by
  obtain ⟨ts, hcut⟩ := s.segmented_scientific hs
  obtain ⟨hread, -⟩ := sourceTokens_ofList (hcut.signed negative)
  have hstarts : signTokens negative ++ [.number (String.ofList s.mantissa), .name "e"]
      <+: sourceTokens (String.ofList (NumberText.signed negative s.scientific)) :=
    ⟨ts, by rw [hread]; simp⟩
  have hrefused : (Draft.empty.readAll
      (signTokens negative ++ [.number (String.ofList s.mantissa), .name "e"])).2
      = .error (.trailingToken (.name "e")) := by
    cases negative <;> rfl
  rw [compile_of_refused (Prod.ext rfl hrefused) hstarts]

/-! ### Results typed in again -/

namespace NumberText

variable {v : Float}

/-- The values that are shown without an exponent. -/
def Plain (v : Float) : Prop :=
  (v == 0) = true ∨ (1e-6 : Float) ≤ v.abs ∧ v.abs < (1e21 : Float)

instance (v : Float) : Decidable (Plain v) := inferInstanceAs (Decidable (_ ∨ _))

/-- The doubles where the layout changes are those of the powers of ten. -/
theorem code_bounds :
    Binary64.code (1e-6 : Float) = Decimal.code ⟨1, -6⟩ ∧
      Binary64.code (1e21 : Float) = Decimal.code ⟨1, 21⟩ ∧
      Binary64.isNegative (1e-6 : Float) = false ∧ Binary64.isNegative (1e21 : Float) = false := by
  decide +kernel

/-- They are finite, and the smaller one comes first. -/
theorem code_bounds_lt :
    Decimal.code ⟨1, -6⟩ < Decimal.code ⟨1, 21⟩ ∧ Decimal.code ⟨1, 21⟩ < Binary64.infinity := by
  decide +kernel

/-- **Which values are plain**, by their codes. -/
theorem plain_iff (v : Float) :
    Plain v ↔ Binary64.code v = 0 ∨
      Decimal.code ⟨1, -6⟩ ≤ Binary64.code v ∧ Binary64.code v < Decimal.code ⟨1, 21⟩ := by
  obtain ⟨hlower, hupper, hlowerSign, hupperSign⟩ := code_bounds
  obtain ⟨hlt, hfinite⟩ := code_bounds_lt
  rw [Plain, Binary64.beq_zero_iff, Binary64.le_abs_iff hlowerSign (by omega),
    Binary64.abs_lt_iff hupperSign (by omega), hlower, hupper]
  omega

example : Plain (-0.1) ∧ Plain 1e-6 ∧ ¬Plain 1e21 := by decide +kernel

theorem code_lt_of_plain (h : Plain v) : Binary64.code v < Binary64.infinity := by
  have hcodes := (plain_iff v).1 h
  obtain ⟨hlt, hfinite⟩ := code_bounds_lt
  omega

/-- The layout of a finite value is plain exactly if the value is. -/
theorem layout_eq (hpos : 0 < Binary64.code v) (hfinite : Binary64.code v < Binary64.infinity) :
    (Plain v → (Decimal.shortest (Binary64.code v)).significant.layout
        = (Decimal.shortest (Binary64.code v)).significant.plain) ∧
      (¬Plain v → (Decimal.shortest (Binary64.code v)).significant.layout
        = (Decimal.shortest (Binary64.code v)).significant.scientific) := by
  obtain ⟨hlower, hupper⟩ := Decimal.exponent_shortest_bounds
  have hleast := Decimal.le_exponent_shortest_iff hlower hpos (Nat.le_of_lt hfinite)
  have hmost := Decimal.le_exponent_shortest_iff hupper hpos (Nat.le_of_lt hfinite)
  rw [plain_iff, Significant.layout]
  constructor
  · intro hplain
    rw [if_pos]
    omega
  · intro hplain
    rw [if_neg]
    omega

/-- A value below zero has a minus and is not zero. -/
theorem lt_zero_iff (h : Binary64.code v ≤ Binary64.infinity) :
    v < 0 ↔ Binary64.isNegative v = true ∧ 0 < Binary64.code v := by
  have hplace : Binary64.place 0 = 0 := by decide +kernel
  have hzero : Binary64.code 0 = 0 := by decide +kernel
  rw [Binary64.lt_iff, hplace, hzero, Binary64.place]
  cases Binary64.isNegative v <;> simp [h]

/-- **A plain value is shown as a literal**, after a minus if it is below zero. -/
theorem exists_literal_of_plain (h : Plain v) :
    ∃ cs negative, Literal cs ∧ shown v = String.ofList (signed negative cs) ∧
      Numeral.code? cs = some (Binary64.code v) ∧ (negative = true ↔ v < 0) := by
  have hfinite := code_lt_of_plain h
  rw [lt_zero_iff (Nat.le_of_lt hfinite)]
  rcases Nat.eq_zero_or_pos (Binary64.code v) with hzero | hpos
  · refine ⟨['0'], false, .whole (by simp) (by simp), shown_of_zero hzero, ?_, by simp [hzero]⟩
    rw [hzero]
    decide
  · have hproper := Decimal.proper_shortest hpos (Nat.le_of_lt hfinite)
    have hlayout := (layout_eq hpos hfinite).1 h
    have hcode := Significant.code?_layout hproper (Decimal.value_significant _).symm
    rw [Decimal.code_shortest (Nat.le_of_lt hfinite), hlayout] at hcode
    have hshown := shown_of_finite hpos hfinite
    rw [hlayout] at hshown
    exact ⟨_, _, (Significant.writes_plain hproper).literal, hshown, hcode, by simp [hpos]⟩

/-- A plain value is read back, but for the sign of zero. -/
theorem eval_of_plain (h : Plain v) :
    ∃ w, eval (shown v) = .ok w ∧ (w == v) = true ∧ ((v == 0) = false → w.toBits = v.toBits) := by
  have hbound := Nat.le_of_lt (code_lt_of_plain h)
  obtain ⟨cs, negative, hliteral, hshown, hcode, hsign⟩ := exists_literal_of_plain h
  refine ⟨Binary64.ofCode negative (Binary64.code v), ?_, ?_⟩
  · rw [hshown, eval_signed_literal negative hliteral hcode hbound]
  · rw [Binary64.beq_iff, (Binary64.isNegative_code_ofCode negative hbound).2]
    rcases Nat.eq_zero_or_pos (Binary64.code v) with hzero | hpos
    · refine ⟨⟨hbound, .inr ⟨hzero, hzero⟩⟩, fun hne => ?_⟩
      simp [(Binary64.beq_zero_iff v).2 hzero] at hne
    · rw [lt_zero_iff hbound, and_iff_left hpos, ← Bool.eq_iff_iff] at hsign
      have hsame : Binary64.ofCode negative (Binary64.code v) = v := by
        rw [hsign, Binary64.ofCode_code]
      exact ⟨⟨hbound, .inl hsame⟩, fun _ => congrArg Float.toBits hsame⟩

/-- A finite value that is not plain is refused at its exponent. -/
theorem eval_of_finite (hfinite : Binary64.code v < Binary64.infinity) (h : ¬Plain v) :
    eval (shown v) = .error (.compile (.trailingToken (.name "e"))) := by
  have hne : Binary64.code v ≠ 0 := fun hzero => h ((plain_iff v).2 (.inl hzero))
  have hpos := Nat.pos_of_ne_zero hne
  have hproper := Decimal.proper_shortest hpos (Nat.le_of_lt hfinite)
  rw [shown_of_finite hpos hfinite, (layout_eq hpos hfinite).2 h, eval, Compilation.program?,
    compile_scientific hproper]

end NumberText

/-- **Results as expressions.**  A plain result may be typed in again: it is compiled as a literal,
    which a minus negates, and has the value that was shown, with the same bits unless it is zero.
    No other result has a value: a finite one is refused at its exponent, and the words for the
    others are names that stand for nothing. -/
theorem eval_shown (v : Float) :
    (NumberText.Plain v →
      (∃ w, eval (NumberText.shown v) = .ok w ∧ (w == v) = true ∧
        ((v == 0) = false → w.toBits = v.toBits)) ∧
      ∃ text : String, Literal text.toList ∧
        (v < 0 → NumberText.shown v = "-" ++ text ∧
          compile (NumberText.shown v) = ⟨[.number text, .negate], none⟩) ∧
        (¬v < 0 → NumberText.shown v = text ∧
          compile (NumberText.shown v) = ⟨[.number text], none⟩)) ∧
    (v.isFinite = true → ¬NumberText.Plain v →
      eval (NumberText.shown v) = .error (.compile (.trailingToken (.name "e")))) ∧
    (v.isInf = true →
      eval (NumberText.shown v) = .error (.runtime (.unknownConstant "Infinity"))) ∧
    (v.isNaN = true →
      eval (NumberText.shown v) = .error (.runtime (.unknownConstant "NaN"))) := by
  refine ⟨fun h => ⟨NumberText.eval_of_plain h, ?_⟩, fun hfinite h => ?_, fun h => ?_, fun h => ?_⟩
  · obtain ⟨cs, negative, hliteral, hshown, -, hsign⟩ := NumberText.exists_literal_of_plain h
    have hcompile := compile_signed_literal negative hliteral
    rw [← hshown] at hcompile
    refine ⟨String.ofList cs, by rwa [String.toList_ofList], fun hneg => ?_, fun hneg => ?_⟩
    · obtain rfl : negative = true := hsign.2 hneg
      refine ⟨?_, hcompile⟩
      rw [hshown, NumberText.signed, if_pos rfl, String.ofList_cons]
      rfl
    · obtain rfl : negative = false := by simpa using mt hsign.1 hneg
      exact ⟨hshown, hcompile⟩
  · exact NumberText.eval_of_finite ((Binary64.isFinite_iff v).1 hfinite) h
  · have hname : (Token.name "Infinity").Lexeme := ⟨by decide, by simp⟩
    have hunknown : Builtin.constant? "Infinity" = none := by
      simp [Builtin.constant?, Builtin.constants, List.lookup]
    rw [NumberText.shown_of_infinity ((Binary64.isInf_iff v).1 h)]
    exact eval_signed_name _ hname hunknown
  · have hname : (Token.name "NaN").Lexeme := ⟨by decide, by simp⟩
    have hunknown : Builtin.constant? "NaN" = none := by
      simp [Builtin.constant?, Builtin.constants, List.lookup]
    have hword := eval_signed_name false hname hunknown
    rw [NumberText.signed, if_neg Bool.false_ne_true, String.ofList_toList] at hword
    rw [NumberText.shown_of_infinity_lt ((Binary64.isNaN_iff v).1 h), hword]

end Reckoner
