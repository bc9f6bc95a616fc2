import Mathlib.Data.Finset.Lattice.Fold
import Reckoner.Proofs.Context
import Reckoner.Proofs.Postorder
import Reckoner.Proofs.Rendering

namespace Reckoner

/-!
# Substitution

In an accepted source a number may be replaced by any accepted source in parentheses.  Nothing that
is read inside the parentheses depends on what is around them, and nothing around them on what is
inside, except for the levels: the program is that of the outer source, with the program of the
inner one in place of the number (`compile_spliced`).

* `Occurs` — where a token stands in a source;
* `Occurs.tokens_spliced` — the tokens of the source with a replaced token;
* `Phrase.literals_program` — the numbers of a program are those of the tokens, in the same order,
  so it is known which instruction a number token has become.
-/

/-- **A token of a source with all that is around it**: the characters before and after the token,
    cut into the tokens before and after it. -/
structure Occurs (source : String) (before : List Char) (past : List Token) (t : Token)
    (after : List Char) (future : List Token) : Prop where
  text : source.toList = before ++ (t.text.toList ++ after)
  past : Segmented before past (t.text.toList ++ after)
  lexeme : t.Lexeme
  ends : t.EndsBefore after
  future : Segmented after future []

/-- A source in parentheses, between two texts. -/
def spliced (before : List Char) (source : String) (after : List Char) : String :=
  String.ofList (before ++ '(' :: (source.toList ++ ')' :: after))

/-- The text of a number token. -/
def Token.literal? : Token → Option String
  | number s => some s
  | operator _ | opening | closing | name _ => none

/-- The text of the number that an instruction pushes. -/
def Instruction.literal? : Instruction → Option String
  | number s => some s
  | constant _ | call _ | negate | binary _ => none

/-- The numbers among tokens, in order. -/
def Token.literals (ts : List Token) : List String := ts.filterMap Token.literal?

/-- The numbers among instructions, in order. -/
def Program.literals (p : Program) : List String := p.filterMap Instruction.literal?

/-- The most levels that are open at any point of the tokens. -/
noncomputable def deepest (ts : List Token) : Nat :=
  (Finset.range (ts.length + 1)).sup fun n => openLevels [] (ts.take n) (ts.drop n)

/-! ### Where tokens stand -/

/-- **Parentheses keep what is inside apart** from what is before and after it. -/
theorem Segmented.tokens_spliced {before after rest rest' : List Char}
    {past inside future : List Token} {inner : String} (hpast : Segmented before past rest)
    (hinside : Segmented inner.toList inside rest') (hfuture : Segmented after future []) :
    sourceTokens (spliced before inner after)
        = past ++ .opening :: (inside ++ .closing :: future) ∧
      sourceFault? (spliced before inner after) = none := by
  obtain ⟨hclosing, hbehind⟩ := hfuture.cons_symbol (c := ')') (t := .closing) rfl
  have hbody := (hinside.follow hbehind).append hclosing
  obtain ⟨hopening, hbehind⟩ := hbody.cons_symbol (c := '(') (t := .opening) rfl
  have hcut := (hpast.follow hbehind).append hopening
  refine sourceTokens_of_segmented ?_
  rw [spliced, String.toList_ofList]
  exact hcut

namespace Occurs

variable {source : String} {before after : List Char} {past future : List Token} {t : Token}

/-- The tokens around a token are those of the source. -/
theorem sourceTokens_eq (h : Occurs source before past t after future) :
    sourceTokens source = past ++ t :: future := by
  have htoken := h.future.cons h.lexeme (by rw [List.append_nil]; exact h.ends)
  have hpast : Segmented before past (t.text.toList ++ after ++ []) := by
    rw [List.append_nil]
    exact h.past
  have hcut := hpast.append htoken
  rw [← h.text] at hcut
  exact (sourceTokens_of_segmented hcut).1

/-- Every token of a source without a fault stands somewhere. -/
theorem exists_of_sourceTokens (hfault : sourceFault? source = none)
    (h : sourceTokens source = past ++ t :: future) :
    ∃ before after, Occurs source before past t after future := by
  have hcut := segmented_of_faultless hfault
  rw [h] at hcut
  obtain ⟨before, after, htext, hpast, hlexeme, hends, hfuture⟩ := hcut.exists_of_append_cons
  rw [List.append_nil] at hpast hends
  exact ⟨before, after, htext, hpast, hlexeme, hends, hfuture⟩

/-- **The tokens with a replaced token**: parentheses keep what is inside apart from what is
    around. -/
theorem tokens_spliced (h : Occurs source before past t after future) {inner : String}
    (hinner : sourceFault? inner = none) :
    sourceTokens (spliced before inner after)
        = past ++ .opening :: (sourceTokens inner ++ .closing :: future) ∧
      sourceFault? (spliced before inner after) = none :=
  h.past.tokens_spliced (segmented_of_faultless hinner) h.future

end Occurs

/-! ### Numbers keep their order -/

@[simp] theorem Token.literals_nil : Token.literals [] = [] := rfl

@[simp] theorem Token.literals_cons (t : Token) (ts : List Token) :
    Token.literals (t :: ts) = t.literal?.toList ++ Token.literals ts := by
  cases h : t.literal? <;> simp [Token.literals, h]

@[simp] theorem Token.literals_append (ts us : List Token) :
    Token.literals (ts ++ us) = Token.literals ts ++ Token.literals us := by
  simp [Token.literals]

@[simp] theorem Program.literals_nil : Program.literals [] = [] := rfl

@[simp] theorem Program.literals_cons (i : Instruction) (p : Program) :
    Program.literals (i :: p) = i.literal?.toList ++ Program.literals p := by
  cases h : i.literal? <;> simp [Program.literals, h]

@[simp] theorem Program.literals_append (p q : Program) :
    Program.literals (p ++ q) = Program.literals p ++ Program.literals q := by
  simp [Program.literals]

/-- **The numbers of a phrase become the numbers of its listing**, in the same order. -/
theorem Phrase.literals_program (p : Phrase) :
    Program.literals p.tree.program = Token.literals p.tokens := by
  induction p with
  | number s => rfl
  | name s => rfl
  | call f a ih =>
    simp [tokens, tree, Expr.program, Token.literal?, Instruction.literal?, ih]
  | group a ih => simp [tokens, tree, Token.literal?, ih]
  | sign negative a ih =>
    cases negative <;>
      simp [tokens, tree, Expr.program, Token.sign, Token.literal?, Instruction.literal?, ih]
  | binary o a b iha ihb =>
    simp [tokens, tree, Expr.program, Token.literal?, Instruction.literal?, iha, ihb]

/-- The numbers before a hole are those of the instructions before it. -/
theorem Context.literals_codeBefore (c : Context) :
    Program.literals c.codeBefore = Token.literals c.before := by
  induction c with
  | hole => rfl
  | call f c ih => simp [codeBefore, before, Token.literal?, ih]
  | group c ih => simp [codeBefore, before, Token.literal?, ih]
  | sign negative c ih => simp [codeBefore, before, Token.sign, Token.literal?, ih]
  | left o c b ih => exact ih
  | right o a c ih => simp [codeBefore, before, Token.literal?, a.literals_program, ih]

/-! ### The levels of a phrase -/

/-- The nesting of a phrase is the most levels that its tokens have open. -/
theorem deepest_tokens {p : Phrase} (hp : p.Proper) : deepest p.tokens = p.nesting := by
  have hle (bound : Nat) : deepest p.tokens ≤ bound ↔ p.nesting ≤ bound := by
    rw [← openLevels_le_iff hp, deepest, Finset.sup_le_iff]
    constructor
    · intro h read rest hcut
      have hpoint := h read.length (by simp [hcut])
      simpa [hcut] using hpoint
    · intro h n _
      exact h _ _ (List.take_append_drop n p.tokens).symm
  exact Nat.le_antisymm ((hle _).2 (Nat.le_refl _)) ((hle _).1 (Nat.le_refl _))

theorem deepest_le_length (ts : List Token) : deepest ts ≤ ts.length := by
  refine Finset.sup_le fun n _ => ?_
  exact (openLevels_le_length [] (ts.take n) (ts.drop n)).trans (List.length_take_le' n ts)

variable {outer inner : String}

/-- **Substitution.**  Take an accepted source and an accepted source to put in.  The numbers of the
    outer program are the number tokens, in the same order, and each of these tokens stands
    somewhere in the source.  If one of them is replaced by the inner source in parentheses, the
    levels around it, one for the parentheses and the levels of the inner source have to fit
    together.  If they do, the program is the outer one with the inner program in place of the
    instruction that has as many numbers before it as the token; otherwise the source is too
    deep. -/
theorem compile_spliced (houter : (compile outer).rejection? = none)
    (hinner : (compile inner).rejection? = none) :
    Program.literals (compile outer).emitted = Token.literals (sourceTokens outer) ∧
    (∀ past text future, sourceTokens outer = past ++ .number text :: future →
      ∃ before after, Occurs outer before past (.number text) after future) ∧
    ∀ before past text after future, Occurs outer before past (.number text) after future →
      ∃ codeBefore codeAfter,
        (compile outer).emitted = codeBefore ++ .number text :: codeAfter ∧
        Program.literals codeBefore = Token.literals past ∧
        (openLevels [] past (.number text :: future) + 1 + deepest (sourceTokens inner)
            ≤ maxNesting →
          compile (spliced before inner after)
            = ⟨codeBefore ++ ((compile inner).emitted ++ codeAfter), none⟩) ∧
        (maxNesting
            < openLevels [] past (.number text :: future) + 1 + deepest (sourceTokens inner) →
          (compile (spliced before inner after)).rejection? = some .tooDeep) := by
  obtain ⟨hfault, p, hp, htokens, hn⟩ := exists_phrase_of_accepted houter
  obtain ⟨hinnerFault, q, hq, hqtokens, -⟩ := exists_phrase_of_accepted hinner
  have hemitted : (compile outer).emitted = p.tree.program :=
    emitted_eq_program houter ⟨p, hp, htokens, rfl⟩
  have hinnerEmitted : (compile inner).emitted = q.tree.program :=
    emitted_eq_program hinner ⟨q, hq, hqtokens, rfl⟩
  refine ⟨by rw [hemitted, p.literals_program, htokens],
    fun past text future => Occurs.exists_of_sourceTokens hfault, ?_⟩
  intro before past text after future h
  obtain ⟨c, rfl, rfl, rfl⟩ := Phrase.exists_context (htokens.trans h.sourceTokens_eq)
  -- The number makes way for a group, which holds together as tightly.
  have hr : (c.fill (.group q)).Proper := Context.proper_fill hp (.group hq) (Nat.le_refl _)
  have hlevels : openLevels [] c.before (.number text :: c.after) = c.levels := by
    have hbefore : openLevels [] c.before (.number text :: (c.after ++ [])) = c.levels :=
      Context.openLevels_before hp rfl []
    rwa [List.append_nil] at hbefore
  have hnesting : (c.fill (.group q)).nesting
      = max (c.fill (.number text)).nesting (c.levels + (q.nesting + 1)) := c.nesting_fill rfl _
  obtain ⟨hspliced, hsplicedFault⟩ := h.tokens_spliced hinnerFault
  have hrtokens : (c.fill (.group q)).tokens = sourceTokens (spliced before inner after) := by
    rw [hspliced, c.tokens_fill, ← hqtokens]
    simp [Phrase.tokens]
  rw [hlevels, ← hqtokens, deepest_tokens hq]
  refine ⟨c.codeBefore, c.codeAfter, ?_, c.literals_codeBefore, fun hfits => ?_, fun hdeep => ?_⟩
  · rw [hemitted, c.program_fill]
    rfl
  · rw [compile_of_phrase hsplicedFault hr hrtokens (by omega), c.program_fill, hinnerEmitted]
    rfl
  · exact rejection_of_phrase_tooDeep hr hrtokens (by omega)

theorem compile_spliced_under_sign :
    (compile "2^-3").rejection? = none ∧ (compile "4+5").rejection? = none ∧
      compile (spliced "2^-".toList "4+5" []) = ⟨[.number "2", .number "4", .number "5",
        .binary .add, .negate, .binary .pow], none⟩ := by
  have houter : (compile "2^-3").rejection? = none := by cbv
  have hinner : (compile "4+5").rejection? = none := by cbv
  have hcode : (compile "2^-3").emitted
      = [.number "2", .number "3", .negate, .binary .pow] := by cbv
  have hinnerCode : (compile "4+5").emitted = [.number "4", .number "5", .binary .add] := by cbv
  have hinnerTokens : (sourceTokens "4+5").length = 3 := by cbv
  have hliteral (c : Char) (hc : c.isDigit = true) : Literal [c] := .whole (by simp) (by simpa)
  have hoccurs : Occurs "2^-3" "2^-".toList [.number "2", .operator .pow, .operator .sub]
      (.number "3") [] [] := by
    have hend : Segmented [] [] "3".toList := .gap (by simp)
    have hsign := hend.cons_symbol (c := '-') (t := .operator .sub) rfl
    have hpow := hsign.1.cons_symbol (c := '^') (t := .operator .pow) rfl
    exact {
      text := rfl
      past := hpow.1.cons (t := .number "2") (hliteral '2' rfl) (hpow.2.endsBefore _)
      lexeme := hliteral '3' rfl
      ends := by simp [Token.EndsBefore]
      future := .gap (by simp) }
  obtain ⟨-, -, hspliced⟩ := compile_spliced houter hinner
  obtain ⟨codeBefore, codeAfter, hcut, hliterals, hfits, -⟩ := hspliced _ _ _ _ _ hoccurs
  have hlevels := openLevels_le_length [] [.number "2", .operator .pow, .operator .sub]
    [.number "3"]
  have hdeepest := deepest_le_length (sourceTokens "4+5")
  -- One number comes before the token, so it has become the second instruction.
  obtain ⟨rfl, rfl⟩ : codeBefore = [.number "2"] ∧ codeAfter = [.negate, .binary .pow] := by
    rw [hcode] at hcut
    rcases codeBefore with _ | ⟨i, _ | ⟨j, more⟩⟩
    · simp [Token.literal?] at hliterals
    · simpa [eq_comm] using hcut
    · -- Behind the second instruction there are no more numbers.
      have hmem : Instruction.number "3" ∈ [Instruction.negate, .binary .pow] := by
        obtain ⟨-, hrest⟩ := List.cons.inj hcut
        obtain ⟨-, hrest⟩ := List.cons.inj hrest
        rw [hrest]
        simp
      simp at hmem
  refine ⟨houter, hinner, ?_⟩
  rw [hfits (by simp [maxNesting] at hlevels ⊢; omega), hinnerCode]
  rfl

end Reckoner
