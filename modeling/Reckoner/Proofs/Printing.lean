import Reckoner.Proofs.Decoding
import Reckoner.Proofs.Rendering

namespace Reckoner

/-!
# Compiling undoes printing

`Expr.print` writes a tree with parentheses only where its meaning needs them.  What it writes is a
proper phrase with this tree (`Expr.phrase`), and so it compiles to the postorder listing of the
tree (`compile_print_of_shallow`), or goes too deep (`rejection_print_of_not_shallow`).  Since every
program that leaves one value is the listing of a tree, every such program is compiled from some
source if its tree prints with levels that fit (`compile_print`).
-/

/-- An instruction whose number or name is a word of the language. -/
def Instruction.Lexable : Instruction → Prop
  | number s => (Token.number s).Lexeme
  | constant s | call s => (Token.name s).Lexeme
  | negate | binary _ => True

/-- At no point of the tokens more levels are open than are allowed. -/
def Shallow (ts : List Token) : Prop :=
  ∀ read rest, ts = read ++ rest → openLevels [] read rest ≤ maxNesting

/-! ### The phrase that is printed -/

/-- A phrase in parentheses if they are needed. -/
def Phrase.enclosed (needed : Bool) (p : Phrase) : Phrase := if needed then .group p else p

namespace Phrase

variable {p : Phrase}

@[simp] theorem tokens_enclosed (needed : Bool) (p : Phrase) :
    (p.enclosed needed).tokens = Expr.enclosed needed p.tokens := by
  cases needed <;> rfl

@[simp] theorem tree_enclosed (needed : Bool) (p : Phrase) : (p.enclosed needed).tree = p.tree := by
  cases needed <;> rfl

theorem Proper.enclosed (h : p.Proper) (needed : Bool) : (p.enclosed needed).Proper := by
  cases needed with
  | true => exact .group h
  | false => exact h

/-- In parentheses if it needs them, a phrase fits any place. -/
theorem le_rank_enclosed {place : Nat} (hplace : place ≤ Operator.pow.rank + 1) (p : Phrase) :
    place ≤ (p.enclosed (p.rank < place)).rank := by
  unfold Phrase.enclosed
  by_cases h : p.rank < place
  · rw [if_pos (decide_eq_true h)]
    exact hplace
  · rw [if_neg (by simpa using h)]
    exact Nat.le_of_not_lt h

end Phrase

/-- No place asks for more than parentheses give. -/
theorem Operator.leftPlace_le (o : Operator) : Expr.leftPlace o ≤ Operator.pow.rank + 1 := by
  cases o <;> decide

theorem Operator.rightPlace_le (o : Operator) : Expr.rightPlace o ≤ Operator.pow.rank + 1 := by
  cases o <;> decide

namespace Expr

/-- The phrase that prints a tree. -/
def phrase : Expr → Phrase
  | number s => .number s
  | constant s => .name s
  | call f a => .call f a.phrase
  | negation a => .sign true (a.phrase.enclosed (a.rank < Operator.pow.rank))
  | binary o a b =>
    .binary o (a.phrase.enclosed (a.rank < leftPlace o)) (b.phrase.enclosed (b.rank < rightPlace o))

@[simp] theorem tokens_phrase (e : Expr) : e.phrase.tokens = e.tokens := by
  induction e with
  | number | constant => rfl
  | call f a ih => simp [phrase, Phrase.tokens, tokens, ih]
  | negation a ih => simp [phrase, Phrase.tokens, Token.sign, tokens, ih]
  | binary o a b iha ihb => simp [phrase, Phrase.tokens, tokens, iha, ihb]

@[simp] theorem tree_phrase (e : Expr) : e.phrase.tree = e := by
  induction e with
  | number | constant => rfl
  | call f a ih => simp [phrase, Phrase.tree, ih]
  | negation a ih => simp [phrase, Phrase.tree, ih]
  | binary o a b iha ihb => simp [phrase, Phrase.tree, iha, ihb]

@[simp] theorem rank_phrase (e : Expr) : e.phrase.rank = e.rank := by
  cases e <;> rfl

/-- **What is printed is proper**: every operand is in parentheses if its place asks for it. -/
theorem proper_phrase (e : Expr) : e.phrase.Proper := by
  induction e with
  | number s => exact .number s
  | constant s => exact .name s
  | call f a ih => exact .call f ih
  | negation a ih =>
    have hplace := a.phrase.le_rank_enclosed (Nat.le_succ Operator.pow.rank)
    rw [rank_phrase] at hplace
    exact .sign true hplace (ih.enclosed _)
  | binary o a b iha ihb =>
    have hleft := Phrase.le_rank_enclosed o.leftPlace_le a.phrase
    have hright := Phrase.le_rank_enclosed o.rightPlace_le b.phrase
    rw [rank_phrase] at hleft hright
    exact .binary o hleft hright (iha.enclosed _) (ihb.enclosed _)

end Expr

/-! ### What is printed is read back -/

namespace Expr

/-- Parentheses are words. -/
theorem lexeme_of_mem_enclosed {needed : Bool} {ts : List Token} (h : ∀ t ∈ ts, t.Lexeme) :
    ∀ t ∈ enclosed needed ts, t.Lexeme := by
  intro t ht
  cases needed with
  | false => exact h t ht
  | true =>
    have hcases : t = .opening ∨ t ∈ ts ∨ t = .closing := by simpa [enclosed] using ht
    rcases hcases with rfl | ht | rfl
    · exact Token.lexeme_opening
    · exact h t ht
    · exact Token.lexeme_closing

/-- A tree over words is printed in words. -/
theorem lexeme_of_mem_tokens {e : Expr} (h : ∀ i ∈ e.program, i.Lexable) :
    ∀ t ∈ e.tokens, t.Lexeme := by
  induction e with
  | number s =>
    have hs : (Token.number s).Lexeme := h (.number s) List.mem_cons_self
    simpa [tokens] using hs
  | constant s =>
    have hs : (Token.name s).Lexeme := h (.constant s) List.mem_cons_self
    simpa [tokens] using hs
  | call f a ih =>
    have ha := ih fun i hi => h i (by simp [program, hi])
    have hf : (Token.name f).Lexeme := h (.call f) (by simp [program])
    intro t ht
    have hcases : t = .name f ∨ t = .opening ∨ t ∈ a.tokens ∨ t = .closing := by
      simpa [tokens] using ht
    rcases hcases with rfl | rfl | ht | rfl
    · exact hf
    · exact Token.lexeme_opening
    · exact ha t ht
    · exact Token.lexeme_closing
  | negation a ih =>
    have ha := ih fun i hi => h i (by simp [program, hi])
    intro t ht
    rcases List.mem_cons.1 ht with rfl | ht
    · exact Token.lexeme_operator .sub
    · exact lexeme_of_mem_enclosed ha t ht
  | binary o a b iha ihb =>
    have ha := iha fun i hi => h i (by simp [program, hi])
    have hb := ihb fun i hi => h i (by simp [program, hi])
    intro t ht
    rcases List.mem_append.1 ht with ht | ht
    · exact lexeme_of_mem_enclosed ha t ht
    · rcases List.mem_cons.1 ht with rfl | ht
      · exact Token.lexeme_operator o
      · exact lexeme_of_mem_enclosed hb t ht

theorem toList_print (e : Expr) : e.print.toList = Token.writing e.tokens := by
  rw [print, String.toList_join, List.flatMap_map]
  rfl

/-- **The tokens of what is printed** are the tokens of the tree, without a blank between them. -/
theorem sourceTokens_print {e : Expr} (h : ∀ i ∈ e.program, i.Lexable) :
    sourceTokens e.print = e.tokens ∧ sourceFault? e.print = none := by
  have hwords : ∀ t ∈ e.phrase.tokens, t.Lexeme := by
    rw [tokens_phrase]
    exact lexeme_of_mem_tokens h
  have hend : Segmented [] [] [] := .gap (by simp)
  have hcut := Phrase.segmented hwords hend (by simp [Separates])
  simp only [tokens_phrase, List.append_nil] at hcut
  exact sourceTokens_of_segmented (by rwa [toList_print])

/-- How deep the printed tokens go is the nesting of the phrase. -/
theorem shallow_tokens (e : Expr) : Shallow e.tokens ↔ e.phrase.nesting ≤ maxNesting := by
  have hlevels := openLevels_le_iff e.proper_phrase maxNesting
  rwa [tokens_phrase] at hlevels

end Expr

/-- **A tree is compiled back** from what it prints, if its levels fit. -/
theorem compile_print_of_shallow {e : Expr} (h : ∀ i ∈ e.program, i.Lexable)
    (hs : Shallow e.tokens) : compile e.print = ⟨e.program, none⟩ := by
  obtain ⟨htokens, hfault⟩ := Expr.sourceTokens_print h
  have hread := compile_of_phrase hfault e.proper_phrase (e.tokens_phrase.trans htokens.symm)
    (e.shallow_tokens.1 hs)
  rwa [Expr.tree_phrase] at hread

/-- What is printed is refused if its levels do not fit. -/
theorem rejection_print_of_not_shallow {e : Expr} (h : ∀ i ∈ e.program, i.Lexable)
    (hs : ¬ Shallow e.tokens) : (compile e.print).rejection? = some .tooDeep := by
  obtain ⟨htokens, -⟩ := Expr.sourceTokens_print h
  rw [Expr.shallow_tokens, Nat.not_le] at hs
  exact rejection_of_phrase_tooDeep e.proper_phrase (e.tokens_phrase.trans htokens.symm) hs

/-- **Compiling undoes printing.**  Every tree over words is compiled back from what it prints, or
    refused as too deep, according to the levels that its tokens open at once.  Hence a program over
    words that finds its operands and leaves one value is the listing of a tree, and compiled from
    some source if the tree prints with levels that fit. -/
theorem compile_print :
    (∀ e : Expr, (∀ i ∈ e.program, i.Lexable) →
      (Shallow e.tokens → compile e.print = ⟨e.program, none⟩) ∧
      (¬ Shallow e.tokens → (compile e.print).rejection? = some .tooDeep)) ∧
    ∀ p : Program, p.depth? 0 = some 1 → (∀ i ∈ p, i.Lexable) →
      ∃ e : Expr, e.program = p ∧
        (Shallow e.tokens → ∃ source, compile source = ⟨p, none⟩) := by
  constructor
  · intro e h
    exact ⟨compile_print_of_shallow h, rejection_print_of_not_shallow h⟩
  · intro p hdepth h
    obtain ⟨e, rfl⟩ := Program.exists_tree hdepth
    exact ⟨e, rfl, fun hs => ⟨e.print, compile_print_of_shallow h hs⟩⟩

end Reckoner
