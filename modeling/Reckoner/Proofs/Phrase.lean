import Reckoner.Expr.Printer
import Reckoner.Proofs.Grammar

namespace Reckoner

/-!
# Phrases

A phrase is an expression with all that is written: a tree like `Expr`, which also keeps the
parentheses and the unary pluses.  `Phrase.Proper` fixes the grouping that the grammar leaves open:

* chains of `+ -` and of `* /` group from the left, chains of `^` from the right;
* a sign never stands left of `^`, so its operand is the longest chain of powers after it;
* a name is a call exactly if a parenthesis opens after it, for nothing else joins two operands.

`Reads ts e` says that `e` is the tree of the tokens `ts`.  The grammar and the proper phrases
derive the same token lists: `Phrase.Proper.derives` and `Derives.exists_phrase`.
-/

/-- An expression as it is written. -/
inductive Phrase where
  | number (text : String)
  | name (text : String)
  | call (function : String) (argument : Phrase)
  | group (inner : Phrase)
  | sign (negative : Bool) (operand : Phrase)
  | binary (o : Operator) (left right : Phrase)
  deriving DecidableEq, Repr

namespace Phrase

/-- How tightly a phrase holds together; parentheses hold most. -/
def rank : Phrase → Nat
  | binary o _ _ => o.rank
  | sign _ _ => Operator.pow.rank
  | number _ | name _ | call _ _ | group _ => Operator.pow.rank + 1

/-- The tokens of a phrase. -/
def tokens : Phrase → List Token
  | number s => [.number s]
  | name s => [.name s]
  | call f a => .name f :: .opening :: a.tokens ++ [.closing]
  | group a => .opening :: a.tokens ++ [.closing]
  | sign b a => .sign b :: a.tokens
  | binary o a b => a.tokens ++ .operator o :: b.tokens

/-- The tree of a phrase: parentheses and unary pluses leave no node. -/
def tree : Phrase → Expr
  | number s => .number s
  | name s => .constant s
  | call f a => .call f a.tree
  | group a => a.tree
  | sign true a => .negation a.tree
  | sign false a => a.tree
  | binary o a b => .binary o a.tree b.tree

/-- The most levels that are open at once in a phrase. -/
def nesting : Phrase → Nat
  | number _ | name _ => 0
  | call _ a | group a | sign _ a => a.nesting + 1
  | binary _ a b => max a.nesting b.nesting

/-- Every operand holds together as tightly as its place asks for, as in `Expr.tokens`. -/
inductive Proper : Phrase → Prop where
  | number (s : String) : Proper (.number s)
  | name (s : String) : Proper (.name s)
  | call (f : String) {a : Phrase} (argument : Proper a) : Proper (.call f a)
  | group {a : Phrase} (inner : Proper a) : Proper (.group a)
  | sign (negative : Bool) {a : Phrase} (holds : Operator.pow.rank ≤ a.rank)
      (operand : Proper a) : Proper (.sign negative a)
  | binary (o : Operator) {a b : Phrase} (holdsLeft : Expr.leftPlace o ≤ a.rank)
      (holdsRight : Expr.rightPlace o ≤ b.rank) (left : Proper a) (right : Proper b) :
      Proper (.binary o a b)

theorem leastRank_le_rank (p : Phrase) : Operator.leastRank ≤ p.rank := by
  cases p with
  | binary o a b => exact o.leastRank_le
  | number | name | call | group | sign => simp [rank, Operator.rank, Operator.leastRank]

end Phrase

/-- **The tree of a token list.**  It is the tree of a proper phrase with these tokens. -/
def Reads (ts : List Token) (e : Expr) : Prop :=
  ∃ p : Phrase, p.Proper ∧ p.tokens = ts ∧ p.tree = e

/-! ### Phrases are derived -/

theorem Operator.rank_le_leftPlace (o : Operator) : o.rank ≤ Expr.leftPlace o := by
  cases o <;> decide

theorem Operator.rank_le_rightPlace (o : Operator) : o.rank ≤ Expr.rightPlace o := by
  cases o <;> decide

theorem Operator.rank_le_pow (o : Operator) : o.rank ≤ Operator.pow.rank := by
  cases o <;> decide

theorem Operator.rank_lt_of_ne {o : Operator} (h : o ≠ .pow) : o.rank < Operator.pow.rank := by
  cases o <;> first | decide | exact absurd rfl h

theorem Operator.leftPlace_of_ne {o : Operator} (h : o ≠ .pow) : Expr.leftPlace o = o.rank := by
  cases o <;> first | rfl | exact absurd rfl h

/-- Only powers link at their right end; the other chains ask for a tighter right operand. -/
theorem Operator.rightPlace_of_ne {o : Operator} (h : o ≠ .pow) :
    Expr.rightPlace o = o.rank + 1 := by
  cases o <;> first | rfl | exact absurd rfl h

/-- Nothing holds together more than parentheses. -/
theorem Phrase.rank_le (p : Phrase) : p.rank ≤ Operator.pow.rank + 1 := by
  cases p with
  | binary o a b => exact Nat.le_trans o.rank_le_pow (Nat.le_succ _)
  | number | name | call | group => exact Nat.le_refl _
  | sign => exact Nat.le_succ _

/-- **Proper phrases are derived**, and by every category that holds no tighter than they do. -/
theorem Phrase.Proper.derives {p : Phrase} (hp : p.Proper) {c : Category}
    (hc : c.rank ≤ p.rank) : Derives c p.tokens := by
  induction hp generalizing c with
  | number s => exact (Derives.number s).mono hc
  | name s => exact (Derives.name s).mono hc
  | call f _ ih => exact (Derives.call f (ih (Phrase.leastRank_le_rank _))).mono hc
  | group _ ih => exact (Derives.group (ih (Phrase.leastRank_le_rank _))).mono hc
  | sign negative holds _ ih =>
    -- The grammar counts a sign as an operand, which is tighter than its rank says.
    have hsign := Derives.sign negative (ih (c := .power) holds)
    refine hsign.mono ?_
    have hrank : c.rank ≤ Operator.pow.rank := hc
    show c.rank ≤ Operator.pow.rank + 1
    omega
  | @binary o a b holdsLeft holdsRight _ _ iha ihb =>
    have hchain : Derives o.chain (a.tokens ++ .operator o :: b.tokens) := by
      by_cases ho : o = .pow
      · -- Grouped from the right, a power comes before the rest of its chain.
        subst ho
        exact (iha (c := .operand) holdsLeft).prepend (ihb (c := .power) holdsRight)
      · -- Grouped from the left, the other operators come after it.
        refine .chain rfl (iha ?_) (ihb ?_)
        · have hplace := o.rank_le_leftPlace
          rw [Operator.rank_chain]
          omega
        · rw [Operator.rank_link_chain, ← Operator.rightPlace_of_ne ho]
          exact holdsRight
    exact hchain.mono (by rwa [Operator.rank_chain])

/-! ### What is derived can be phrased -/

namespace Phrase

/-- A phrase raised to a power.  The power goes to the end of the chain, under its signs. -/
def raise : Phrase → Phrase → Phrase
  | sign b a, q => sign b (a.raise q)
  | binary .pow a b, q => binary .pow a (b.raise q)
  | p, q => binary .pow p q

theorem tokens_raise (p q : Phrase) :
    (p.raise q).tokens = p.tokens ++ .operator .pow :: q.tokens := by
  fun_induction raise p q with
  | case1 b a q ih => simp [tokens, ih]
  | case2 a b q ih => simp [tokens, ih]
  | case3 p q => rfl

theorem le_rank_raise (p q : Phrase) : Operator.pow.rank ≤ (p.raise q).rank := by
  fun_cases raise p q <;> exact Nat.le_refl _

/-- A chain of powers stays proper when it is raised. -/
theorem Proper.raise {p q : Phrase} (hp : p.Proper) (hq : q.Proper)
    (hpr : Operator.pow.rank ≤ p.rank) (hqr : Operator.pow.rank ≤ q.rank) :
    (p.raise q).Proper := by
  fun_induction Phrase.raise p q with
  | case1 b a q ih =>
    cases hp with
    | sign _ holds operand =>
      exact .sign b (le_rank_raise a q) (ih operand hq holds hqr)
  | case2 a b q ih =>
    cases hp with
    | binary _ holdsLeft holdsRight left right =>
      exact .binary .pow holdsLeft (le_rank_raise b q) left (ih right hq holdsRight hqr)
  | case3 p q hsign hpow =>
    refine .binary .pow ?_ hqr hp hq
    -- A phrase of that rank that is no sign and no power holds most.
    cases p with
    | sign b a => exact absurd rfl (hsign b a)
    | binary o a b =>
      cases o with
      | pow => exact absurd rfl (hpow a b)
      | add | sub | mul | div => simp [rank, Operator.rank] at hpr
    | number | name | call | group => exact Nat.le_refl _

end Phrase

/-- **What is derived can be phrased.**  The phrase holds together as tightly as the category, up
    to a sign, which is an operand to the grammar and a chain of powers as a phrase. -/
theorem Derives.exists_phrase {c : Category} {ts : List Token} (h : Derives c ts) :
    ∃ p : Phrase, p.Proper ∧ p.tokens = ts ∧ min c.rank Operator.pow.rank ≤ p.rank := by
  induction h with
  | @single c ts _ ih =>
    obtain ⟨p, hp, rfl, hr⟩ := ih
    refine ⟨p, hp, rfl, Nat.le_trans ?_ hr⟩
    cases c <;> decide
  | @chain c o ts us joins _ _ ihl ihr =>
    obtain ⟨p, hp, rfl, hpr⟩ := ihl
    obtain ⟨q, hq, rfl, hqr⟩ := ihr
    subst joins
    rw [Operator.rank_chain] at hpr
    rw [Operator.rank_link_chain] at hqr
    by_cases ho : o = .pow
    · -- The phrase of the links before may end in a sign, which takes the new link as well.
      subst ho
      exact ⟨p.raise q, hp.raise hq hpr hqr, Phrase.tokens_raise p q, Phrase.le_rank_raise p q⟩
    · have hlow := Operator.rank_lt_of_ne ho
      refine ⟨.binary o p q, .binary o ?_ ?_ hp hq, rfl, ?_⟩
      · rw [Operator.leftPlace_of_ne ho]; omega
      · rw [Operator.rightPlace_of_ne ho]; omega
      · rw [Operator.rank_chain]; exact Nat.min_le_left _ _
  | number s => exact ⟨.number s, .number s, rfl, Nat.min_le_left _ _⟩
  | name s => exact ⟨.name s, .name s, rfl, Nat.min_le_left _ _⟩
  | call f _ ih =>
    obtain ⟨p, hp, rfl, -⟩ := ih
    exact ⟨.call f p, .call f hp, rfl, Nat.min_le_left _ _⟩
  | group _ ih =>
    obtain ⟨p, hp, rfl, -⟩ := ih
    exact ⟨.group p, .group hp, rfl, Nat.min_le_left _ _⟩
  | sign negative _ ih =>
    obtain ⟨p, hp, rfl, hr⟩ := ih
    exact ⟨.sign negative p, .sign negative hr hp, rfl, Nat.min_le_right _ _⟩

end Reckoner
