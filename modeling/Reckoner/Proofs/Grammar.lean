import Reckoner.Token

namespace Reckoner

/-!
# The grammar of expressions

The grammar of `Draft`, as a plain context-free grammar over tokens: `Derives c ts` holds if some
derivation of the category `c` yields `ts`.  A starred chain such as `Product (('+' | '-')
Product)*` is a first link and any number of further ones, each after an operator of the chain
(`Derives.single`, `Derives.chain`).  The derivation says nothing about grouping, and it is not
unique: in `-2^2` the sign may take `2` or `2^2`.  Which tree is meant is the matter of `Phrase`.

* `Derives.mono` — what a tighter category derives, a looser one derives too;
* `Derives.prepend` — a chain of powers also grows at its front.
-/

/-- What the grammar derives, the loosest category first. -/
inductive Category where
  | sum
  | product
  | power
  | operand
  deriving DecidableEq, Repr

namespace Category

/-- What the chains of a category link together.  An operand is no chain. -/
def link : Category → Category
  | sum => product
  | product => power
  | power => operand
  | operand => operand

/-- How tightly a category holds together: as the operators of its chains, and an operand most. -/
def rank : Category → Nat
  | sum => 1
  | product => 2
  | power => 3
  | operand => 4

theorem rank_le_rank_link (c : Category) : c.rank ≤ c.link.rank := by
  cases c <;> decide

end Category

/-- The category whose chains an operator links. -/
def Operator.chain : Operator → Category
  | add | sub => .sum
  | mul | div => .product
  | pow => .power

@[simp] theorem Operator.rank_chain (o : Operator) : o.chain.rank = o.rank := by
  cases o <;> rfl

@[simp] theorem Operator.rank_link_chain (o : Operator) : o.chain.link.rank = o.rank + 1 := by
  cases o <;> rfl

/-- The token of a sign. -/
def Token.sign (negative : Bool) : Token := .operator (if negative then .sub else .add)

/-- The token lists that a category derives, by any derivation:

        Sum     := Product (('+' | '-') Product)*
        Product := Power (('*' | '/') Power)*
        Power   := Operand ('^' Operand)*
        Operand := NUMBER | NAME | NAME '(' Sum ')' | '(' Sum ')' | ('+' | '-') Power -/
inductive Derives : Category → List Token → Prop where
  | single {c : Category} {ts : List Token} (link : Derives c.link ts) : Derives c ts
  | chain {c : Category} {o : Operator} {ts us : List Token} (joins : o.chain = c)
      (links : Derives c ts) (link : Derives c.link us) : Derives c (ts ++ .operator o :: us)
  | number (s : String) : Derives .operand [.number s]
  | name (s : String) : Derives .operand [.name s]
  | call (f : String) {ts : List Token} (argument : Derives .sum ts) :
      Derives .operand (.name f :: .opening :: ts ++ [.closing])
  | group {ts : List Token} (inner : Derives .sum ts) :
      Derives .operand (.opening :: ts ++ [.closing])
  | sign (negative : Bool) {ts : List Token} (operand : Derives .power ts) :
      Derives .operand (.sign negative :: ts)

namespace Derives

/-- What a tighter category derives, a looser one derives as a chain of one link. -/
theorem mono {c d : Category} {ts : List Token} (hd : Derives d ts) (h : c.rank ≤ d.rank) :
    Derives c ts := by
  by_cases hc : c = d
  · subst hc
    exact hd
  · -- One category looser at a time, so the link of `c` is still no tighter than `d`.
    have hlink : c.link.rank ≤ d.rank ∧ c.rank < c.link.rank := by
      revert h hc; cases c <;> cases d <;> decide
    exact single (mono hd hlink.1)
termination_by d.rank - c.rank

/-- **Chains grow at both ends.**  The rules add powers at the end of a chain; an operand before
    it makes a chain as well. -/
theorem prepend {ts us : List Token} (h : Derives .operand ts) (hc : Derives .power us) :
    Derives .power (ts ++ .operator .pow :: us) := by
  generalize hp : Category.power = c at hc
  induction hc with
  | single hlink =>
    -- The chain was one operand, which now comes second.
    subst hp
    exact chain rfl (single h) hlink
  | chain joins _ hlink ih =>
    -- The new operand goes in front of the other links; the last link stays.
    subst hp
    rw [← List.cons_append, ← List.append_assoc]
    exact chain joins (ih rfl) hlink
  | number | name | call | group | sign => exact absurd hp (by decide)

end Derives

end Reckoner
