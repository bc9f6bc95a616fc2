import Reckoner.Expr
import Reckoner.Token

namespace Reckoner

/-!
# Writing expression trees

`Expr.tokens` writes a tree with parentheses only where its meaning needs them: around an operand
that binds less tightly than its place asks for. A sum may stand left of `+` but not right of it,
a product likewise with `*`; a power or a negation may stand right of `^` and after a sign, but
not left of `^`.
-/

namespace Expr

/-- How tightly a tree holds together; what is no operation holds most. -/
def rank : Expr → Nat
  | binary o _ _ => o.rank
  | negation _ => Operator.pow.rank
  | number _ | constant _ | call _ _ => Operator.pow.rank + 1

/-- The least rank that the left operand of an operator needs to stand without parentheses. -/
def leftPlace : Operator → Nat
  | .pow => Operator.pow.rank + 1
  | o => o.rank

/-- The least rank that the right operand of an operator needs to stand without parentheses. -/
def rightPlace : Operator → Nat
  | .pow => Operator.pow.rank
  | o => o.rank + 1

/-- Tokens in parentheses if they are needed. -/
def enclosed (needed : Bool) (ts : List Token) : List Token :=
  if needed then .opening :: ts ++ [.closing] else ts

/-- The tokens of a tree. -/
def tokens : Expr → List Token
  | number s => [.number s]
  | constant s => [.name s]
  | call f a => .name f :: .opening :: a.tokens ++ [.closing]
  | negation a => .operator .sub :: enclosed (a.rank < Operator.pow.rank) a.tokens
  | binary o a b =>
    enclosed (a.rank < leftPlace o) a.tokens
      ++ .operator o :: enclosed (b.rank < rightPlace o) b.tokens

/-- The text of a tree. Neighbouring tokens need no blanks: no two of them are numbers or names. -/
def print (e : Expr) : String :=
  String.join (e.tokens.map Token.text)

example : print (.binary .pow (.negation (.number "2")) (.negation (.number "3"))) = "(-2)^-3" := by
  decide
example : print (.binary .sub (.number "1") (.binary .sub (.constant "e") (.call "sin" (.number "2"))))
    = "1-(e-sin(2))" := by decide

end Expr

end Reckoner
