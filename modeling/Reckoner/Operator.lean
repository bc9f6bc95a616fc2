namespace Reckoner

/-!
# Binary operators

The five operators that join two operands.

* `Operator.symbol` and `Operator.ofChar?` are inverse to each other;
* `Operator.rank` says how tightly an operator binds;
* `Operator.apply` computes it on doubles.
-/

/-- An operator between two operands. -/
inductive Operator where
  | add
  | sub
  | mul
  | div
  | pow
  deriving DecidableEq, Repr

namespace Operator

/-- The character that writes the operator. -/
def symbol : Operator → Char
  | add => '+'
  | sub => '-'
  | mul => '*'
  | div => '/'
  | pow => '^'

/-- The operator that a character writes, if it writes one. -/
def ofChar? : Char → Option Operator
  | '+' => some add
  | '-' => some sub
  | '*' => some mul
  | '/' => some div
  | '^' => some pow
  | _ => none

/-- How tightly the operator binds: sums least, powers most. -/
def rank : Operator → Nat
  | add | sub => 1
  | mul | div => 2
  | pow => 3

/-- The rank of the operators that bind least. -/
def leastRank : Nat := 1

/-- The operator on doubles, the left operand first. -/
def apply : Operator → Float → Float → Float
  | add, a, b => a + b
  | sub, a, b => a - b
  | mul, a, b => a * b
  | div, a, b => a / b
  | pow, a, b => Float.pow a b

theorem leastRank_le (o : Operator) : leastRank ≤ o.rank := by
  cases o <;> decide

@[simp] theorem ofChar?_symbol (o : Operator) : ofChar? o.symbol = some o := by
  cases o <;> rfl

theorem symbol_of_ofChar? {c : Char} {o : Operator} (h : ofChar? c = some o) :
    o.symbol = c := by
  unfold ofChar? at h
  split at h <;> simp_all [symbol] <;> subst h <;> rfl

end Operator

end Reckoner
