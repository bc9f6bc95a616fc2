import Reckoner.Execution

namespace Reckoner

/-!
# Expression trees

What an expression means, apart from how it is read and run. A tree has a node for each operand,
call, negation and operator; parentheses and unary pluses leave none.

* `Expr.program` is its postorder listing;
* `Expr.value` is its value by recursion: left operand, right operand, then the operator; and an
  argument before its function is looked up.
-/

/-- An expression as a tree. -/
inductive Expr where
  | number (text : String)
  | constant (name : String)
  | call (function : String) (argument : Expr)
  | negation (operand : Expr)
  | binary (o : Operator) (left right : Expr)
  deriving DecidableEq, Repr

namespace Expr

/-- The postorder listing: operands first, the left one before the right one. -/
def program : Expr → Program
  | number s => [.number s]
  | constant s => [.constant s]
  | call f a => a.program ++ [.call f]
  | negation a => a.program ++ [.negate]
  | binary o a b => a.program ++ b.program ++ [.binary o]

/-- The value, or the first error met. -/
def value : Expr → Except RuntimeError Float
  | number s =>
    match Numeral.value? s with
    | some v => .ok v
    | none => .error (.invalidNumber s)
  | constant s =>
    match Builtin.constant? s with
    | some v => .ok v
    | none => .error (.unknownConstant s)
  | call f a =>
    match a.value, Builtin.function? f with
    | .ok v, some g => .ok (g v)
    | .ok _, none => .error (.unknownFunction f)
    | .error e, _ => .error e
  | negation a =>
    match a.value with
    | .ok v => .ok (-v)
    | .error e => .error e
  | binary o a b =>
    match a.value, b.value with
    | .ok v, .ok w => .ok (o.apply v w)
    | .ok _, .error e => .error e
    | .error e, _ => .error e

/-- Every tree has a node that is listed last. -/
theorem program_ne_nil (e : Expr) : e.program ≠ [] := by
  cases e <;> simp [program]

end Expr

end Reckoner
