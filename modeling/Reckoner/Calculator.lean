import Reckoner.Compilation
import Reckoner.Decimal.Layout
import Reckoner.Execution

namespace Reckoner

/-!
# Evaluating expressions

An expression is compiled and, if it is accepted, executed. `eval` gives the value or the first
error; `evaluate` also keeps the program and shows every error alike.
-/

/-- Why an expression has no value. -/
inductive EvalError where
  | compile (e : CompileError)
  | runtime (e : RuntimeError)
  deriving DecidableEq, Repr

/-- The stage at which an expression fails. -/
inductive Stage where
  /-- Its text does not split into tokens. -/
  | lexical
  /-- Its tokens are no expression. -/
  | grammatical
  /-- Its program has no result. -/
  | execution
  deriving DecidableEq, Repr

namespace EvalError

/-- The wording of an error, with what failed in front. -/
def message : EvalError → String
  | compile e => "compile error: " ++ e.message
  | runtime e => "runtime error: " ++ e.message

/-- The stage that an error belongs to. -/
def stage : EvalError → Stage
  | compile (.lexical _) => .lexical
  | compile _ => .grammatical
  | runtime _ => .execution

end EvalError

/-- The value of a program. -/
def Program.value (p : Program) : Except EvalError Float :=
  p.execute.outcome.mapError .runtime

/-- The value of a source. -/
def eval (source : String) : Except EvalError Float :=
  match (compile source).program? with
  | .ok p => p.value
  | .error e => .error (.compile e)

/-- A source's program, if it has one, and its value. -/
structure Evaluation where
  program? : Option Program
  outcome : Except EvalError Float

/-- Evaluate a source and keep its program. -/
def evaluate (source : String) : Evaluation :=
  match (compile source).program? with
  | .ok p => ⟨some p, p.value⟩
  | .error e => ⟨none, .error (.compile e)⟩

namespace Evaluation

/-- What stands for the value of an expression that has none. -/
def errorText : String := "error"

/-- The value as it is shown, whatever the error if there is none. -/
def text (e : Evaluation) : String :=
  match e.outcome with
  | .ok v => NumberText.shown v
  | .error _ => errorText

/-- The listing of the program; empty without one. -/
def listing (e : Evaluation) : String :=
  match e.program? with
  | some p => p.listing
  | none => ""

end Evaluation

end Reckoner
