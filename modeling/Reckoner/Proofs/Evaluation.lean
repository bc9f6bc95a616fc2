import Reckoner.Calculator
import Reckoner.Proofs.Postorder

namespace Reckoner

/-!
# Evaluation is a walk of the tree

The machine runs instructions on one stack and knows no tree.  The listing of a tree nevertheless
comes to what `Expr.value` gives by recursion, a value or the first error (`execute_program`), for
on any stack it puts the value of the tree on top and leaves the rest (`run_program`).  With the
postorder listing of `emitted_eq_program`, the value of a source is the value of its tree
(`eval_eq_value`).
-/

namespace Program

/-- The outcome of a run: the first instruction, then the others on the stack it leaves. -/
theorem run_cons (s : Stack) (i : Instruction) (p : Program) :
    (run s (i :: p)).outcome = (i.run s).bind fun s' => (run s' p).outcome := by
  rw [run]
  cases i.run s with
  | error e => rfl
  | ok s' => rfl

/-- A run goes through the first part of a program and then, from its stack, through the second. -/
theorem run_append (s : Stack) (p q : Program) :
    (run s (p ++ q)).outcome = (run s p).outcome.bind fun s' => (run s' q).outcome := by
  induction p generalizing s with
  | nil => rfl
  | cons i p ih =>
    rw [List.cons_append, run_cons, run_cons]
    cases i.run s with
    | error e => rfl
    | ok s' => exact ih s'

/-- A run whose last instruction is known. -/
theorem run_concat (s : Stack) (p : Program) (i : Instruction) :
    (run s (p ++ [i])).outcome = (run s p).outcome.bind fun s' => i.run s' := by
  rw [run_append]
  cases (run s p).outcome with
  | error e => rfl
  | ok s' =>
    show (run s' [i]).outcome = i.run s'
    rw [run_cons]
    cases i.run s' <;> rfl

/-- **A listing puts the value of its tree on top**, whatever the stack, or fails with the error of
    the tree. -/
theorem run_program (s : Stack) (e : Expr) :
    (run s e.program).outcome = e.value.map fun v => s.push v := by
  induction e generalizing s with
  | number text =>
    rw [Expr.program, run_cons, Instruction.run, Expr.value]
    cases Numeral.value? text <;> rfl
  | constant name =>
    rw [Expr.program, run_cons, Instruction.run, Expr.value]
    cases Builtin.constant? name <;> rfl
  | call f a ih =>
    rw [Expr.program, run_concat, ih, Expr.value]
    cases a.value with
    | error e => rfl
    | ok v =>
      -- The argument has its value, and only now the name is looked up.
      show (Instruction.call f).run (s.push v) = _
      rw [Instruction.run]
      cases Builtin.function? f <;> rfl
  | negation a ih =>
    rw [Expr.program, run_concat, ih, Expr.value]
    cases a.value <;> rfl
  | binary o a b iha ihb =>
    rw [Expr.program, run_concat, run_append, iha, Expr.value]
    cases a.value with
    | error e => rfl
    | ok v =>
      -- The left value waits on the stack while the right operand runs.
      show ((run (s.push v) b.program).outcome.bind fun s' => (Instruction.binary o).run s') = _
      rw [ihb]
      cases b.value <;> rfl

/-- **Executing a listing is walking its tree.** -/
theorem execute_program (e : Expr) : (execute e.program).outcome = e.value := by
  show ((run [] e.program).outcome).bind single = e.value
  rw [run_program]
  cases e.value <;> rfl

end Program

variable {source : String} {e : Expr}

/-- The program of an accepted source decides its value. -/
theorem eval_of_accepted (h : (compile source).rejection? = none) :
    eval source = (compile source).emitted.value := by
  rw [eval, Compilation.program?, h]

/-- **The value of a source is the value of its tree.**  An accepted source has exactly one tree,
    and evaluating the source gives the value of this tree by recursion, or the error that the
    recursion meets first. -/
theorem eval_eq_value (h : (compile source).rejection? = none) :
    (∃! e, Reads (sourceTokens source) e) ∧
      ∀ e, Reads (sourceTokens source) e → eval source = e.value.mapError .runtime := by
  refine ⟨existsUnique_reads h, fun e he => ?_⟩
  rw [eval_of_accepted h, emitted_eq_program h he, Program.value, Program.execute_program]

/-- Three unknown names and one error: the argument `x` is met before its function and before the
    exponent. -/
theorem eval_eq_value_unknown_argument :
    (compile "-f(x)^g").rejection? = none ∧
      eval "-f(x)^g" = .error (.runtime (.unknownConstant "x")) := by
  have haccepted : (compile "-f(x)^g").rejection? = none := by cbv
  have htokens : sourceTokens "-f(x)^g" = [.operator .sub, .name "f", .opening, .name "x", .closing,
      .operator .pow, .name "g"] := by cbv
  have hproper : (Phrase.sign true (.binary .pow (.call "f" (.name "x")) (.name "g"))).Proper :=
    .sign true (by decide)
      (.binary .pow (by decide) (by decide) (.call "f" (.name "x")) (.name "g"))
  have hvalue := (eval_eq_value haccepted).2 _ ⟨_, hproper, htokens.symm, rfl⟩
  exact ⟨haccepted, hvalue⟩

end Reckoner
