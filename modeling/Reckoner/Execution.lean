import Reckoner.Builtin
import Reckoner.Decimal.Numeral
import Reckoner.Program
import Reckoner.Stack

namespace Reckoner

/-!
# Executions

A program runs on an empty stack and has to leave one value. `Instruction.run` is one step,
`Program.run` the steps from a given stack, and `Program.execute` the run with its result. An
execution also keeps how deep the stack was after each step.
-/

/-- Why a program has no result. -/
inductive RuntimeError where
  /-- An instruction found too few operands. -/
  | stackUnderflow
  | unknownConstant (name : String)
  | unknownFunction (name : String)
  /-- The program ended with other than one value. -/
  | leftover (depth : Nat)
  /-- A number's text is no numeral. -/
  | invalidNumber (text : String)
  deriving DecidableEq, Repr

/-- The wording of a failed execution. -/
def RuntimeError.message : RuntimeError → String
  | stackUnderflow => "stack underflow"
  | unknownConstant name => "unknown constant '" ++ name ++ "'"
  | unknownFunction name => "unknown function '" ++ name ++ "'"
  | leftover depth => "malformed program: " ++ Nat.repr depth ++ " values left on the stack"
  | invalidNumber text => "invalid number literal '" ++ text ++ "'"

/-- Run one instruction. A function's name is looked up before its argument is taken. -/
def Instruction.run (s : Stack) : Instruction → Except RuntimeError Stack
  | number text =>
    match Numeral.value? text with
    | some v => .ok (s.push v)
    | none => .error (.invalidNumber text)
  | constant name =>
    match Builtin.constant? name with
    | some v => .ok (s.push v)
    | none => .error (.unknownConstant name)
  | call name =>
    match Builtin.function? name, s.pop? with
    | some f, some (v, s) => .ok (s.push (f v))
    | some _, none => .error .stackUnderflow
    | none, _ => .error (.unknownFunction name)
  | negate =>
    match s.pop? with
    | some (v, s) => .ok (s.push (-v))
    | none => .error .stackUnderflow
  | binary o =>
    match s.popPair? with
    | some ((left, right), s) => .ok (s.push (o.apply left right))
    | none => .error .stackUnderflow

/-- The instructions that ran, each with the depth of the stack after it, and the outcome. -/
structure Execution (α : Type) where
  steps : List (Instruction × Nat)
  outcome : Except RuntimeError α

namespace Program

/-- Run instructions from a given stack until the end or the first failure. -/
def run (s : Stack) : Program → Execution Stack
  | [] => ⟨[], .ok s⟩
  | i :: p =>
    match i.run s with
    | .ok s' =>
      let later := run s' p
      { later with steps := (i, s'.length) :: later.steps }
    | .error e => ⟨[], .error e⟩

/-- The single value of a stack. -/
def single (s : Stack) : Except RuntimeError Float :=
  match s with
  | [v] => .ok v
  | _ => .error (.leftover s.length)

/-- Run a program from the empty stack; it has to leave one value. -/
def execute (p : Program) : Execution Float :=
  let r := run [] p
  { steps := r.steps, outcome := r.outcome.bind single }

end Program

end Reckoner
