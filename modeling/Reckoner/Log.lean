import Reckoner.Calculator

namespace Reckoner

/-!
# The log

What an evaluation reports on its way: each instruction as it is released and as it is executed,
the program as a whole, and how it ended. The records are read off the compilation and the
execution, so they cannot disagree with the result.
-/

/-- How much detail a record gives. -/
inductive Level where
  | debug
  | trace
  deriving DecidableEq, Repr

/-- One event of an evaluation. -/
inductive Record where
  | emitted (i : Instruction)
  | compiled (p : Program)
  | rejected (source : String) (e : CompileError)
  /-- An instruction ran and left the stack this deep. -/
  | executed (i : Instruction) (depth : Nat)
  /-- A program ended with other than one value. -/
  | leftover (depth : Nat)
  | valued (source : String) (v : Float)
  | failed (source : String) (e : EvalError)

namespace Record

/-- Single instructions are detail. -/
def level : Record → Level
  | emitted _ | executed _ _ => .trace
  | _ => .debug

/-- A text with spaces after it up to a width. -/
def padded (width : Nat) (s : String) : String :=
  s ++ String.ofList (List.replicate (width - s.length) ' ')

/-- The wording of a record. -/
def message : Record → String
  | emitted i => "emit " ++ i.text
  | compiled p => "compiled program: " ++ p.listing
  | rejected source e => Text.quotedText source ++ " rejected: " ++ e.message
  | executed i depth => padded 8 i.text ++ " -> depth " ++ Nat.repr depth
  | leftover depth => "program left " ++ Nat.repr depth ++ " values on the stack"
  | valued source v => Text.quotedText source ++ " = " ++ NumberText.logged v
  | failed source e => Text.quotedText source ++ " failed: " ++ e.message

end Record

/-- The records of an execution. -/
def Execution.log (x : Execution Float) : List Record :=
  x.steps.map (fun (i, depth) => .executed i depth) ++
    match x.outcome with
    | .error (.leftover depth) => [.leftover depth]
    | _ => []

/-- The records of a compilation. -/
def Compilation.log (source : String) (c : Compilation) : List Record :=
  c.emitted.map .emitted ++
    match c.program? with
    | .ok p => [.compiled p]
    | .error e => [.rejected source e]

/-- The records of `evaluate`. -/
def evaluateLog (source : String) : List Record :=
  let c := compile source
  c.log source ++
    match c.program? with
    | .ok p => p.execute.log
    | .error _ => []

/-- The record that `eval` ends with. -/
def Program.valueLog (source : String) (p : Program) : List Record :=
  match p.value with
  | .ok v => [.valued source v]
  | .error e => [.failed source e]

/-- The records of `eval`. -/
def evalLog (source : String) : List Record :=
  let c := compile source
  c.log source ++
    match c.program? with
    | .ok p => p.execute.log ++ p.valueLog source
    | .error _ => []

end Reckoner
