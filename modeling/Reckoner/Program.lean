import Reckoner.Operator

namespace Reckoner

/-!
# Programs

A program is a list of instructions for a machine with one stack of values. Operands come before
their operators, so a program needs no parentheses; `Program.listing` is its text.
-/

/-- One instruction. Numbers and names are texts: they are read when the program runs. -/
inductive Instruction where
  /-- Push the value of a numeral. -/
  | number (text : String)
  /-- Push a named constant. -/
  | constant (name : String)
  /-- Replace the top value by a named function of it. -/
  | call (name : String)
  /-- Replace the top value by its negation. -/
  | negate
  /-- Replace the two top values by an operator on them, the lower one left. -/
  | binary (o : Operator)
  deriving DecidableEq, Repr

/-- The text of an instruction. A constant has a mark that tells it from a function. -/
def Instruction.text : Instruction → String
  | number s => s
  | constant s => "@" ++ s
  | call s => s
  | negate => "!"
  | binary o => o.symbol.toString

/-- A sequence of instructions. -/
abbrev Program := List Instruction

/-- The texts of the instructions, with one space between neighbours. -/
def Program.listing (p : Program) : String :=
  " ".intercalate (p.map Instruction.text)

example : Program.listing [.number "2", .constant "pi", .binary .mul, .negate, .call "sin"]
    = "2 @pi * ! sin" := by decide

end Reckoner
