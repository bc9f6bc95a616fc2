namespace Reckoner

/-!
# Stacks of values

The operands of the machine, the top one first. Taking from a stack that holds too few values
gives nothing.
-/

/-- The values on a stack, the top one first. -/
abbrev Stack := List Float

namespace Stack

/-- Put a value on top. -/
def push (s : Stack) (v : Float) : Stack := v :: s

/-- Take the top value off. -/
def pop? : Stack → Option (Float × Stack)
  | [] => none
  | v :: s => some (v, s)

/-- Take the two top values off; the lower one is the left operand and comes first. -/
def popPair? : Stack → Option ((Float × Float) × Stack)
  | right :: left :: s => some ((left, right), s)
  | _ => none

end Stack

end Reckoner
