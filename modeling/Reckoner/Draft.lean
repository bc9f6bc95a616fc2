import Reckoner.Program
import Reckoner.Token

namespace Reckoner

/-!
# Expressions in the middle of being read

An expression is read one token at a time, and no tree is ever built. A `Draft` is all that has
to be remembered between two tokens: which levels are open, which operators and signs still wait
for their right operand to end, and whether an operand is due. Each token releases the
instructions that it completes.

The grammar is

    Sum     := Product (('+' | '-') Product)*
    Product := Power (('*' | '/') Power)*
    Power   := Operand ('^' Operand)*
    Operand := NUMBER | NAME | NAME '(' Sum ')' | '(' Sum ')' | ('+' | '-') Power

A sign takes the whole chain of powers after it, so `-2^2` is `-(2^2)`. Sums and products group
from the left: an operator releases every waiting one that binds at least as tightly. Powers group
from the right: a `^` releases nothing, and the chain is released from its end.
-/

/-- What waits for its operand to end. -/
inductive Pending where
  | operator (o : Operator)
  /-- A sign; only the minus leaves an instruction. -/
  | sign (negative : Bool)
  /-- An open parenthesis. -/
  | group
  /-- The open parenthesis of a function's argument. -/
  | argument (function : String)
  deriving DecidableEq, Repr

namespace Pending

/-- How tightly it binds. A sign belongs to a chain of powers; parentheses hold everything. -/
def rank : Pending → Nat
  | operator o => o.rank
  | sign _ => Operator.pow.rank
  | group | argument _ => 0

/-- The instructions that it leaves when its operand has ended. -/
def code : Pending → Program
  | operator o => [.binary o]
  | sign true => [.negate]
  | sign false => []
  | group => []
  | argument f => [.call f]

/-- Whether it counts as a level of nesting while it is open. -/
def isLevel : Pending → Bool
  | operator _ => false
  | sign _ | group | argument _ => true

end Pending

/-- What the next token may be. -/
inductive Expectation where
  /-- An operand has to start. -/
  | operand
  /-- A name has just been read: it is a function if a parenthesis opens, else a constant. -/
  | argument (name : String)
  /-- An operand is complete. -/
  | continuation
  deriving DecidableEq, Repr

/-- Why a text is no expression. -/
inductive CompileError where
  | lexical (e : LexError)
  /-- The text ends where an operand is due. -/
  | missingOperand
  /-- A token that starts no operand stands where one is due. -/
  | unexpectedToken (t : Token)
  /-- Something else stands where a parenthesis has to close. -/
  | unclosed
  /-- A token stands after a complete expression. -/
  | trailingToken (t : Token)
  | tooDeep
  deriving DecidableEq, Repr

/-- The wording of a rejection. -/
def CompileError.message : CompileError → String
  | lexical e => e.message
  | missingOperand => "unexpected end of input"
  | unexpectedToken t => "unexpected token: " ++ t.text
  | unclosed => "expected closing parenthesis ')'"
  | trailingToken t => "extra tokens after expression: " ++ t.text
  | tooDeep => "expression nested too deeply"

/-- The most levels that may be open at once. -/
def maxNesting : Nat := 1000

/-- An expression that has been read in part: what waits, innermost first, and what is due. -/
structure Draft where
  pending : List Pending
  expecting : Expectation
  deriving DecidableEq, Repr

namespace Draft

/-- Nothing has been read. -/
def empty : Draft := ⟨[], .operand⟩

/-- What a token does: the instructions that it completes, and the draft after it or why it is
    refused. -/
abbrev Step := Program × Except CompileError Draft

/-- The levels that are open. -/
def levels (pending : List Pending) : Nat := pending.countP Pending.isLevel

/-- Open a level, whose operand is due. -/
def openLevel (level : Pending) (pending : List Pending) : Except CompileError Draft :=
  if levels pending < maxNesting then .ok ⟨level :: pending, .operand⟩ else .error .tooDeep

/-- The instructions of all that binds at least as tightly as `rank`, down to what does not. -/
def released (rank : Nat) (pending : List Pending) : Program :=
  (pending.takeWhile (rank ≤ ·.rank)).flatMap Pending.code

/-- What still waits after that. -/
def remaining (rank : Nat) (pending : List Pending) : List Pending :=
  pending.dropWhile (rank ≤ ·.rank)

/-- A token where an operand is due. -/
def startOperand (pending : List Pending) : Token → Step
  | .number s => ([.number s], .ok ⟨pending, .continuation⟩)
  | .name s => ([], .ok ⟨pending, .argument s⟩)
  | .opening => ([], openLevel .group pending)
  | .operator .sub => ([], openLevel (.sign true) pending)
  | .operator .add => ([], openLevel (.sign false) pending)
  | t => ([], .error (.unexpectedToken t))

/-- A token after a complete operand. -/
def continueOperand (pending : List Pending) (t : Token) : Step :=
  match t with
  | .operator .pow => ([], .ok ⟨.operator .pow :: pending, .operand⟩)
  | .operator o =>
    (released o.rank pending, .ok ⟨.operator o :: remaining o.rank pending, .operand⟩)
  | _ =>
    let whole := released Operator.leastRank pending
    match remaining Operator.leastRank pending, t with
    | level :: outer, .closing => (whole ++ level.code, .ok ⟨outer, .continuation⟩)
    | [], _ => (whole, .error (.trailingToken t))
    | _, _ => (whole, .error .unclosed)

/-- Read one token. -/
def read (d : Draft) (t : Token) : Step :=
  match d.expecting, t with
  | .operand, _ => startOperand d.pending t
  | .argument f, .opening => ([], openLevel (.argument f) d.pending)
  | .argument f, _ =>
    let (code, next) := continueOperand d.pending t
    (.constant f :: code, next)
  | .continuation, _ => continueOperand d.pending t

end Draft

end Reckoner
