import Reckoner.Draft
import Reckoner.Token.Cursor

namespace Reckoner

/-!
# Compilations

A compilation is the instructions released while an expression is read, in order, together with
the reason for stopping if the text is no expression. The instructions of a rejected text stay
part of the answer.

`Draft.finish` says what the end of the text does, `Draft.compile` reads tokens as it goes, and
`Draft.compileTokens` reads a list of tokens with a given end.
-/

/-- The instructions released, and why the text was rejected if it was. -/
structure Compilation where
  emitted : Program
  rejection? : Option CompileError
  deriving DecidableEq, Repr

namespace Compilation

/-- Instructions released before all of these. -/
def after (code : Program) (c : Compilation) : Compilation :=
  { c with emitted := code ++ c.emitted }

/-- The program of an accepted text. -/
def program? (c : Compilation) : Except CompileError Program :=
  match c.rejection? with
  | none => .ok c.emitted
  | some e => .error e

end Compilation

namespace Draft

/-- The end of the text. -/
def finish (d : Draft) : Compilation :=
  let close (before : Program) : Compilation :=
    { emitted := before ++ released Operator.leastRank d.pending
      rejection? :=
        if (remaining Operator.leastRank d.pending).isEmpty then none else some .unclosed }
  match d.expecting with
  | .operand => ⟨[], some .missingOperand⟩
  | .argument f => close [.constant f]
  | .continuation => close []

/-- Read a list of tokens, then the fault at its end or the end of the text. -/
def compileTokens (fault? : Option LexError) (d : Draft) : List Token → Compilation
  | [] =>
    match fault? with
    | none => d.finish
    | some e => ⟨[], some (.lexical e)⟩
  | t :: ts =>
    match d.read t with
    | (code, .ok d') => (compileTokens fault? d' ts).after code
    | (code, .error e) => ⟨code, some e⟩

/-- Read tokens from a cursor until the text ends or is rejected. -/
def compile (d : Draft) (c : Cursor) : Compilation :=
  let r := c.next
  match h : r.1 with
  | .token t =>
    have : r.2.rest.length < c.rest.length := Cursor.next_shorter h
    match d.read t with
    | (code, .ok d') => (d'.compile r.2).after code
    | (code, .error e) => ⟨code, some e⟩
  | .finished => d.finish
  | .fault e => ⟨[], some (.lexical e)⟩
termination_by c.rest.length

end Draft

/-- Compile a source. -/
def compile (source : String) : Compilation :=
  Draft.empty.compile (Cursor.ofSource source)

end Reckoner
