import Reckoner.Calculator
import Reckoner.Text.Blank
import Reckoner.Text.Lines

namespace Reckoner

/-!
# Sessions

A session answers expressions and numbers its answers from one. An entry is the line
`number: expression = outcome`, and, if listings are wanted, a second line with the program.

The expressions come trimmed, from arguments, from the lines of a file that are not blank, or from
the lines of a dialogue; what is made of them is the same in each case.
-/

/-- What a session keeps between two entries. -/
structure Session where
  listing : Bool
  count : Nat
  deriving DecidableEq, Repr

namespace Session

/-- A session without entries. -/
def start (listing : Bool) : Session := ⟨listing, 0⟩

/-- What is shown in place of an empty expression. -/
def shown (expression : String) : String :=
  if expression = "" then "?" else expression

/-- Answer one expression: its entry, and the session after it. -/
def entry (s : Session) (expression : String) : String × Session :=
  let e := evaluate expression
  let first := Nat.repr (s.count + 1) ++ ": " ++ shown expression ++ " = " ++ e.text ++ "\n"
  let second := if s.listing then "   " ++ e.listing ++ "\n" else ""
  (first ++ second, { s with count := s.count + 1 })

/-- The entries of a list of expressions, one after the other. -/
def entries (s : Session) : List String → String
  | [] => ""
  | x :: xs =>
    let (text, s') := s.entry x
    text ++ s'.entries xs

/-- The expressions of a file: its trimmed lines that are not empty. -/
def fileExpressions (content : String) : List String :=
  ((Text.lines '\n' content.toList).map fun line => String.ofList (Text.trimChars line)).filter
    (· ≠ "")

end Session

end Reckoner
