import Reckoner.Operator
import Reckoner.Text.Quoted

namespace Reckoner

/-!
# Tokens

The words of an expression, and the two ways in which a text can fail to be one.

A token carries its text as it stood in the source: a number is not read as a value, and a name
is not looked up, before the program runs.
-/

/-- A word of an expression. -/
inductive Token where
  | operator (o : Operator)
  | opening
  | closing
  | number (text : String)
  | name (text : String)
  deriving DecidableEq, Repr

namespace Token

/-- The token that a single character writes, if it writes one. -/
def ofSymbol? : Char → Option Token
  | '(' => some opening
  | ')' => some closing
  | c => (Operator.ofChar? c).map operator

/-- The characters of a token, as they stand in the source. -/
def text : Token → String
  | operator o => o.symbol.toString
  | opening => "("
  | closing => ")"
  | number s => s
  | name s => s

/-- Whether the token is the operator or parenthesis that `c` writes. -/
def isSymbol (c : Char) (t : Token) : Bool :=
  ofSymbol? c == some t

end Token

/-- Why no token can be read. -/
inductive LexError where
  /-- A character that starts no token. -/
  | unexpectedCharacter (c : Char)
  /-- A number that ends in its point. -/
  | malformedNumber (text : String)
  deriving DecidableEq, Repr

/-- The wording of a lexical error. -/
def LexError.message : LexError → String
  | unexpectedCharacter c => "unexpected character: " ++ Text.quotedChar c
  | malformedNumber text => "malformed number: " ++ text

end Reckoner
