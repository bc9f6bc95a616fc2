import Reckoner.Text.Glyph

namespace Reckoner.Text

/-!
# Quoted text

Characters and texts as messages show them, between quotes on one line: the quote itself, the
backslash, NUL, tab and the line ends have escapes of two characters, and every character
without a glyph of its own is shown by its number.
-/

/-- The number of a character in lower-case hexadecimal, without padding. -/
def hexNumber (c : Char) : List Char := Nat.toDigits 16 c.toNat

/-- A character as it stands inside the given quotes. -/
def escaped (quote c : Char) : List Char :=
  if c = quote ∨ c = '\x5C' then ['\x5C', c]
  else if c = '\x00' then ['\x5C', '0']
  else if c = '\t' then ['\x5C', 't']
  else if c = '\n' then ['\x5C', 'n']
  else if c = '\r' then ['\x5C', 'r']
  else if hasGlyph c then [c]
  else '\x5C' :: 'u' :: '\x7B' :: hexNumber c ++ ['\x7D']

/-- A character between single quotes. -/
def quotedChar (c : Char) : String :=
  String.ofList ('\x27' :: escaped '\x27' c ++ ['\x27'])

/-- A text between double quotes. -/
def quotedText (s : String) : String :=
  String.ofList ('\x22' :: s.toList.flatMap (escaped '\x22') ++ ['\x22'])

end Reckoner.Text
