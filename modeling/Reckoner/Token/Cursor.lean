import Reckoner.Token
import Reckoner.Text.Blank
import Reckoner.Text.ByteLength

namespace Reckoner

/-!
# Reading tokens

A `Cursor` stands in a source. `Cursor.next` skips blanks and reads the longest token there:

* an operator or a parenthesis is one character;
* a number is `digit+ ('.' digit+)?`, and a point after the digits always belongs to it;
* a name is a run of ASCII letters.

Nothing is lost on the way: what a read takes and what it leaves are the text that it was given
(`Scan.taken_append_rest`), and a token takes at least one character (`Cursor.next_shorter`).
-/

/-- What a cursor meets: a token, the end of the source, or a fault. -/
inductive Reading where
  | token (t : Token)
  | finished
  | fault (e : LexError)
  deriving DecidableEq, Repr

/-- One read: its answer, the characters it took and those it left. -/
structure Scan where
  reading : Reading
  taken : List Char
  rest : List Char

namespace Scan

/-- Read a number from a text that starts with a digit. -/
def number (cs : List Char) : Scan :=
  let whole := cs.takeWhile Char.isDigit
  match cs.dropWhile Char.isDigit with
  | '.' :: more =>
    let places := more.takeWhile Char.isDigit
    let text := whole ++ '.' :: places
    { reading :=
        if places.isEmpty then .fault (.malformedNumber (String.ofList text))
        else .token (.number (String.ofList text))
      taken := text
      rest := more.dropWhile Char.isDigit }
  | rest => { reading := .token (.number (String.ofList whole)), taken := whole, rest }

/-- Read a name from a text that starts with a letter. -/
def name (cs : List Char) : Scan :=
  let letters := cs.takeWhile Char.isAlpha
  { reading := .token (.name (String.ofList letters))
    taken := letters
    rest := cs.dropWhile Char.isAlpha }

/-- Read the token at the start of a text. A character that starts no token is left in place. -/
def start : List Char → Scan
  | [] => ⟨.finished, [], []⟩
  | c :: cs =>
    match Token.ofSymbol? c with
    | some t => ⟨.token t, [c], cs⟩
    | none =>
      if c.isDigit then number (c :: cs)
      else if c.isAlpha then name (c :: cs)
      else ⟨.fault (.unexpectedCharacter c), [], c :: cs⟩

theorem number_taken_append_rest (cs : List Char) :
    (number cs).taken ++ (number cs).rest = cs := by
  unfold number
  have h := cs.takeWhile_append_dropWhile (p := Char.isDigit)
  split
  · next more heq =>
    simp only [List.append_assoc, List.cons_append, List.takeWhile_append_dropWhile]
    rw [← heq, h]
  · exact h

theorem name_taken_append_rest (cs : List Char) : (name cs).taken ++ (name cs).rest = cs :=
  cs.takeWhile_append_dropWhile

/-- What a read takes and what it leaves are the text that it was given. -/
theorem taken_append_rest (cs : List Char) : (start cs).taken ++ (start cs).rest = cs := by
  unfold start
  split
  · rfl
  · split
    · rfl
    · split
      · exact number_taken_append_rest _
      · split
        · exact name_taken_append_rest _
        · rfl

/-- A number takes at least the digits that it starts with. -/
theorem takeWhile_prefix_number (cs : List Char) :
    cs.takeWhile Char.isDigit <+: (number cs).taken := by
  unfold number
  split
  · exact List.prefix_append _ _
  · exact List.prefix_rfl

/-- A token takes at least one character. -/
theorem taken_ne_nil {cs : List Char} {t : Token} (h : (start cs).reading = .token t) :
    (start cs).taken ≠ [] := by
  unfold start at h ⊢
  split at h
  · simp at h
  · split at h
    · simp
    · split at h
      · next c cs _ _ hd =>
        have hp := takeWhile_prefix_number (c :: cs)
        simp only [hd, if_true]
        intro hn
        simp [hn, hd] at hp
      · split at h
        · next hd ha => simp [hd, ha, name]
        · simp at h

end Scan

/-- A place in a source: the bytes before it and the characters after it. -/
structure Cursor where
  offset : Nat
  rest : List Char
  deriving DecidableEq, Repr

namespace Cursor

/-- The cursor at the start of a source. -/
def ofSource (source : String) : Cursor := ⟨0, source.toList⟩

/-- Read the next token: skip the blanks, then read what stands there. -/
def next (c : Cursor) : Reading × Cursor :=
  let blanks := c.rest.takeWhile Text.isBlank
  let scan := Scan.start (c.rest.dropWhile Text.isBlank)
  (scan.reading, ⟨c.offset + Text.byteLength (blanks ++ scan.taken), scan.rest⟩)

/-- What the next read will answer; the cursor stays where it is. -/
def peek (c : Cursor) : Reading := c.next.1

/-- A token leaves fewer characters than there were. -/
theorem next_shorter {c : Cursor} {t : Token} (h : c.next.1 = .token t) :
    c.next.2.rest.length < c.rest.length := by
  have hne : (Scan.start (c.rest.dropWhile Text.isBlank)).taken ≠ [] := Scan.taken_ne_nil h
  have heq := congrArg List.length (Scan.taken_append_rest (c.rest.dropWhile Text.isBlank))
  have hb := congrArg List.length (c.rest.takeWhile_append_dropWhile (p := Text.isBlank))
  have hpos := List.length_pos_iff.2 hne
  simp only [List.length_append] at heq hb
  simp only [next]
  omega

end Cursor

/-- The tokens of a source up to its end or its first fault, and the cursor after them. -/
structure Tokens where
  tokens : List Token
  fault? : Option LexError
  stop : Cursor

/-- Read every token from a cursor on. -/
def Cursor.tokens (c : Cursor) : Tokens :=
  let r := c.next
  match h : r.1 with
  | .token t =>
    have : r.2.rest.length < c.rest.length := next_shorter h
    let later := r.2.tokens
    { later with tokens := t :: later.tokens }
  | .finished => ⟨[], none, r.2⟩
  | .fault e => ⟨[], some e, r.2⟩
termination_by c.rest.length

namespace Cursor

variable {c : Cursor}

theorem tokens_of_token {t : Token} (h : c.next.1 = .token t) :
    c.tokens = { c.next.2.tokens with tokens := t :: c.next.2.tokens.tokens } := by
  rw [tokens]
  split <;> simp_all

theorem tokens_of_finished (h : c.next.1 = .finished) : c.tokens = ⟨[], none, c.next.2⟩ := by
  rw [tokens]
  split <;> simp_all

theorem tokens_of_fault {e : LexError} (h : c.next.1 = .fault e) :
    c.tokens = ⟨[], some e, c.next.2⟩ := by
  rw [tokens]
  split <;> simp_all

end Cursor

end Reckoner
