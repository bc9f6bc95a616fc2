namespace Reckoner.Text

/-!
# White space and blanks

Two classes of characters separate things:

* *white space*, the Unicode property, is what trimming removes from the ends of a line;
* *blanks* are what may stand between two tokens: white space and the byte order mark.

Hence a trimmed line holds the same tokens as the line itself.
-/

/-- The code points with the Unicode property White_Space, as ranges with both ends included. -/
def whiteSpaceRanges : List (Nat × Nat) :=
  [(0x09, 0x0D), (0x20, 0x20), (0x85, 0x85), (0xA0, 0xA0), (0x1680, 0x1680), (0x2000, 0x200A),
   (0x2028, 0x2029), (0x202F, 0x202F), (0x205F, 0x205F), (0x3000, 0x3000)]

/-- Whether a character is white space. -/
def isWhiteSpace (c : Char) : Bool :=
  whiteSpaceRanges.any fun r => r.1 ≤ c.toNat && c.toNat ≤ r.2

/-- The byte order mark, which is no white space but separates tokens all the same. -/
def byteOrderMark : Char := '\uFEFF'

/-- Whether a character may stand between two tokens. -/
def isBlank (c : Char) : Bool :=
  isWhiteSpace c || c == byteOrderMark

/-- A list of characters without the white space at its two ends. -/
def trimChars (cs : List Char) : List Char :=
  ((cs.dropWhile isWhiteSpace).reverse.dropWhile isWhiteSpace).reverse

/-- A text without the white space at its two ends. -/
def trim (s : String) : String :=
  String.ofList (trimChars s.toList)

/-- White space is blank. -/
theorem isBlank_of_isWhiteSpace {c : Char} (h : isWhiteSpace c = true) : isBlank c = true := by
  simp [isBlank, h]

/-- Trimming takes white space off the two ends, and nothing else. -/
theorem exists_trimChars (cs : List Char) :
    ∃ before after, cs = before ++ (trimChars cs ++ after) ∧
      (∀ c ∈ before, isWhiteSpace c = true) ∧ ∀ c ∈ after, isWhiteSpace c = true := by
  let inner := (cs.dropWhile isWhiteSpace).reverse
  have hall (l : List Char) : ∀ c ∈ l.takeWhile isWhiteSpace, isWhiteSpace c = true :=
    List.all_eq_true.1 List.all_takeWhile
  refine ⟨cs.takeWhile isWhiteSpace, (inner.takeWhile isWhiteSpace).reverse, ?_, hall cs, ?_⟩
  · show cs = _ ++
      ((inner.dropWhile isWhiteSpace).reverse ++ (inner.takeWhile isWhiteSpace).reverse)
    rw [← List.reverse_append, List.takeWhile_append_dropWhile, List.reverse_reverse,
      List.takeWhile_append_dropWhile]
  · intro c hc
    exact hall inner c (List.mem_reverse.1 hc)

/-- Nothing is dropped from a list that does not start with the class. -/
theorem dropWhile_of_head {p : Char → Bool} {cs : List Char} (h : ∀ c ∈ cs.head?, p c = false) :
    cs.dropWhile p = cs := by
  cases cs with
  | nil => rfl
  | cons c cs => rw [List.dropWhile_cons_of_neg (by simp [h c rfl])]

/-- **A trimmed text has nothing to trim.** -/
theorem trimChars_trimChars (cs : List Char) : trimChars (trimChars cs) = trimChars cs := by
  let inner := cs.dropWhile isWhiteSpace
  let outer := inner.reverse.dropWhile isWhiteSpace
  have hhead (l : List Char) : ∀ c ∈ (l.dropWhile isWhiteSpace).head?, isWhiteSpace c = false := by
    intro c hc
    have hnot := List.head?_dropWhile_not isWhiteSpace l
    rwa [hc] at hnot
  have hstart : ∀ c ∈ outer.reverse.head?, isWhiteSpace c = false := by
    intro c hc
    apply hhead cs c
    -- The end of the text is gone, and its start is the same.
    obtain ⟨gone, hcut⟩ := List.dropWhile_suffix isWhiteSpace (l := inner.reverse)
    have hinner : inner = outer.reverse ++ gone.reverse := by
      rw [← List.reverse_append, hcut, List.reverse_reverse]
    show inner.head? = some c
    rw [hinner, List.head?_append, hc]
    rfl
  show ((outer.reverse.dropWhile isWhiteSpace).reverse.dropWhile isWhiteSpace).reverse
    = outer.reverse
  rw [dropWhile_of_head hstart, List.reverse_reverse, dropWhile_of_head (hhead _)]

theorem trim_trim (s : String) : trim (trim s) = trim s := by
  unfold trim
  rw [String.toList_ofList, trimChars_trimChars]

example : isBlank '\uFEFF' = true ∧ isWhiteSpace '\uFEFF' = false := by decide
example : trimChars [' ', '1', ' ', '2', '\t'] = ['1', ' ', '2'] := by decide

end Reckoner.Text
