import Reckoner.Proofs.NumberTokens

namespace Reckoner

/-!
# Tokens segment a source

Reading tokens one after the other cuts a source into pieces: a gap, a token, a gap, and so on, up
to the end or to the first place where no token can be read.  `Segmented` describes such a cut
without reading anything.  It says what the pieces are, that together they are the text, and that
no token could have been longer:

* `Token.Lexeme` — the words of the language: symbols, literals and runs of letters;
* `Token.EndsBefore` — what follows a token does not continue it;
* `Stops` — what stands after the last piece: nothing, a character that starts no token, or a
  number that ends in its point.

Every text can be cut (`exists_segmented`), and every cut is the one that reading makes
(`Cursor.tokens_of_segmented`), so the tokens of a source are the words of its only cut
(`source_segmented`).  Both go word by word; a single scan takes the word that stands there
(`Scan.start_of_lexeme`) or answers what stops it (`Scan.start_of_stops`).
-/

namespace Token

/-- The characters that are a token by themselves. -/
def symbols : List Char := ['+', '-', '*', '/', '^', '(', ')']

/-- The symbols are those of the operators, and the parentheses. -/
theorem mem_symbols {c : Char} :
    c ∈ symbols ↔ (∃ o : Operator, o.symbol = c) ∨ c = '(' ∨ c = ')' := by
  constructor
  · intro h
    simp only [symbols, List.mem_cons, List.not_mem_nil, or_false] at h
    rcases h with rfl | rfl | rfl | rfl | rfl | h
    · exact .inl ⟨.add, rfl⟩
    · exact .inl ⟨.sub, rfl⟩
    · exact .inl ⟨.mul, rfl⟩
    · exact .inl ⟨.div, rfl⟩
    · exact .inl ⟨.pow, rfl⟩
    · exact .inr h
  · rintro (⟨o, rfl⟩ | rfl | rfl)
    · cases o <;> simp [symbols, Operator.symbol]
    · simp [symbols]
    · simp [symbols]

/-- **The words of the language**: one of the symbols, digits with possibly a point and more digits,
    or letters. -/
def Lexeme (t : Token) : Prop :=
  match t with
  | operator _ | opening | closing => ∃ c ∈ symbols, t.text.toList = [c]
  | number s => Literal s.toList
  | name s => s.toList ≠ [] ∧ ∀ c ∈ s.toList, c.isAlpha = true

/-- **The longest match.**  What follows does not continue the token: no digit follows a number, no
    point a number without one, and no letter a name. -/
def EndsBefore (t : Token) (rest : List Char) : Prop :=
  ∀ c ∈ rest.head?,
    match t with
    | operator _ | opening | closing => True
    | number s => c.isDigit = false ∧ ('.' ∉ s.toList → c ≠ '.')
    | name _ => c.isAlpha = false

/-- No token starts with this character. -/
def StartsNone (c : Char) : Prop :=
  ∀ t : Token, t.Lexeme → t.text.toList.head? ≠ some c

end Token

/-- **A cut of a text** that goes on with `rest`: gap, token, gap, ..., token, gap.  The gaps are
    blank and may be empty, and the tokens have their texts as they stand there. -/
inductive Segmented : (text : List Char) → List Token → (rest : List Char) → Prop where
  | gap {blanks rest : List Char} (blank : ∀ c ∈ blanks, Text.isBlank c = true) :
      Segmented blanks [] rest
  | token {blanks text rest : List Char} {t : Token} {ts : List Token}
      (blank : ∀ c ∈ blanks, Text.isBlank c = true) (lexeme : t.Lexeme)
      (ends : t.EndsBefore (text ++ rest)) (later : Segmented text ts rest) :
      Segmented (blanks ++ (t.text.toList ++ text)) (t :: ts) rest

/-- **Where reading stops**: at the end, or at a fault.  The fault takes some characters, which a
    message shows, and leaves the others. -/
inductive Stops : Option LexError → (taken left : List Char) → Prop where
  | finished : Stops none [] []
  | unexpected {c : Char} {left : List Char} (solid : Text.isBlank c = false)
      (starts : Token.StartsNone c) : Stops (some (.unexpectedCharacter c)) [] (c :: left)
  | malformed {digits left : List Char} (nonempty : digits ≠ [])
      (all : ∀ c ∈ digits, c.isDigit = true) (unfollowed : ∀ c ∈ left.head?, c.isDigit = false) :
      Stops (some (.malformedNumber (String.ofList (digits ++ ['.'])))) (digits ++ ['.']) left

/-! ### Classes of characters -/

section Characters

variable {c : Char}

/-- No blank is among the visible characters of ASCII. -/
theorem isBlank_of_visible (hlow : 0x20 < c.toNat) (hhigh : c.toNat < 0x7F) :
    Text.isBlank c = false := by
  have hmark : c ≠ Text.byteOrderMark := by
    rintro rfl
    revert hhigh
    decide
  simp only [Text.isBlank, Text.isWhiteSpace, Text.whiteSpaceRanges, List.any_cons, List.any_nil,
    Bool.or_eq_false_iff, Bool.and_eq_false_iff, decide_eq_false_iff_not, beq_eq_false_iff_ne,
    and_true]
  refine ⟨?_, hmark⟩
  omega

theorem toNat_of_isAlpha (h : c.isAlpha = true) :
    0x41 ≤ c.toNat ∧ c.toNat ≤ 0x5A ∨ 0x61 ≤ c.toNat ∧ c.toNat ≤ 0x7A := by
  have hranges : (decide (c.val ≥ 'A'.val ∧ c.val ≤ 'Z'.val) ||
      (decide (c.val ≥ 'a'.val) && decide (c.val ≤ 'z'.val))) = true := h
  simpa [UInt32.le_iff_toNat_le] using hranges

theorem toNat_of_isDigit (h : c.isDigit = true) : 0x30 ≤ c.toNat ∧ c.toNat ≤ 0x39 :=
  Char.isDigit_iff_toNat.1 h

theorem isAlpha_of_isDigit (h : c.isDigit = true) : c.isAlpha = false := by
  have hdigit := toNat_of_isDigit h
  refine Bool.eq_false_iff.2 fun halpha => ?_
  have hletter := toNat_of_isAlpha halpha
  omega

/-- The characters of the three kinds of tokens are different ones. -/
theorem class_of_mem_symbols (h : c ∈ Token.symbols) :
    c.isDigit = false ∧ c.isAlpha = false ∧ Text.isBlank c = false := by
  rcases Token.mem_symbols.1 h with ⟨o, rfl⟩ | rfl | rfl
  · cases o <;> decide
  · decide
  · decide

/-- A character starts a token if it is a symbol, a digit or a letter. -/
def Token.CanStart (c : Char) : Prop :=
  c ∈ Token.symbols ∨ c.isDigit = true ∨ c.isAlpha = true

theorem isBlank_of_canStart (h : Token.CanStart c) : Text.isBlank c = false := by
  rcases h with h | h | h
  · exact (class_of_mem_symbols h).2.2
  · have hrange := toNat_of_isDigit h
    exact isBlank_of_visible (by omega) (by omega)
  · have hrange := toNat_of_isAlpha h
    exact isBlank_of_visible (by omega) (by omega)

end Characters

namespace Token

variable {c : Char} {t : Token}

/-- A word has a first character, of one of the three kinds. -/
theorem Lexeme.exists_cons (h : t.Lexeme) : ∃ c cs, t.text.toList = c :: cs ∧ CanStart c := by
  cases t with
  | operator | opening | closing =>
    obtain ⟨c, hc, htext⟩ := h
    exact ⟨c, [], htext, .inl hc⟩
  | number s =>
    obtain ⟨c, cs, hs, hc⟩ := Literal.exists_cons h
    exact ⟨c, cs, hs, .inr (.inl hc)⟩
  | name s =>
    obtain ⟨hne, hall⟩ := h
    obtain ⟨c, cs, hs⟩ := List.exists_cons_of_ne_nil hne
    exact ⟨c, cs, hs, .inr (.inr (hall c (hs ▸ List.mem_cons_self)))⟩

theorem lexeme_opening : opening.Lexeme := ⟨'(', by decide, rfl⟩

theorem lexeme_closing : closing.Lexeme := ⟨')', by decide, rfl⟩

theorem lexeme_operator (o : Operator) : (operator o).Lexeme :=
  ⟨o.symbol, by cases o <;> decide, String.toList_singleton _⟩

/-- The token of a symbol. -/
theorem lexeme_of_ofSymbol? (h : ofSymbol? c = some t) :
    t.Lexeme ∧ t.text.toList = [c] ∧ ∀ rest, t.EndsBefore rest := by
  unfold ofSymbol? at h
  split at h
  · obtain rfl := Option.some.inj h
    exact ⟨lexeme_opening, rfl, fun _ _ _ => trivial⟩
  · obtain rfl := Option.some.inj h
    exact ⟨lexeme_closing, rfl, fun _ _ _ => trivial⟩
  · obtain ⟨o, ho, rfl⟩ := Option.map_eq_some_iff.1 h
    obtain rfl := Operator.symbol_of_ofChar? ho
    exact ⟨lexeme_operator o, String.toList_singleton _, fun _ _ _ => trivial⟩

/-- Every symbol is a token, and no other character is one. -/
theorem isSome_ofSymbol? (c : Char) : (ofSymbol? c).isSome = true ↔ c ∈ symbols := by
  constructor
  · intro h
    obtain ⟨t, ht⟩ := Option.isSome_iff_exists.1 h
    unfold ofSymbol? at ht
    split at ht
    · decide
    · decide
    · obtain ⟨o, ho, -⟩ := Option.map_eq_some_iff.1 ht
      obtain rfl := Operator.symbol_of_ofChar? ho
      cases o <;> decide
  · intro h
    rcases mem_symbols.1 h with ⟨o, rfl⟩ | rfl | rfl
    · cases o <;> rfl
    · rfl
    · rfl

theorem ofSymbol?_eq_none (h : c ∉ symbols) : ofSymbol? c = none := by
  rwa [← isSome_ofSymbol?, Bool.not_eq_true, Option.isSome_eq_false_iff,
    Option.isNone_iff_eq_none] at h

/-- A character that starts no token is of none of the three kinds. -/
theorem startsNone_iff : StartsNone c ↔ ¬ CanStart c := by
  constructor
  · rintro h (hc | hc | hc)
    · -- Each kind has a token of a single character.
      obtain ⟨t, ht⟩ := Option.isSome_iff_exists.1 ((isSome_ofSymbol? c).2 hc)
      obtain ⟨hlexeme, htext, -⟩ := lexeme_of_ofSymbol? ht
      exact h t hlexeme (by rw [htext]; rfl)
    · have hliteral : Literal [c] := .whole (List.cons_ne_nil c []) (by simpa using hc)
      exact h (.number (String.ofList [c])) (by simpa [Lexeme] using hliteral) (by simp [text])
    · exact h (.name (String.ofList [c])) (by simpa [Lexeme] using hc) (by simp [text])
  · intro h t ht hfirst
    obtain ⟨d, cs, htext, hd⟩ := ht.exists_cons
    rw [htext, List.head?_cons] at hfirst
    exact h (Option.some.inj hfirst ▸ hd)

end Token

/-! ### One scan -/

/-- Every text starts with a run of any class, possibly an empty one. -/
theorem exists_run (p : Char → Bool) (cs : List Char) :
    ∃ run rest, cs = run ++ rest ∧ (∀ c ∈ run, p c = true) ∧ ∀ c ∈ rest.head?, p c = false := by
  refine ⟨cs.takeWhile p, cs.dropWhile p, List.takeWhile_append_dropWhile.symm,
    fun _ => List.mem_takeWhile_imp, fun c hc => ?_⟩
  have hhead := List.head?_dropWhile_not p cs
  rwa [hc] at hhead

/-- The run is not empty if its class has the first character. -/
theorem exists_run_cons {p : Char → Bool} {c : Char} (hc : p c = true) (cs : List Char) :
    ∃ run rest, c :: cs = run ++ rest ∧ run ≠ [] ∧ (∀ d ∈ run, p d = true) ∧
      ∀ d ∈ rest.head?, p d = false := by
  obtain ⟨run, rest, hcut, hrun, hrest⟩ := exists_run p (c :: cs)
  refine ⟨run, rest, hcut, ?_, hrun, hrest⟩
  rintro rfl
  have hstop : p c = false := hrest c (by rw [← List.nil_append rest, ← hcut]; rfl)
  rw [hc] at hstop
  cases hstop

/-- A run is taken as a whole, up to what stops it. -/
theorem span_append {p : Char → Bool} {run rest : List Char} (hrun : ∀ c ∈ run, p c = true)
    (hrest : ∀ c ∈ rest.head?, p c = false) :
    (run ++ rest).takeWhile p = run ∧ (run ++ rest).dropWhile p = rest := by
  rw [List.takeWhile_append_of_pos hrun, List.dropWhile_append_of_pos hrun]
  cases rest with
  | nil => simp
  | cons c rest => simp [hrest c rfl]

namespace Scan

variable {c : Char} {cs digits places rest : List Char} {t : Token}

/-- Digits that no point follows are the whole number. -/
theorem number_whole (hdigits : ∀ c ∈ digits, c.isDigit = true)
    (hrest : ∀ c ∈ rest.head?, c.isDigit = false ∧ c ≠ '.') :
    number (digits ++ rest) = ⟨.token (.number (String.ofList digits)), digits, rest⟩ := by
  obtain ⟨htake, hdrop⟩ := span_append hdigits fun c hc => (hrest c hc).1
  unfold number
  simp only [htake, hdrop]
  cases rest with
  | nil => rfl
  | cons c rest =>
    -- The other branch is for a point.
    have hpoint : c ≠ '.' := (hrest c rfl).2
    split
    · next heq => exact absurd (List.cons.inj heq).1 hpoint
    · rfl

/-- A point after the digits belongs to the number, and so do the digits after it. -/
theorem number_places (hdigits : ∀ c ∈ digits, c.isDigit = true)
    (hplaces : ∀ c ∈ places, c.isDigit = true) (hrest : ∀ c ∈ rest.head?, c.isDigit = false) :
    number (digits ++ '.' :: (places ++ rest)) =
      ⟨if places.isEmpty then .fault (.malformedNumber (String.ofList (digits ++ '.' :: places)))
        else .token (.number (String.ofList (digits ++ '.' :: places))),
        digits ++ '.' :: places, rest⟩ := by
  have hpoint : ∀ c ∈ ('.' :: (places ++ rest)).head?, c.isDigit = false := by simp
  obtain ⟨htake, hdrop⟩ := span_append hdigits hpoint
  obtain ⟨htakePlaces, hdropPlaces⟩ := span_append hplaces hrest
  unfold number
  simp only [htake, hdrop, htakePlaces, hdropPlaces]

theorem start_of_isDigit (hc : c.isDigit = true) : start (c :: cs) = number (c :: cs) := by
  have hsymbol : c ∉ Token.symbols := fun h => by simp [(class_of_mem_symbols h).1] at hc
  simp only [start, Token.ofSymbol?_eq_none hsymbol, hc, if_true]

theorem start_of_isAlpha (hc : c.isAlpha = true) : start (c :: cs) = name (c :: cs) := by
  have hsymbol : c ∉ Token.symbols := fun h => by simp [(class_of_mem_symbols h).2.1] at hc
  have hdigit : ¬ c.isDigit = true := fun h => by simp [isAlpha_of_isDigit h] at hc
  simp only [start, Token.ofSymbol?_eq_none hsymbol, if_neg hdigit, if_pos hc]

/-- **A word that nothing continues is read as it stands.** -/
theorem start_of_lexeme (ht : t.Lexeme) (hrest : t.EndsBefore rest) :
    start (t.text.toList ++ rest) = ⟨.token t, t.text.toList, rest⟩ := by
  cases t with
  | operator o => cases o <;> rfl
  | opening | closing => rfl
  | number s =>
    obtain ⟨cs, rfl⟩ : ∃ cs, s = String.ofList cs := ⟨s.toList, String.ofList_toList.symm⟩
    have hliteral : Literal cs := by simpa [Token.Lexeme] using ht
    obtain ⟨c, more, hcs, hc⟩ := hliteral.exists_cons
    have hstart : start (cs ++ rest) = number (cs ++ rest) := by
      rw [hcs]
      exact start_of_isDigit hc
    have hdigit : ∀ d ∈ rest.head?, d.isDigit = false := fun d hd => (hrest d hd).1
    simp only [Token.text, String.toList_ofList, hstart]
    cases hliteral with
    | whole _ all =>
      refine number_whole all fun d hd => ⟨hdigit d hd, (hrest d hd).2 ?_⟩
      -- All characters of the number are digits, and the point is none.
      rw [String.toList_ofList]
      exact fun hpoint => absurd (all _ hpoint) (by decide)
    | @places digits places _ all nonempty placesAll =>
      rw [List.append_assoc, List.cons_append, number_places all placesAll hdigit]
      simp [nonempty]
  | name s =>
    obtain ⟨hne, hall⟩ := ht
    obtain ⟨c, cs, hs⟩ := List.exists_cons_of_ne_nil hne
    obtain ⟨htake, hdrop⟩ := span_append hall hrest
    have hstart : start (s.toList ++ rest) = name (s.toList ++ rest) := by
      rw [hs]
      exact start_of_isAlpha (hall c (hs ▸ List.mem_cons_self))
    show start (s.toList ++ rest) = _
    rw [hstart, name, htake, hdrop, String.ofList_toList]
    rfl

/-- A number that ends in its point is a fault. -/
theorem start_of_malformed (hne : digits ≠ []) (hdigits : ∀ c ∈ digits, c.isDigit = true)
    (hrest : ∀ c ∈ rest.head?, c.isDigit = false) :
    start (digits ++ ['.'] ++ rest) =
      ⟨.fault (.malformedNumber (String.ofList (digits ++ ['.']))), digits ++ ['.'], rest⟩ := by
  have hnumber : number (digits ++ '.' :: ([] ++ rest)) = _ := number_places hdigits (by simp) hrest
  obtain ⟨c, more, rfl⟩ := List.exists_cons_of_ne_nil hne
  rw [List.append_assoc, List.singleton_append, List.cons_append,
    start_of_isDigit (hdigits c List.mem_cons_self)]
  simpa using hnumber

/-- A character that starts no token is a fault. -/
theorem start_of_startsNone (hc : Token.StartsNone c) :
    start (c :: rest) = ⟨.fault (.unexpectedCharacter c), [], c :: rest⟩ := by
  have hnone : c ∉ Token.symbols ∧ ¬ c.isDigit = true ∧ ¬ c.isAlpha = true := by
    simpa only [Token.CanStart, not_or] using Token.startsNone_iff.1 hc
  obtain ⟨hsymbol, hdigit, halpha⟩ := hnone
  simp only [start, Token.ofSymbol?_eq_none hsymbol, if_neg hdigit, if_neg halpha]

/-- What a scan answers where reading stops. -/
def ending : Option LexError → Reading
  | none => .finished
  | some e => .fault e

/-- **Where reading stops, so does the scan.** -/
theorem start_of_stops {fault? : Option LexError} {taken left : List Char}
    (h : Stops fault? taken left) : start (taken ++ left) = ⟨ending fault?, taken, left⟩ := by
  cases h with
  | finished => rfl
  | unexpected solid starts => exact start_of_startsNone starts
  | malformed nonempty all unfollowed => exact start_of_malformed nonempty all unfollowed

end Scan

/-! ### What a text starts with -/

/-- **The start of a text**: a word that nothing continues, or a place where reading stops. -/
inductive Starts : List Char → Prop where
  | word {t : Token} {rest : List Char} (lexeme : t.Lexeme) (ends : t.EndsBefore rest) :
      Starts (t.text.toList ++ rest)
  | stop {fault? : Option LexError} {taken left : List Char} (stops : Stops fault? taken left) :
      Starts (taken ++ left)

namespace Starts

variable {c : Char} {cs digits rest : List Char}

theorem of_literal (h : Literal digits)
    (hrest : ∀ c ∈ rest.head?, c.isDigit = false ∧ ('.' ∉ digits → c ≠ '.')) :
    Starts (digits ++ rest) := by
  have hword : Starts ((Token.number (String.ofList digits)).text.toList ++ rest) :=
    .word (by simpa [Token.Lexeme] using h) (by simpa [Token.EndsBefore] using hrest)
  simpa [Token.text] using hword

/-- A digit starts a number.  If a point follows the digits, the number goes on after it, or it is
    malformed. -/
theorem of_isDigit (hc : c.isDigit = true) : Starts (c :: cs) := by
  obtain ⟨digits, rest, hcut, hne, hdigits, hrest⟩ := exists_run_cons hc cs
  rw [hcut]
  by_cases hpoint : rest.head? = some '.'
  · obtain ⟨more, rfl⟩ := List.head?_eq_some_iff.1 hpoint
    obtain ⟨places, left, rfl, hplaces, hleft⟩ := exists_run Char.isDigit more
    by_cases hnone : places = []
    · subst hnone
      have hstop := Starts.stop (.malformed hne hdigits hleft)
      simpa using hstop
    · have hword := of_literal (.places hne hdigits hnone hplaces)
        fun d hd => ⟨hleft d hd, by simp⟩
      simpa using hword
  · refine of_literal (.whole hne hdigits) fun d hd => ⟨hrest d hd, ?_⟩
    rintro - rfl
    exact hpoint hd

/-- A letter starts a name. -/
theorem of_isAlpha (hc : c.isAlpha = true) : Starts (c :: cs) := by
  obtain ⟨letters, rest, hcut, hne, hletters, hrest⟩ := exists_run_cons hc cs
  have hword : Starts ((Token.name (String.ofList letters)).text.toList ++ rest) :=
    .word (by simpa [Token.Lexeme] using And.intro hne hletters)
      (by simpa [Token.EndsBefore] using hrest)
  rw [hcut]
  simpa [Token.text] using hword

/-- **A text that starts with no blank** starts with a word or stops there. -/
theorem of_solid (hsolid : ∀ c ∈ cs.head?, Text.isBlank c = false) : Starts cs := by
  rcases cs with _ | ⟨c, cs⟩
  · exact .stop .finished
  · by_cases hstart : Token.CanStart c
    · rcases hstart with hc | hc | hc
      · -- A symbol is a token, whatever follows.
        obtain ⟨t, ht⟩ := Option.isSome_iff_exists.1 ((Token.isSome_ofSymbol? c).2 hc)
        obtain ⟨hlexeme, htext, hends⟩ := Token.lexeme_of_ofSymbol? ht
        have hword := Starts.word hlexeme (hends cs)
        rwa [htext] at hword
      · exact of_isDigit hc
      · exact of_isAlpha hc
    · exact .stop (.unexpected (hsolid c rfl) (Token.startsNone_iff.2 hstart))

end Starts

/-! ### The cut that reading makes -/

/-- A word starts with no blank. -/
theorem Token.Lexeme.solid {t : Token} (h : t.Lexeme) (rest : List Char) :
    ∀ c ∈ (t.text.toList ++ rest).head?, Text.isBlank c = false := by
  obtain ⟨c, cs, htext, hc⟩ := h.exists_cons
  intro d hd
  obtain rfl : c = d := by simpa [htext] using hd
  exact isBlank_of_canStart hc

/-- Where reading stops, no blank stands. -/
theorem Stops.solid {fault? : Option LexError} {taken left : List Char}
    (h : Stops fault? taken left) : ∀ c ∈ (taken ++ left).head?, Text.isBlank c = false := by
  cases h with
  | finished => simp
  | unexpected hsolid => simpa using hsolid
  | @malformed digits left nonempty all unfollowed =>
    obtain ⟨d, more, rfl⟩ := List.exists_cons_of_ne_nil nonempty
    have hd : d.isDigit = true := all d List.mem_cons_self
    simpa using isBlank_of_canStart (.inr (.inl hd))

namespace Cursor

variable {c : Cursor} {blanks text taken left : List Char} {ts : List Token}
  {fault? : Option LexError}

/-- A read skips the blanks and scans the text after them. -/
theorem next_of_blanks (hblank : ∀ ch ∈ blanks, Text.isBlank ch = true)
    (hsolid : ∀ ch ∈ text.head?, Text.isBlank ch = false) (hrest : c.rest = blanks ++ text) :
    c.next = ((Scan.start text).reading,
      ⟨c.offset + Text.byteLength (blanks ++ (Scan.start text).taken),
        (Scan.start text).rest⟩) := by
  obtain ⟨htake, hdrop⟩ := span_append hblank hsolid
  simp only [next, hrest, htake, hdrop]

/-- A read at the last gap stops behind it. -/
theorem tokens_of_stops (hblank : ∀ ch ∈ blanks, Text.isBlank ch = true)
    (hs : Stops fault? taken left) (hrest : c.rest = blanks ++ (taken ++ left)) :
    c.tokens = ⟨[], fault?, ⟨c.offset + Text.byteLength (blanks ++ taken), left⟩⟩ := by
  have hnext := next_of_blanks hblank hs.solid hrest
  rw [Scan.start_of_stops hs] at hnext
  cases fault? with
  | none => rw [tokens_of_finished (by rw [hnext]; rfl), hnext]
  | some e => rw [tokens_of_fault (e := e) (by rw [hnext]; rfl), hnext]

/-- **Every cut is the one that reading makes.**  Nothing but the pieces matters: the tokens, what
    stops them, and the place where the cursor is left. -/
theorem tokens_of_segmented (h : Segmented text ts (taken ++ left)) (hs : Stops fault? taken left)
    (hrest : c.rest = text ++ (taken ++ left)) :
    c.tokens = ⟨ts, fault?, ⟨c.offset + Text.byteLength (text ++ taken), left⟩⟩ := by
  generalize hend : taken ++ left = rest at h hrest
  induction h generalizing c with
  | gap hblank => exact tokens_of_stops hblank hs (hend ▸ hrest)
  | @token blanks text rest t ts hblank hlexeme hends later ih =>
    rw [List.append_assoc, List.append_assoc] at hrest
    have hnext := next_of_blanks hblank (hlexeme.solid _) hrest
    rw [Scan.start_of_lexeme hlexeme hends] at hnext
    have hlater := ih hend (c := c.next.2) (by rw [hnext])
    rw [tokens_of_token (t := t) (by rw [hnext]), hlater, hnext]
    simp [Nat.add_assoc]

end Cursor

/-- **Every text can be cut**, up to its end or to a fault. -/
theorem exists_segmented (cs : List Char) :
    ∃ text ts fault? taken left, cs = text ++ (taken ++ left) ∧ Segmented text ts (taken ++ left) ∧
      Stops fault? taken left := by
  induction hn : cs.length using Nat.strong_induction_on generalizing cs with
  | _ n ih =>
    obtain ⟨blanks, rest, rfl, hblank, hsolid⟩ := exists_run Text.isBlank cs
    cases Starts.of_solid hsolid with
    | stop hs => exact ⟨blanks, [], _, _, _, rfl, .gap hblank, hs⟩
    | @word t rest hlexeme hends =>
      -- A word takes a character at least, so a shorter text is left to cut.
      obtain ⟨c, cs, htext, -⟩ := hlexeme.exists_cons
      have hshorter : rest.length < n := by
        simp only [htext, List.length_append, List.length_cons] at hn
        omega
      obtain ⟨text, ts, fault?, taken, left, rfl, hcut, hs⟩ := ih _ hshorter rest rfl
      exact ⟨_, t :: ts, fault?, taken, left, by simp, .token hblank hlexeme hends hcut, hs⟩

/-- **The tokens of a source are its longest-match segmentation.**  The source is gap, token, gap,
    ..., token, gap, up to its end or to the first fault: nothing is lost or changed, every gap is
    blank, and every token is a word that what follows does not continue.  The end is reported
    exactly if nothing is left.  A fault names what stands there, a character that starts no token
    or digits with a point and no digit after it.  No other cut of the source is of this kind. -/
theorem source_segmented (source : String) :
    (∃ text taken left, source.toList = text ++ (taken ++ left) ∧
      Segmented text (sourceTokens source) (taken ++ left) ∧
      Stops (sourceFault? source) taken left ∧
      (Cursor.ofSource source).tokens.stop = ⟨Text.byteLength (text ++ taken), left⟩ ∧
      (sourceFault? source = none ↔ taken ++ left = [])) ∧
    ∀ text ts fault? taken left, source.toList = text ++ (taken ++ left) →
      Segmented text ts (taken ++ left) → Stops fault? taken left →
      ts = sourceTokens source ∧ fault? = sourceFault? source := by
  constructor
  · obtain ⟨text, ts, fault?, taken, left, hcut, hsegmented, hs⟩ := exists_segmented source.toList
    have hread := Cursor.tokens_of_segmented hsegmented hs (c := .ofSource source) hcut
    refine ⟨text, taken, left, hcut, ?_, ?_, ?_, ?_⟩
    · rw [sourceTokens, hread]
      exact hsegmented
    · rw [sourceFault?, hread]
      exact hs
    · rw [hread]
      simp [Cursor.ofSource]
    · rw [sourceFault?, hread]
      cases hs <;> simp
  · intro text ts fault? taken left hcut hsegmented hs
    have hread := Cursor.tokens_of_segmented hsegmented hs (c := .ofSource source) hcut
    rw [sourceTokens, sourceFault?, hread]
    exact ⟨rfl, rfl⟩

end Reckoner
