import Reckoner.Proofs.Phrase
import Reckoner.Proofs.Segmentation

namespace Reckoner

/-!
# Sources with given tokens

Tokens are written back as texts that read as these tokens.

* `exists_source_of_lexemes` — any words are the tokens of some source, with a space after each;
* `Phrase.segmented` — the words of a phrase need no blanks between them, for a phrase never has two
  numbers or names side by side.
-/

/-- The characters of tokens, with nothing between them. -/
def Token.writing (ts : List Token) : List Char := ts.flatMap fun t => t.text.toList

@[simp] theorem Token.writing_nil : Token.writing [] = [] := rfl

@[simp] theorem Token.writing_cons (t : Token) (ts : List Token) :
    Token.writing (t :: ts) = t.text.toList ++ Token.writing ts := rfl

@[simp] theorem Token.writing_append (ts us : List Token) :
    Token.writing (ts ++ us) = Token.writing ts ++ Token.writing us := by
  simp [Token.writing]

/-- What separates words: no digit, no letter and no point stands first. -/
def Separates (rest : List Char) : Prop :=
  ∀ c ∈ rest.head?, c.isDigit = false ∧ c.isAlpha = false ∧ c ≠ '.'

/-- Behind what separates, any word ends. -/
theorem Separates.endsBefore {rest : List Char} (h : Separates rest) (t : Token) :
    t.EndsBefore rest := by
  intro c hc
  obtain ⟨hdigit, halpha, hpoint⟩ := h c hc
  cases t with
  | operator | opening | closing => trivial
  | number s => exact ⟨hdigit, fun _ => hpoint⟩
  | name s => exact halpha

namespace Segmented

variable {text rest : List Char} {ts : List Token} {t : Token}

/-- All tokens of a cut are words. -/
theorem lexeme (h : Segmented text ts rest) : ∀ t ∈ ts, t.Lexeme := by
  induction h with
  | gap => simp
  | token _ hlexeme _ _ ih =>
    intro u hu
    rcases List.mem_cons.1 hu with rfl | hu
    · exact hlexeme
    · exact ih u hu

/-- Blanks may stand before a cut. -/
theorem prepend {blanks : List Char} (hblank : ∀ c ∈ blanks, Text.isBlank c = true)
    (h : Segmented text ts rest) : Segmented (blanks ++ text) ts rest := by
  have hblanks {more : List Char} (hmore : ∀ c ∈ more, Text.isBlank c = true) :
      ∀ c ∈ blanks ++ more, Text.isBlank c = true := by
    intro c hc
    rcases List.mem_append.1 hc with hc | hc
    · exact hblank c hc
    · exact hmore c hc
  cases h with
  | gap hmore => exact .gap (hblanks hmore)
  | token hmore lexeme ends later =>
    rw [← List.append_assoc]
    exact .token (hblanks hmore) lexeme ends later

/-- A word may stand directly before a cut, if nothing continues it there. -/
theorem cons (ht : t.Lexeme) (hends : t.EndsBefore (text ++ rest)) (h : Segmented text ts rest) :
    Segmented (t.text.toList ++ text) (t :: ts) rest := by
  have hnone : ∀ c ∈ ([] : List Char), Text.isBlank c = true := by simp
  exact .token hnone ht hends h

/-- Nothing continues a symbol, and a symbol continues nothing. -/
theorem cons_symbol {c : Char} (ht : Token.ofSymbol? c = some t) (h : Segmented text ts rest) :
    Segmented (t.text.toList ++ text) (t :: ts) rest ∧
      Separates (t.text.toList ++ text ++ rest) := by
  obtain ⟨hlexeme, htext, hends⟩ := Token.lexeme_of_ofSymbol? ht
  refine ⟨h.cons hlexeme (hends _), ?_⟩
  have hc : c ∈ Token.symbols := (Token.isSome_ofSymbol? c).1 (by rw [ht]; rfl)
  intro d hd
  obtain rfl : c = d := by simpa [htext] using hd
  obtain ⟨hdigit, halpha, -⟩ := class_of_mem_symbols hc
  refine ⟨hdigit, halpha, ?_⟩
  rintro rfl
  exact absurd hc (by decide)

/-- A cut may go on with anything that separates. -/
theorem follow {rest' : List Char} (h : Segmented text ts rest) (hsep : Separates rest') :
    Segmented text ts rest' := by
  induction h with
  | gap hblank => exact .gap hblank
  | @token blanks text rest t ts hblank lexeme ends later ih =>
    refine .token hblank lexeme ?_ ih
    -- Only the first character behind the word matters.
    cases text with
    | nil => exact hsep.endsBefore t
    | cons c text => exact fun d hd => ends d hd

/-- Two cuts in a row are a cut. -/
theorem append {text' : List Char} {us : List Token} (h : Segmented text ts (text' ++ rest))
    (h' : Segmented text' us rest) : Segmented (text ++ text') (ts ++ us) rest := by
  generalize hend : text' ++ rest = end_ at h
  induction h with
  | gap hblank => exact h'.prepend hblank
  | @token blanks text _ t ts hblank lexeme ends later ih =>
    subst hend
    rw [List.append_assoc, List.append_assoc]
    refine .token hblank lexeme ?_ (ih rfl)
    rwa [List.append_assoc]

/-- **A cut may be divided** between any two tokens. -/
theorem exists_of_append {past inside : List Token} (h : Segmented text (past ++ inside) rest) :
    ∃ before after, text = before ++ after ∧ Segmented before past (after ++ rest) ∧
      Segmented after inside rest := by
  induction past generalizing text with
  | nil => exact ⟨[], text, rfl, .gap (by simp), h⟩
  | cons t past ih =>
    cases h with
    | @token blanks text _ _ _ hblank lexeme ends later =>
      obtain ⟨before, after, rfl, hpast, hinside⟩ := ih later
      refine ⟨blanks ++ (t.text.toList ++ before), after, by simp, ?_, hinside⟩
      refine .token hblank lexeme ?_ hpast
      rwa [List.append_assoc] at ends

/-- **Where a token stands** in a cut: what is before it is cut into the tokens before it, and what
    is after it into the tokens after it. -/
theorem exists_of_append_cons {past future : List Token}
    (h : Segmented text (past ++ t :: future) rest) :
    ∃ before after, text = before ++ (t.text.toList ++ after) ∧
      Segmented before past (t.text.toList ++ (after ++ rest)) ∧ t.Lexeme ∧
      t.EndsBefore (after ++ rest) ∧ Segmented after future rest := by
  obtain ⟨before, behind, rfl, hpast, hbehind⟩ := h.exists_of_append
  cases hbehind with
  | @token blanks after _ _ _ hblank lexeme ends later =>
    -- The blanks before the token go to what is before it.
    refine ⟨before ++ blanks, after, by simp, ?_, lexeme, ends, later⟩
    rw [List.append_assoc, List.append_assoc] at hpast
    have hgap := hpast.append (.gap hblank)
    rwa [List.append_nil] at hgap

end Segmented

/-! ### Words with spaces between them -/

/-- Words with a space after each are cut back into these words. -/
theorem segmented_spaced {ts : List Token} (h : ∀ t ∈ ts, t.Lexeme) :
    Segmented (ts.flatMap fun t => t.text.toList ++ [' ']) ts [] := by
  induction ts with
  | nil => exact .gap (by simp)
  | cons t ts ih =>
    have hspace : ∀ c ∈ [' '], Text.isBlank c = true := by
      intro c hc
      obtain rfl := List.mem_singleton.1 hc
      decide
    have hlater := (ih fun u hu => h u (List.mem_cons_of_mem t hu)).prepend hspace
    rw [List.flatMap_cons, List.append_assoc]
    refine hlater.cons (h t List.mem_cons_self) (Separates.endsBefore ?_ t)
    intro c hc
    obtain rfl : ' ' = c := by simpa using hc
    decide

/-- A cut of the whole source gives its tokens. -/
theorem sourceTokens_of_segmented {source : String} {ts : List Token}
    (h : Segmented source.toList ts []) :
    sourceTokens source = ts ∧ sourceFault? source = none := by
  have hrest : (Cursor.ofSource source).rest = source.toList ++ ([] ++ []) := by
    simp [Cursor.ofSource]
  have hread := Cursor.tokens_of_segmented h .finished hrest
  rw [sourceTokens, sourceFault?, hread]
  exact ⟨rfl, rfl⟩

/-- A source without a fault is cut into its tokens. -/
theorem segmented_of_faultless {source : String} (h : sourceFault? source = none) :
    Segmented source.toList (sourceTokens source) [] := by
  obtain ⟨text, ts, fault?, taken, left, hcut, hsegmented, hs⟩ := exists_segmented source.toList
  have hread := Cursor.tokens_of_segmented hsegmented hs (c := .ofSource source) hcut
  rw [sourceFault?, hread] at h
  rw [sourceTokens, hread, hcut]
  obtain rfl : fault? = none := h
  cases hs with
  | finished => simpa using hsegmented

/-- **Any words are the tokens of some source.** -/
theorem exists_source_of_lexemes {ts : List Token} (h : ∀ t ∈ ts, t.Lexeme) :
    ∃ source, sourceTokens source = ts ∧ sourceFault? source = none := by
  refine ⟨String.ofList (ts.flatMap fun t => t.text.toList ++ [' ']), sourceTokens_of_segmented ?_⟩
  rw [String.toList_ofList]
  exact segmented_spaced h

/-! ### Phrases need no spaces -/

/-- **A phrase is written without blanks.**  The induction carries what follows the phrase: a cut
    that does not continue its last word. -/
theorem Phrase.segmented {p : Phrase} (hp : ∀ t ∈ p.tokens, t.Lexeme) {text rest : List Char}
    {ts : List Token} (h : Segmented text ts rest) (hsep : Separates (text ++ rest)) :
    Segmented (Token.writing p.tokens ++ text) (p.tokens ++ ts) rest := by
  induction p generalizing text ts with
  | number s =>
    have hword := h.cons (hp _ List.mem_cons_self) (hsep.endsBefore _)
    simpa [tokens] using hword
  | name s =>
    have hword := h.cons (hp _ List.mem_cons_self) (hsep.endsBefore _)
    simpa [tokens] using hword
  | call f a ih =>
    obtain ⟨hclosing, hfollow⟩ := h.cons_symbol (c := ')') (t := .closing) rfl
    have hbody := ih (fun t ht => hp t (by simp [tokens, ht])) hclosing hfollow
    obtain ⟨hopening, hbefore⟩ := hbody.cons_symbol (c := '(') (t := .opening) rfl
    have hword := hopening.cons (hp _ List.mem_cons_self) (hbefore.endsBefore (.name f))
    simpa [tokens] using hword
  | group a ih =>
    obtain ⟨hclosing, hfollow⟩ := h.cons_symbol (c := ')') (t := .closing) rfl
    have hbody := ih (fun t ht => hp t (by simp [tokens, ht])) hclosing hfollow
    obtain ⟨hopening, -⟩ := hbody.cons_symbol (c := '(') (t := .opening) rfl
    simpa [tokens] using hopening
  | sign negative a ih =>
    have hbody := ih (fun t ht => hp t (by simp [tokens, ht])) h hsep
    have hsign : ∃ c, Token.ofSymbol? c = some (.sign negative) := by
      cases negative with
      | true => exact ⟨'-', rfl⟩
      | false => exact ⟨'+', rfl⟩
    obtain ⟨c, hc⟩ := hsign
    have hword := (hbody.cons_symbol hc).1
    simpa [tokens] using hword
  | binary o a b iha ihb =>
    have hright := ihb (fun t ht => hp t (by simp [tokens, ht])) h hsep
    have ho : Token.ofSymbol? o.symbol = some (.operator o) := by cases o <;> rfl
    obtain ⟨hoperator, hfollow⟩ := hright.cons_symbol ho
    have hleft := iha (fun t ht => hp t (by simp [tokens, ht])) hoperator hfollow
    simpa [tokens] using hleft

end Reckoner
