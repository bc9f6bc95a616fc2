import Mathlib.Data.List.Chain
import Reckoner.Calculator
import Reckoner.Proofs.Rendering

namespace Reckoner

/-!
# Gaps between words

Blanks between words only matter where two words would be read as one: two numbers or two names
need a gap, and all other neighbours may touch.  A `Spacing` is a list of words of the language with
blank gaps around them, chosen freely.

* `Token.endsBefore_text_iff` — which words may touch;
* `Segmented.token_iff` — a cut is a cut of its first word and of what is after the word;
* `Spacing.segmented_iff` — a text of words and gaps is cut into these words exactly if the words
  are apart;
* `source_surrounded` — blanks at the ends of any source, with a fault or without, change nothing;
* `source_respaced` — words that are apart are read as these words, up to the end of the text, and
  what the text comes to does not depend on the gaps.
-/

namespace Token

/-- Whether a token is a number. -/
def isNumber : Token → Bool
  | number _ => true
  | _ => false

/-- Whether a token is a name. -/
def isName : Token → Bool
  | name _ => true
  | _ => false

/-- Whether two words make one if nothing stands between them: two numbers or two names. -/
def joins (t u : Token) : Bool :=
  t.isNumber && u.isNumber || t.isName && u.isName

variable {t u : Token}

/-- The first character of a word tells its kind. -/
theorem Lexeme.exists_first (h : u.Lexeme) :
    ∃ c cs, u.text.toList = c :: cs ∧ c ≠ '.' ∧ c.isDigit = u.isNumber ∧ c.isAlpha = u.isName := by
  cases u with
  | operator | opening | closing =>
    obtain ⟨c, hc, htext⟩ := h
    obtain ⟨hdigit, halpha, -⟩ := class_of_mem_symbols hc
    refine ⟨c, [], htext, ?_, hdigit, halpha⟩
    rintro rfl
    exact absurd hc (by decide)
  | number s =>
    obtain ⟨c, cs, hs, hdigit⟩ := Literal.exists_cons h
    refine ⟨c, cs, hs, ?_, hdigit, isAlpha_of_isDigit hdigit⟩
    rintro rfl
    exact absurd hdigit (by decide)
  | name s =>
    obtain ⟨hne, hall⟩ := h
    obtain ⟨c, cs, hs⟩ := List.exists_cons_of_ne_nil hne
    have halpha : c.isAlpha = true := hall c (hs ▸ List.mem_cons_self)
    refine ⟨c, cs, hs, ?_, ?_, halpha⟩
    · rintro rfl
      exact absurd halpha (by decide)
    · show c.isDigit = false
      by_contra hdigit
      rw [Bool.not_eq_false] at hdigit
      rw [isAlpha_of_isDigit hdigit] at halpha
      cases halpha

/-- **Which words may touch.**  A word ends before the next one exactly if the two do not make
    one. -/
theorem endsBefore_text_iff (hu : u.Lexeme) (rest : List Char) :
    t.EndsBefore (u.text.toList ++ rest) ↔ t.joins u = false := by
  obtain ⟨c, cs, htext, hpoint, hdigit, halpha⟩ := hu.exists_first
  rw [htext, List.cons_append]
  unfold EndsBefore joins
  cases t with
  | operator | opening | closing => simp [isNumber, isName]
  | number s => simp [isNumber, isName, hdigit, hpoint]
  | name s => simp [isNumber, isName, halpha]

end Token

/-- No blank is among the characters of words. -/
theorem class_of_isBlank {c : Char} (h : Text.isBlank c = true) :
    c.isDigit = false ∧ c.isAlpha = false ∧ c ≠ '.' := by
  have hstart : ¬ Token.CanStart c := by
    intro hc
    rw [isBlank_of_canStart hc] at h
    cases h
  rw [Token.CanStart, not_or, not_or, Bool.not_eq_true, Bool.not_eq_true] at hstart
  refine ⟨hstart.2.1, hstart.2.2, ?_⟩
  rintro rfl
  exact absurd h (by decide)

/-- Blanks separate, whatever is behind them. -/
theorem separates_of_blank {blanks rest : List Char} (h : ∀ c ∈ blanks, Text.isBlank c = true)
    (hrest : blanks = [] → Separates rest) : Separates (blanks ++ rest) := by
  cases blanks with
  | nil => exact hrest rfl
  | cons c blanks =>
    intro d hd
    obtain rfl : c = d := Option.some.inj hd
    exact class_of_isBlank (h c List.mem_cons_self)

/-! ### Cuts with blanks -/

section Cuts

variable {blanks text rest taken left : List Char} {t : Token} {ts : List Token}
  {fault? : Option LexError}

/-- **A cut, word by word.**  A text with a word behind its blanks is cut at this word exactly if
    the word ends there and what is after it is cut. -/
theorem Segmented.token_iff (hblank : ∀ c ∈ blanks, Text.isBlank c = true) (ht : t.Lexeme) :
    Segmented (blanks ++ (t.text.toList ++ text)) (t :: ts) rest ↔
      t.EndsBefore (text ++ rest) ∧ Segmented text ts rest := by
  constructor
  · intro h
    generalize hcs : blanks ++ (t.text.toList ++ text) = cs at h
    cases h with
    | @token blanks' text' _ _ _ hblank' lexeme ends later =>
      -- The gap is the whole run of blanks, so there is no other choice for it.
      obtain ⟨-, hdrop⟩ := span_append hblank (ht.solid text)
      obtain ⟨-, hdrop'⟩ := span_append hblank' (lexeme.solid text')
      rw [hcs, hdrop'] at hdrop
      obtain rfl : text' = text := List.append_cancel_left hdrop
      exact ⟨ends, later⟩
  · rintro ⟨hends, hlater⟩
    exact .token hblank ht hends hlater

/-- A word does not mind blanks at the end of what follows it. -/
theorem Token.EndsBefore.append_blank (h : t.EndsBefore rest)
    (hblank : ∀ c ∈ blanks, Text.isBlank c = true) : t.EndsBefore (rest ++ blanks) := by
  cases rest with
  | cons c rest => exact h
  | nil =>
    have hsep : Separates (blanks ++ []) := separates_of_blank hblank fun _ => by simp [Separates]
    rw [List.append_nil] at hsep
    exact hsep.endsBefore t

/-- Neither does a cut. -/
theorem Segmented.append_blank (h : Segmented text ts rest)
    (hblank : ∀ c ∈ blanks, Text.isBlank c = true) : Segmented text ts (rest ++ blanks) := by
  induction h with
  | gap hgap => exact .gap hgap
  | token hgap lexeme ends later ih =>
    refine .token hgap lexeme ?_ ih
    rw [← List.append_assoc]
    exact ends.append_blank hblank

/-- Nor does a fault, which leaves them. -/
theorem Stops.append_blank {e : LexError} (h : Stops (some e) taken left)
    (hblank : ∀ c ∈ blanks, Text.isBlank c = true) : Stops (some e) taken (left ++ blanks) := by
  cases h with
  | unexpected solid starts => exact .unexpected solid starts
  | malformed nonempty all unfollowed =>
    refine .malformed nonempty all ?_
    cases left with
    | cons c left => exact unfollowed
    | nil => exact fun c hc => (class_of_isBlank (hblank c (List.mem_of_mem_head? hc))).1

/-- A cut of a source gives its tokens and its fault. -/
theorem source_of_cut {source : String} (hcut : source.toList = text ++ (taken ++ left))
    (h : Segmented text ts (taken ++ left)) (hs : Stops fault? taken left) :
    sourceTokens source = ts ∧ sourceFault? source = fault? := by
  have hread := Cursor.tokens_of_segmented h hs (c := .ofSource source) hcut
  rw [sourceTokens, sourceFault?, hread]
  exact ⟨rfl, rfl⟩

/-- **Blanks at the two ends of a source** change neither its tokens nor its fault. -/
theorem source_surrounded (cs : List Char) {before after : List Char}
    (hbefore : ∀ c ∈ before, Text.isBlank c = true) (hafter : ∀ c ∈ after, Text.isBlank c = true) :
    sourceTokens (String.ofList (before ++ (cs ++ after))) = sourceTokens (String.ofList cs) ∧
      sourceFault? (String.ofList (before ++ (cs ++ after))) = sourceFault? (String.ofList cs) := by
  obtain ⟨text, ts, fault?, taken, left, rfl, h, hs⟩ := exists_segmented cs
  obtain ⟨hread, hfault⟩ := source_of_cut String.toList_ofList h hs
  have hlonger := h.append_blank hafter
  rw [hread, hfault]
  cases fault? with
  | none =>
    -- At the end of the text, the blanks become its last gap.
    cases hs
    have htext : Segmented text ts (after ++ []) := by simpa using hlonger
    have hgap : Segmented after [] [] := .gap hafter
    have hwhole := (htext.append hgap).prepend hbefore
    rw [List.append_nil] at hwhole
    exact source_of_cut (by simp) hwhole .finished
  | some e =>
    rw [List.append_assoc] at hlonger
    exact source_of_cut (by simp) (hlonger.prepend hbefore) (hs.append_blank hafter)

end Cuts

/-- **Words with gaps around them**, one before the first word and one after each. -/
structure Spacing where
  lead : List Char
  words : List (Token × List Char)
  lead_blank : ∀ c ∈ lead, Text.isBlank c = true
  lexeme : ∀ w ∈ words, w.1.Lexeme
  gap_blank : ∀ w ∈ words, ∀ c ∈ w.2, Text.isBlank c = true

namespace Spacing

/-- The text of words, each with the gap after it. -/
def write (words : List (Token × List Char)) : List Char :=
  words.flatMap fun w => w.1.text.toList ++ w.2

/-- A gap stands between two words that would make one. -/
def Apart (words : List (Token × List Char)) : Prop :=
  words.IsChain fun v w => v.1.joins w.1 = true → v.2 ≠ []

/-- The words alone. -/
def tokens (s : Spacing) : List Token := s.words.map Prod.fst

/-- The text as a whole. -/
def source (s : Spacing) : String := String.ofList (s.lead ++ write s.words)

theorem write_cons (t : Token) (gap : List Char) (words : List (Token × List Char)) :
    write ((t, gap) :: words) = t.text.toList ++ (gap ++ write words) := by
  simp [write]

section Words

variable {lead gap : List Char} {t : Token} {words : List (Token × List Char)}

/-- A word ends before its gap and the next word, unless it makes one with that word. -/
theorem endsBefore_iff (hgap : ∀ c ∈ gap, Text.isBlank c = true)
    (hlexeme : ∀ w ∈ words, w.1.Lexeme) :
    t.EndsBefore (gap ++ write words) ↔ ∀ w ∈ words.head?, t.joins w.1 = true → gap ≠ [] := by
  by_cases hne : gap = []
  · subst hne
    rw [List.nil_append]
    cases words with
    | nil => simp [write, Token.EndsBefore]
    | cons w words =>
      obtain ⟨u, gap'⟩ := w
      rw [write_cons, Token.endsBefore_text_iff (hlexeme _ List.mem_cons_self)]
      simp
  · have hsep : Separates (gap ++ write words) := separates_of_blank hgap fun h => absurd h hne
    have hends := hsep.endsBefore t
    exact ⟨fun _ _ _ _ => hne, fun _ => hends⟩

/-- **A text of words and gaps** is cut into these words exactly if the words are apart. -/
theorem segmented_iff (hlead : ∀ c ∈ lead, Text.isBlank c = true)
    (hlexeme : ∀ w ∈ words, w.1.Lexeme)
    (hgap : ∀ w ∈ words, ∀ c ∈ w.2, Text.isBlank c = true) :
    Segmented (lead ++ write words) (words.map Prod.fst) [] ↔ Apart words := by
  induction words generalizing lead with
  | nil =>
    have hblank : ∀ c ∈ lead ++ write [], Text.isBlank c = true := by simpa [write] using hlead
    exact ⟨fun _ => .nil, fun _ => .gap hblank⟩
  | cons w words ih =>
    obtain ⟨t, gap⟩ := w
    obtain ⟨ht, hlexeme⟩ := List.forall_mem_cons.1 hlexeme
    obtain ⟨hblank, hgap⟩ := List.forall_mem_cons.1 hgap
    rw [write_cons, List.map_cons, Segmented.token_iff hlead ht, List.append_nil,
      endsBefore_iff hblank hlexeme, ih hblank hlexeme hgap]
    unfold Apart
    rw [List.isChain_cons]

end Words

/-- **Words that are apart are read as they are**, up to the end of the text; and words that are
    not are read as others. -/
theorem tokens_source_iff (s : Spacing) :
    (Cursor.ofSource s.source).tokens = ⟨s.tokens, none, ⟨s.source.utf8ByteSize, []⟩⟩ ↔
      Apart s.words := by
  have hcut := segmented_iff s.lead_blank s.lexeme s.gap_blank
  have htext : s.source.toList = s.lead ++ write s.words := String.toList_ofList
  rw [← hcut, ← htext]
  constructor
  · intro h
    have hfault : sourceFault? s.source = none := by rw [sourceFault?, h]
    have hread := segmented_of_faultless hfault
    rwa [sourceTokens, h] at hread
  · intro h
    have hrest : (Cursor.ofSource s.source).rest = s.source.toList ++ ([] ++ []) := by
      simp [Cursor.ofSource]
    rw [Cursor.tokens_of_segmented h .finished hrest, List.append_nil,
      ← Text.utf8ByteSize_ofList, String.ofList_toList]
    simp [Cursor.ofSource, tokens]

end Spacing

/-! ### Sources with the same tokens -/

section Sources

variable {source source' : String}

/-- The tokens of a source and their end are all that a compilation sees. -/
theorem compile_congr (htokens : sourceTokens source = sourceTokens source')
    (hfault : sourceFault? source = sourceFault? source') : compile source = compile source' := by
  rw [compile_eq_compileTokens, compile_eq_compileTokens, htokens, hfault]

/-- A compilation is all that an evaluation sees. -/
theorem eval_congr (h : compile source = compile source') :
    eval source = eval source' ∧ evaluate source = evaluate source' := by
  unfold eval evaluate
  rw [h]
  exact ⟨rfl, rfl⟩

end Sources

/-- **Gaps mean nothing.**  Words of the language, with blank gaps around them, are read as exactly
    these words and then the end of the text, as long as a gap stands between any two that would
    make one, and only then.  Hence two texts of the same words compile alike, to the same program
    or the same error, and have the same value and the same listing. -/
theorem source_respaced :
    (∀ s : Spacing,
      (Cursor.ofSource s.source).tokens = ⟨s.tokens, none, ⟨s.source.utf8ByteSize, []⟩⟩ ↔
        Spacing.Apart s.words) ∧
    ∀ s s' : Spacing, Spacing.Apart s.words → Spacing.Apart s'.words → s.tokens = s'.tokens →
      compile s.source = compile s'.source ∧ eval s.source = eval s'.source ∧
        evaluate s.source = evaluate s'.source := by
  refine ⟨Spacing.tokens_source_iff, ?_⟩
  intro s s' hs hs' htokens
  have hread := s.tokens_source_iff.2 hs
  have hread' := s'.tokens_source_iff.2 hs'
  have hcompile : compile s.source = compile s'.source := by
    apply compile_congr
    · rw [sourceTokens, sourceTokens, hread, hread', htokens]
    · rw [sourceFault?, sourceFault?, hread, hread']
  exact ⟨hcompile, eval_congr hcompile⟩

/-- A number and a name may touch: `2e3` is three words, and other gaps do not change the error. -/
theorem source_respaced_touching :
    ∃ s s' : Spacing, s.source = "2e3" ∧ s'.source = "\uFEFF2 e3\n" ∧
      Spacing.Apart s.words ∧ Spacing.Apart s'.words ∧ s.tokens = s'.tokens ∧
      (Cursor.ofSource s.source).tokens
        = ⟨[.number "2", .name "e", .number "3"], none, ⟨3, []⟩⟩ ∧
      compile s.source = compile s'.source ∧
      (compile s'.source).rejection? = some (.trailingToken (.name "e")) := by
  have hrejected : (compile "\uFEFF2 e3\n").rejection? = some (.trailingToken (.name "e")) := by
    decide +kernel
  have hlexeme : ∀ t ∈ [.number "2", .name "e", .number "3"], Token.Lexeme t := by
    simp only [List.forall_mem_cons]
    exact ⟨.whole (by decide) (List.all_eq_true.1 (by decide)),
      ⟨by decide, List.all_eq_true.1 (by decide)⟩,
      .whole (by decide) (List.all_eq_true.1 (by decide)), by simp⟩
  let s : Spacing :=
    { lead := []
      words := [(.number "2", []), (.name "e", []), (.number "3", [])]
      lead_blank := by simp
      lexeme := fun w hw => hlexeme w.1 (List.mem_map_of_mem (f := Prod.fst) hw)
      gap_blank := by simp }
  let s' : Spacing :=
    { lead := ['\uFEFF']
      words := [(.number "2", [' ']), (.name "e", []), (.number "3", ['\n'])]
      lead_blank := List.all_eq_true.1 (by decide)
      lexeme := fun w hw => hlexeme w.1 (List.mem_map_of_mem (f := Prod.fst) hw)
      gap_blank := by
        simp only [List.forall_mem_cons]
        exact ⟨⟨by decide, by simp⟩, by simp, ⟨by decide, by simp⟩, by simp⟩ }
  have hs : Spacing.Apart s.words := by
    simp [Spacing.Apart, s, Token.joins, Token.isNumber, Token.isName]
  have hs' : Spacing.Apart s'.words := by
    simp [Spacing.Apart, s', Token.joins, Token.isNumber, Token.isName]
  exact ⟨s, s', rfl, rfl, hs, hs', rfl, (source_respaced.1 s).2 hs,
    (source_respaced.2 s s' hs hs' rfl).1, hrejected⟩

end Reckoner
