import Reckoner.Proofs.BlankLines
import Reckoner.Proofs.Context
import Reckoner.Proofs.Listing
import Reckoner.Proofs.NumberText

namespace Reckoner

/-!
# Answers are read back

The output for a file is cut back into its answers: at the line feeds, then at the first colon of
an entry and at its last equals sign.  The expression in between may be any text, also one with
colons and equals signs, but neither a number nor an outcome or a listing has what would disturb
the cuts.

* `Text.cutFirst?`, `Text.cutLast?` — a text cut at the first and at the last place of a mark;
* `Answer` — what an entry says, and `readAnswers?`, which reads it;
* `NumberText.isBlank_of_mem_shown` — no blank is in an outcome, and no line feed in a listing;
* `ofFile_readBack` — the answers of a file, in order, each depending on its own line alone.
-/

/-! ### Cuts at a mark -/

namespace Text

/-- Cut a text at the first place where a mark stands. -/
def cutFirst? (mark : List Char) : List Char → Option (List Char × List Char)
  | [] => none
  | c :: cs =>
    if mark.isPrefixOf (c :: cs) then some ([], (c :: cs).drop mark.length)
    else (cutFirst? mark cs).map fun (before, after) => (c :: before, after)

/-- Cut a text at the last place where a mark stands. -/
def cutLast? (mark cs : List Char) : Option (List Char × List Char) :=
  (cutFirst? mark.reverse cs.reverse).map fun (after, before) => (before.reverse, after.reverse)

variable {mark cs before after : List Char} {c : Char}

/-- **The first place of a mark** is the one with the least before it. -/
theorem cutFirst?_eq_some_iff (hmark : mark ≠ []) :
    cutFirst? mark cs = some (before, after) ↔ cs = before ++ (mark ++ after) ∧
      ∀ before' after', cs = before' ++ (mark ++ after') → before.length ≤ before'.length := by
  induction cs generalizing before with
  | nil => simp [cutFirst?, hmark]
  | cons c cs ih =>
    rw [cutFirst?]
    by_cases hstart : mark <+: c :: cs
    · rw [if_pos (List.isPrefixOf_iff_prefix.2 hstart)]
      obtain ⟨rest, hrest⟩ := hstart
      rw [← hrest, List.drop_left]
      constructor
      · intro h
        obtain ⟨rfl, rfl⟩ := Prod.mk.inj (Option.some.inj h)
        exact ⟨rfl, fun _ _ _ => Nat.zero_le _⟩
      · rintro ⟨hcut, hleast⟩
        obtain rfl : before = [] := List.length_eq_zero_iff.1 (Nat.le_zero.1 (hleast [] rest rfl))
        rw [List.append_cancel_left hcut]
    · rw [if_neg (mt List.isPrefixOf_iff_prefix.1 hstart)]
      -- The mark does not stand here, so something stands before it wherever it does.
      have hlater : ∀ before' after', c :: cs = before' ++ (mark ++ after') →
          ∃ more, before' = c :: more ∧ cs = more ++ (mark ++ after') := by
        intro before' after' h
        cases before' with
        | nil => exact absurd ⟨after', h.symm⟩ hstart
        | cons d more =>
          obtain ⟨rfl, hmore⟩ := List.cons.inj h
          exact ⟨more, rfl, hmore⟩
      constructor
      · intro h
        obtain ⟨⟨more, after'⟩, hmore, heq⟩ := Option.map_eq_some_iff.1 h
        obtain ⟨rfl, rfl⟩ := Prod.mk.inj heq
        obtain ⟨hcut, hleast⟩ := ih.1 hmore
        refine ⟨congrArg _ hcut, fun before' after' h' => ?_⟩
        obtain ⟨more', rfl, hmore'⟩ := hlater before' after' h'
        exact Nat.succ_le_succ (hleast more' after' hmore')
      · rintro ⟨hcut, hleast⟩
        obtain ⟨more, rfl, hmore⟩ := hlater before after hcut
        rw [ih.2 ⟨hmore, fun more' after' h' => ?_⟩, Option.map_some]
        exact Nat.le_of_succ_le_succ (hleast (c :: more') after' (congrArg _ h'))

/-- **The last place of a mark** is the one with the least behind it. -/
theorem cutLast?_eq_some_iff (hmark : mark ≠ []) :
    cutLast? mark cs = some (before, after) ↔ cs = before ++ (mark ++ after) ∧
      ∀ before' after', cs = before' ++ (mark ++ after') → after.length ≤ after'.length := by
  have hreverse (before after : List Char) :
      cs.reverse = after.reverse ++ (mark.reverse ++ before.reverse)
        ↔ cs = before ++ (mark ++ after) := by
    have hreversed : (before ++ (mark ++ after)).reverse
        = after.reverse ++ (mark.reverse ++ before.reverse) := by
      simp
    rw [← hreversed, List.reverse_inj]
  have hcut : cutLast? mark cs = some (before, after)
      ↔ cutFirst? mark.reverse cs.reverse = some (after.reverse, before.reverse) := by
    rw [cutLast?, Option.map_eq_some_iff]
    constructor
    · rintro ⟨⟨xs, ys⟩, hxs, heq⟩
      obtain ⟨rfl, rfl⟩ := Prod.mk.inj heq
      simpa using hxs
    · intro h
      exact ⟨_, h, by simp⟩
  rw [hcut, cutFirst?_eq_some_iff (by simpa using hmark), hreverse]
  refine and_congr_right fun _ => ⟨fun h before' after' h' => ?_, fun h after' before' h' => ?_⟩
  · simpa using h after'.reverse before'.reverse ((hreverse _ _).2 h')
  · have hle := h before'.reverse after'.reverse
    rw [← hreverse] at hle
    simpa using hle (by simpa using h')

/-- A mark stands first behind a text without its first character. -/
theorem cutFirst?_of_not_mem (h : c ∉ before) (mark after : List Char) :
    cutFirst? (c :: mark) (before ++ (c :: mark ++ after)) = some (before, after) := by
  refine (cutFirst?_eq_some_iff (List.cons_ne_nil c mark)).2 ⟨rfl, fun before' after' hcut => ?_⟩
  obtain ⟨inside, rfl, -⟩ := exists_of_not_mem_left before hcut h
  simp

/-- A mark stands last before a text without its last character. -/
theorem cutLast?_of_not_mem (h : c ∉ after) (mark before : List Char) :
    cutLast? (mark ++ [c]) (before ++ (mark ++ [c] ++ after)) = some (before, after) := by
  refine (cutLast?_eq_some_iff (by simp)).2 ⟨rfl, fun before' after' hcut => ?_⟩
  have hends : (before ++ mark ++ [c]) ++ after = (before' ++ mark) ++ c :: after' := by
    simpa using hcut
  obtain ⟨inside, -, rfl⟩ := exists_of_not_mem_right hends h
  simp

end Text

/-! ### Outcomes and listings -/

/-- No character of a layout is blank. -/
theorem Significant.isBlank_of_mem_layout {s : Significant} (hs : s.Proper) :
    ∀ c ∈ s.layout, Text.isBlank c = false := by
  rw [layout]
  split
  · exact (writes_plain hs).literal.isBlank_of_mem
  · obtain ⟨x, hmantissa, -⟩ := writes_mantissa hs
    rw [scientific_eq, power]
    refine List.forall_mem_append.2 ⟨hmantissa.literal.isBlank_of_mem, ?_⟩
    refine List.forall_mem_cons.2 ⟨by decide, List.forall_mem_cons.2 ⟨?_, fun c hc => ?_⟩⟩
    · split <;> decide
    · exact isBlank_of_canStart (.inr (.inl (Decimal.isDigit_of_mem_digits hc)))

/-- No word of letters and digits has a blank. -/
theorem isBlank_of_mem_word {cs : List Char} (h : cs.all Char.isAlphanum = true) :
    ∀ c ∈ cs, Text.isBlank c = false := by
  intro c hc
  rcases Bool.or_eq_true_iff.1 (List.all_eq_true.1 h c hc) with halpha | hdigit
  · exact isBlank_of_canStart (.inr (.inr halpha))
  · exact isBlank_of_canStart (.inr (.inl hdigit))

namespace NumberText

theorem isBlank_of_mem_signed (negative : Bool) {cs : List Char}
    (h : ∀ c ∈ cs, Text.isBlank c = false) : ∀ c ∈ signed negative cs, Text.isBlank c = false := by
  cases negative with
  | false => exact h
  | true => exact List.forall_mem_cons.2 ⟨by decide, h⟩

/-- **No character of a value is blank**, as it is shown. -/
theorem isBlank_of_mem_shown (v : Float) : ∀ c ∈ (shown v).toList, Text.isBlank c = false := by
  rcases Nat.lt_trichotomy (Binary64.code v) Binary64.infinity with hfinite | hinfinite | hpast
  · rcases Nat.eq_zero_or_pos (Binary64.code v) with hzero | hpos
    · rw [shown_of_zero hzero]
      exact isBlank_of_mem_word (by decide)
    · rw [shown_of_finite hpos hfinite, String.toList_ofList]
      have hproper := Decimal.proper_shortest hpos (Nat.le_of_lt hfinite)
      exact isBlank_of_mem_signed _ (Significant.isBlank_of_mem_layout hproper)
  · rw [shown_of_infinity hinfinite, String.toList_ofList]
    exact isBlank_of_mem_signed _ (isBlank_of_mem_word (by decide))
  · rw [shown_of_infinity_lt hpast]
    exact isBlank_of_mem_word (by decide)

end NumberText

namespace Evaluation

/-- No outcome has a blank. -/
theorem isBlank_of_mem_text (e : Evaluation) : ∀ c ∈ e.text.toList, Text.isBlank c = false := by
  rw [text]
  cases e.outcome with
  | ok v => exact NumberText.isBlank_of_mem_shown v
  | error x =>
    exact isBlank_of_mem_word (show errorText.toList.all Char.isAlphanum = true by decide)

end Evaluation

/-- A listing has the characters of its instructions, and spaces. -/
theorem Program.mem_listing {p : Program} {c : Char} (h : c ∈ p.listing.toList) :
    c = ' ' ∨ ∃ i ∈ p, c ∈ i.text.toList := by
  induction p with
  | nil => cases h
  | cons i p ih =>
    by_cases hp : p = []
    · subst hp
      exact .inr ⟨i, List.mem_cons_self, by simpa [listing] using h⟩
    · rw [listing, List.map_cons, String.intercalate_cons_of_ne_nil (by simpa using hp)] at h
      simp only [String.toList_append, List.mem_append, or_assoc] at h
      rcases h with h | h | h
      · exact .inr ⟨i, List.mem_cons_self, h⟩
      · exact .inl (List.mem_singleton.1 h)
      · rcases ih h with hspace | ⟨j, hj, hmem⟩
        · exact .inl hspace
        · exact .inr ⟨j, List.mem_cons_of_mem i hj, hmem⟩

/-- No listing has a line feed. -/
theorem feed_not_mem_listing (source : String) : '\n' ∉ (evaluate source).listing.toList := by
  intro hfeed
  cases hrejection : (compile source).rejection? with
  | some e =>
    rw [evaluate, Compilation.program?, hrejection] at hfeed
    cases hfeed
  | none =>
    rw [evaluate, Compilation.program?, hrejection] at hfeed
    rcases Program.mem_listing hfeed with hspace | ⟨i, hi, hmem⟩
    · exact absurd hspace (by decide)
    · have hblank := Instruction.isBlank_of_mem_text (lexable_of_accepted hrejection i hi) _ hmem
      exact absurd hblank (by decide)

/-! ### Entries and answers -/

/-- **What an entry says**: its number, its expression, what the expression comes to, and the
    listing if there is one. -/
structure Answer where
  number : Nat
  expression : String
  outcome : String
  listing? : Option String
  deriving DecidableEq, Repr

namespace Answer

/-- The lines of an entry: one, and a second one for the listing. -/
def lines (a : Answer) : List String :=
  (Nat.repr a.number ++ ": " ++ a.expression ++ " = " ++ a.outcome) ::
    (a.listing?.map ("   " ++ ·)).toList

/-- Read the first line of an entry: the number before the first colon with a space, the outcome
    behind the last equals sign between spaces, and the expression in between. -/
def ofLine? (line : String) : Option Answer := do
  let (number, rest) ← Text.cutFirst? [':', ' '] line.toList
  let (expression, outcome) ← Text.cutLast? [' ', '=', ' '] rest
  let n ← (String.ofList number).toNat?
  return ⟨n, String.ofList expression, String.ofList outcome, none⟩

/-- Read the second line of an entry: the listing behind three spaces. -/
def listingOfLine? (line : String) : Option String :=
  match line.toList with
  | ' ' :: ' ' :: ' ' :: cs => some (String.ofList cs)
  | _ => none

/-- Read entries from their lines, with listings or without. -/
def ofLines? : Bool → List String → Option (List Answer)
  | _, [] => some []
  | false, line :: more => do
    let a ← ofLine? line
    return a :: (← ofLines? false more)
  | true, line :: second :: more => do
    let a ← ofLine? line
    let listed ← listingOfLine? second
    return { a with listing? := some listed } :: (← ofLines? true more)
  | true, [_] => none

/-- **An answer that can be read back**: its outcome has no blank, it has a listing if listings are
    wanted, and there is no line feed in it. -/
structure Readable (listing : Bool) (a : Answer) : Prop where
  expression : '\n' ∉ a.expression.toList
  outcome : ∀ c ∈ a.outcome.toList, Text.isBlank c = false
  listed : a.listing?.isSome = listing
  unfed : ∀ listed ∈ a.listing?, '\n' ∉ listed.toList

variable {a : Answer} {answers : List Answer} {listing : Bool}

theorem isDigit_of_mem_repr {n : Nat} {c : Char} (h : c ∈ (Nat.repr n).toList) :
    c.isDigit = true := by
  rw [Nat.toList_repr] at h
  exact Nat.isDigit_of_mem_toDigits (by decide) (by decide) h

/-- **The first line is read back**, whatever the expression is: no colon is in the number before
    it, and no space in the outcome behind it. -/
theorem ofLine?_line (h : a.Readable listing) :
    ofLine? (Nat.repr a.number ++ ": " ++ a.expression ++ " = " ++ a.outcome)
      = some { a with listing? := none } := by
  have hcolon : ':' ∉ (Nat.repr a.number).toList := fun hmem =>
    absurd (isDigit_of_mem_repr hmem) (by decide)
  have hspace : ' ' ∉ a.outcome.toList := fun hmem => absurd (h.outcome ' ' hmem) (by decide)
  have hline : (Nat.repr a.number ++ ": " ++ a.expression ++ " = " ++ a.outcome).toList
      = (Nat.repr a.number).toList ++
        (':' :: [' '] ++ (a.expression.toList ++ ([' ', '='] ++ [' '] ++ a.outcome.toList))) := by
    simp
  rw [ofLine?, hline, Text.cutFirst?_of_not_mem hcolon]
  -- What is left behind the first colon is cut at its last equals sign.
  have hlast := Text.cutLast?_of_not_mem hspace [' ', '='] a.expression.toList
  simp only [List.cons_append, List.nil_append, Option.bind_eq_bind, Option.bind_some] at hlast ⊢
  rw [hlast]
  simp only [Option.bind_some, String.ofList_toList, Nat.toNat?_repr]
  rfl

/-- The second line is read back. -/
theorem listingOfLine?_line (listed : String) : listingOfLine? ("   " ++ listed) = some listed := by
  have hline : ("   " ++ listed).toList = ' ' :: ' ' :: ' ' :: listed.toList := by simp
  rw [listingOfLine?, hline]
  simp

/-- **Entries are read back from their lines.** -/
theorem ofLines?_lines (h : ∀ a ∈ answers, a.Readable listing) :
    ofLines? listing (answers.flatMap lines) = some answers := by
  induction answers with
  | nil => cases listing <;> rfl
  | cons a answers ih =>
    obtain ⟨ha, hanswers⟩ := List.forall_mem_cons.1 h
    have hmore := ih hanswers
    have hfirst := ofLine?_line ha
    have hlisted := ha.listed
    obtain ⟨number, expression, outcome, listing?⟩ := a
    cases listing? with
    | none =>
      cases hlisted
      simp only [List.flatMap_cons, lines, Option.map_none, Option.toList_none, List.cons_append,
        List.nil_append, ofLines?, Option.isSome_none] at hfirst hmore ⊢
      rw [hfirst, hmore]
      rfl
    | some listed =>
      cases hlisted
      simp only [List.flatMap_cons, lines, Option.map_some, Option.toList_some, List.cons_append,
        List.nil_append, ofLines?, Option.isSome_some] at hfirst hmore ⊢
      rw [hfirst, hmore, listingOfLine?_line]
      rfl

/-- No line of an answer has a line feed. -/
theorem feed_not_mem_lines (h : a.Readable listing) : ∀ line ∈ a.lines, '\n' ∉ line.toList := by
  have hnumber : '\n' ∉ (Nat.repr a.number).toList := fun hmem =>
    absurd (isDigit_of_mem_repr hmem) (by decide)
  have houtcome : '\n' ∉ a.outcome.toList := fun hmem =>
    absurd (h.outcome '\n' hmem) (by decide)
  refine List.forall_mem_cons.2 ⟨?_, ?_⟩
  · simp only [String.toList_append, List.mem_append, not_or]
    exact ⟨⟨⟨⟨hnumber, by decide⟩, h.expression⟩, by decide⟩, houtcome⟩
  · intro line hline
    obtain ⟨listed, hlisted, rfl⟩ := Option.map_eq_some_iff.1 (Option.mem_toList.1 hline)
    rw [String.toList_append]
    exact List.not_mem_append (by decide) (h.unfed listed hlisted)

end Answer

namespace Text

/-- Lines with a feed after each. -/
def fed (lines : List String) : String := String.join (lines.map (· ++ "\n"))

theorem fed_append (lines more : List String) : fed (lines ++ more) = fed lines ++ fed more := by
  simp [fed]

/-- **Lines with a feed after each** are the lines of the whole. -/
theorem lined_fed {lines : List String} (h : ∀ line ∈ lines, '\n' ∉ line.toList) :
    Lined '\n' (fed lines).toList (lines.map String.toList) := by
  induction lines with
  | nil => exact .nil
  | cons line lines ih =>
    obtain ⟨hline, hlines⟩ := List.forall_mem_cons.1 h
    have hcut : (fed (line :: lines)).toList = line.toList ++ '\n' :: (fed lines).toList := by
      simp [fed, String.join_cons]
    rw [hcut]
    exact .cons hline (ih hlines)

end Text

/-- Read the output for a file. -/
def readAnswers? (listing : Bool) (output : String) : Option (List Answer) :=
  Answer.ofLines? listing ((Text.lines '\n' output.toList).map String.ofList)

/-- **The output is read back** as the answers that it is made of. -/
theorem readAnswers?_fed {listing : Bool} {answers : List Answer}
    (h : ∀ a ∈ answers, a.Readable listing) :
    readAnswers? listing (Text.fed (answers.flatMap Answer.lines)) = some answers := by
  have hunfed : ∀ line ∈ answers.flatMap Answer.lines, '\n' ∉ line.toList := by
    intro line hline
    obtain ⟨a, ha, hmem⟩ := List.mem_flatMap.1 hline
    exact Answer.feed_not_mem_lines (h a ha) line hmem
  rw [readAnswers?, Text.lines_of_lined (Text.lined_fed hunfed), List.map_map]
  simpa [Function.comp_def] using Answer.ofLines?_lines h

/-! ### The answers of a session -/

namespace Session

variable {s : Session} {x : String} {xs : List String}

/-- What the entry of an expression says. -/
def answer (s : Session) (x : String) : Answer :=
  ⟨s.count + 1, x, (evaluate x).text, if s.listing then some (evaluate x).listing else none⟩

/-- What the entries of a list of expressions say. -/
def answers (s : Session) : List String → List Answer
  | [] => []
  | x :: xs => s.answer x :: (s.entry x).2.answers xs

theorem readable_answer (h : '\n' ∉ x.toList) : (s.answer x).Readable s.listing where
  expression := h
  outcome := Evaluation.isBlank_of_mem_text _
  listed := by cases hlisting : s.listing <;> simp [answer, hlisting]
  unfed := by
    intro listed hlisted
    cases hlisting : s.listing with
    | false => simp [answer, hlisting] at hlisted
    | true =>
      obtain rfl : (evaluate x).listing = listed := by simpa [answer, hlisting] using hlisted
      exact feed_not_mem_listing x

/-- **An entry has the lines of its answer**, with a feed after each. -/
theorem entry_eq_fed (h : x ≠ "") : (s.entry x).1 = Text.fed (s.answer x).lines := by
  rw [entry, shown, if_neg h]
  cases hlisting : s.listing <;>
    simp [answer, Answer.lines, Text.fed, hlisting, String.join_cons, String.append_assoc]

theorem entries_eq_fed (h : ∀ x ∈ xs, x ≠ "") :
    s.entries xs = Text.fed ((s.answers xs).flatMap Answer.lines) := by
  induction xs generalizing s with
  | nil => rfl
  | cons x xs ih =>
    obtain ⟨hx, hxs⟩ := List.forall_mem_cons.1 h
    rw [answers, List.flatMap_cons, Text.fed_append, ← entry_eq_fed hx, ← ih hxs]
    rfl

theorem answers_map_expression : (s.answers xs).map Answer.expression = xs := by
  induction xs generalizing s with
  | nil => rfl
  | cons x xs ih => rw [answers, List.map_cons, ih]; rfl

theorem length_answers : (s.answers xs).length = xs.length := by
  rw [← List.length_map (f := Answer.expression), answers_map_expression]

/-- **The numbers go on without a gap.** -/
theorem answers_map_number :
    (s.answers xs).map Answer.number = List.range' (s.count + 1) xs.length := by
  induction xs generalizing s with
  | nil => rfl
  | cons x xs ih => rw [answers, List.map_cons, ih]; rfl

/-- **Each answer is the answer to its own expression**; of the expressions before it, it has only
    their number. -/
theorem eq_answer_of_mem {a : Answer} (h : a ∈ s.answers xs) :
    a.expression ∈ xs ∧ ∃ n, a = { s with count := n }.answer a.expression := by
  induction xs generalizing s with
  | nil => cases h
  | cons x xs ih =>
    rcases List.mem_cons.1 h with rfl | hmem
    · exact ⟨List.mem_cons_self, s.count, rfl⟩
    · obtain ⟨hmore, hanswer⟩ := ih hmem
      exact ⟨List.mem_cons_of_mem x hmore, hanswer⟩

end Session

namespace Session

variable {content x : String}

theorem ne_empty_of_mem_fileExpressions (h : x ∈ fileExpressions content) : x ≠ "" := by
  simpa using (List.mem_filter.1 h).2

/-- The expressions of a file have no line feed. -/
theorem feed_not_mem_fileExpressions (h : x ∈ fileExpressions content) : '\n' ∉ x.toList := by
  obtain ⟨hmem, -⟩ := List.mem_filter.1 h
  obtain ⟨line, hline, rfl⟩ := List.mem_map.1 hmem
  obtain ⟨before, after, hcut, -, -⟩ := Text.exists_trimChars line
  rw [String.toList_ofList]
  intro hfeed
  refine Text.feed_not_mem_of_mem_lines hline ?_
  rw [hcut]
  simp [hfeed]

/-- An expression of a file is all that a file of this line only asks. -/
theorem fileExpressions_of_mem (h : x ∈ fileExpressions content) : fileExpressions x = [x] := by
  have hne := ne_empty_of_mem_fileExpressions h
  obtain ⟨line, rfl⟩ : ∃ line, Text.trim line = x := by
    obtain ⟨lines, -, hexpressions⟩ := exists_lines content
    rw [hexpressions] at h
    obtain ⟨line, -, hx⟩ := List.mem_map.1 (List.mem_filter.1 h).1
    exact ⟨line, hx⟩
  have hlast : Text.Lined '\n' (Text.trim line).toList ([Text.trim line].map String.toList) :=
    .last (by simpa using hne) (feed_not_mem_fileExpressions h)
  rw [fileExpressions_of_lined hlast] <;> simp [Text.trim_trim, hne]

end Session

/-- A file that is text is answered line by line. -/
theorem Transcript.ofFile_eq_fed {bytes : ByteArray} {content : String}
    (hbytes : String.fromUTF8? bytes = some content) (s : Session) :
    ofFile s (some bytes)
      = ⟨Text.fed ((s.answers (Session.fileExpressions content)).flatMap Answer.lines), 0⟩ := by
  unfold ofFile
  dsimp only
  rw [hbytes]
  dsimp only
  rw [Session.entries_eq_fed fun x hx => Session.ne_empty_of_mem_fileExpressions hx]

/-- A source without a program has the empty listing. -/
theorem listing_of_rejected {source : String} (h : (compile source).rejection? ≠ none) :
    (evaluate source).listing = "" := by
  obtain ⟨e, he⟩ := Option.ne_none_iff_exists'.1 h
  rw [evaluate, Compilation.program?, he]
  rfl

/-- **The answers of a file are read back from its output.**  Each line that is not blank has one
    answer, in order, numbered from one without a gap.  The output is the lines of these answers,
    one each or, with listings, two each, with a feed after every line; and reading it gives the
    answers, whatever is in the lines of the file.  An answer depends on its own line alone: in a
    file of this line only, it is the same up to its number. -/
theorem ofFile_readBack {bytes : ByteArray} {content : String}
    (hbytes : String.fromUTF8? bytes = some content) (listing : Bool) :
    ∃ (lines : List String) (answers : List Answer) (output : String),
      Text.Lined '\n' content.toList (lines.map String.toList) ∧
      Transcript.ofFile (Session.start listing) (some bytes) = ⟨output, 0⟩ ∧
      answers.map Answer.expression = (lines.map Text.trim).filter (· ≠ "") ∧
      answers.map Answer.number = List.range' 1 answers.length ∧
      output = Text.fed (answers.flatMap Answer.lines) ∧
      readAnswers? listing output = some answers ∧
      ∀ a ∈ answers,
        a.lines.length = (if listing then 2 else 1) ∧ (∀ line ∈ a.lines, '\n' ∉ line.toList) ∧
        a.outcome = (evaluate a.expression).text ∧
        a.listing? = (if listing then some (evaluate a.expression).listing else none) ∧
        ((compile a.expression).rejection? ≠ none → (evaluate a.expression).listing = "") ∧
        Transcript.ofFile (Session.start listing) (some a.expression.toUTF8)
          = ⟨Text.fed { a with number := 1 }.lines, 0⟩ := by
  obtain ⟨lines, hlined, hexpressions⟩ := Session.exists_lines content
  refine ⟨lines, (Session.start listing).answers (Session.fileExpressions content), _, hlined,
    Transcript.ofFile_eq_fed hbytes _, ?_, ?_, rfl, ?_, ?_⟩
  · rw [Session.answers_map_expression, hexpressions]
  · rw [Session.answers_map_number, Session.length_answers]
    rfl
  · refine readAnswers?_fed fun a ha => ?_
    obtain ⟨hmem, n, heq⟩ := Session.eq_answer_of_mem ha
    rw [heq]
    exact Session.readable_answer (s := ⟨listing, n⟩) (Session.feed_not_mem_fileExpressions hmem)
  · intro a ha
    obtain ⟨hmem, n, heq⟩ := Session.eq_answer_of_mem ha
    -- The answer is the one of a session that has counted so far and knows nothing else.
    generalize hx : a.expression = x at hmem heq ⊢
    have hreadable := Session.readable_answer (s := ⟨listing, n⟩)
      (Session.feed_not_mem_fileExpressions hmem)
    obtain rfl : a = (⟨listing, n⟩ : Session).answer x := heq
    refine ⟨?_, Answer.feed_not_mem_lines hreadable, rfl, rfl, listing_of_rejected, ?_⟩
    · cases listing <;> rfl
    · rw [Transcript.ofFile_eq_fed (Text.fromUTF8?_toUTF8 x), Session.fileExpressions_of_mem hmem,
        Session.answers, Session.answers, List.flatMap_singleton]
      rfl

/-- Answers to a text with colons and equals signs and to a call of an unknown function; the empty
    line between them has none. -/
theorem ofFile_readBack_colons :
    String.fromUTF8? "a: b = c\r\n\n foo(1) ".toUTF8 = some "a: b = c\r\n\n foo(1) " ∧
      Transcript.ofFile (Session.start true) (some "a: b = c\r\n\n foo(1) ".toUTF8)
        = ⟨"1: a: b = c = error\n   \n2: foo(1) = error\n   1 foo\n", 0⟩ ∧
      ∃ answers, readAnswers? true "1: a: b = c = error\n   \n2: foo(1) = error\n   1 foo\n"
          = some answers ∧
        answers.map Answer.expression = ["a: b = c", "foo(1)"] ∧
        answers.map Answer.number = [1, 2] := by
  have hbytes := Text.fromUTF8?_toUTF8 "a: b = c\r\n\n foo(1) "
  obtain ⟨lines, answers, output, hlined, houtput, hexpressions, hnumbers, -, hread, -⟩ :=
    ofFile_readBack hbytes true
  have hentries : (Session.start true).entries ["a: b = c", "foo(1)"]
      = "1: a: b = c = error\n   \n2: foo(1) = error\n   1 foo\n" := by
    decide +kernel
  have htext : Transcript.ofFile (Session.start true) (some "a: b = c\r\n\n foo(1) ".toUTF8)
      = ⟨(Session.start true).entries ["a: b = c", "foo(1)"], 0⟩ := by
    unfold Transcript.ofFile
    dsimp only
    rw [hbytes]
    rfl
  rw [hentries] at htext
  obtain rfl : _ = output := (Transcript.mk.inj (htext.symm.trans houtput)).1
  have hcut : Text.lines '\n' "a: b = c\r\n\n foo(1) ".toList
      = ["a: b = c\r", "", " foo(1) "].map String.toList := by
    decide
  obtain rfl := hlined.eq_of_lines hcut
  have htrim : (["a: b = c\r", "", " foo(1) "].map Text.trim).filter (· ≠ "")
      = ["a: b = c", "foo(1)"] := by
    decide
  rw [htrim] at hexpressions
  refine ⟨hbytes, htext, answers, hread, hexpressions, ?_⟩
  have hlength := congrArg List.length hexpressions
  rw [List.length_map] at hlength
  rw [hnumbers, hlength]
  rfl

end Reckoner
