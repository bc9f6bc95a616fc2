import Reckoner.Proofs.FrontEnds

namespace Reckoner

/-!
# Blank lines

Two places tell which lines are blank.  A file is read without the lines that nothing is left of
when they are trimmed, and reading tokens finds nothing on a line of blanks.  The two agree but for
the byte order mark, which is a blank and no white space.

* `Text.trimChars_eq_nil_iff` — the lines that a file is read without;
* `wordless_iff` — the lines on which reading finds nothing;
* `skipped_iff_wordless` — where the two agree, and what becomes of the other lines;
* `byteOrderMark_numbered` — a line on which they do not agree.
-/

namespace Text

variable {c : Char} {cs : List Char}

/-- Trimming leaves nothing of white space, and something of any other text. -/
theorem trimChars_eq_nil_iff : trimChars cs = [] ↔ ∀ c ∈ cs, isWhiteSpace c = true := by
  constructor
  · intro h
    obtain ⟨before, after, hcut, hbefore, hafter⟩ := exists_trimChars cs
    rw [h, List.nil_append] at hcut
    rw [hcut]
    exact List.forall_mem_append.2 ⟨hbefore, hafter⟩
  · intro h
    have hnone : cs.dropWhile isWhiteSpace = [] := List.dropWhile_eq_nil_iff.2 h
    rw [trimChars, hnone]
    rfl

theorem trim_eq_empty_iff {s : String} : trim s = "" ↔ ∀ c ∈ s.toList, isWhiteSpace c = true := by
  rw [← trimChars_eq_nil_iff, trim]
  constructor
  · intro h
    have hchars := congrArg String.toList h
    rwa [String.toList_ofList] at hchars
  · intro h
    rw [h]

theorem isBlank_iff : isBlank c = true ↔ isWhiteSpace c = true ∨ c = byteOrderMark := by
  simp [isBlank]

/-- **Blanks are white space**, as long as no byte order mark is among them. -/
theorem whiteSpace_iff_blank : (∀ c ∈ cs, isWhiteSpace c = true) ↔
    (∀ c ∈ cs, isBlank c = true) ∧ byteOrderMark ∉ cs := by
  constructor
  · intro h
    refine ⟨fun c hc => isBlank_of_isWhiteSpace (h c hc), fun hmark => ?_⟩
    exact absurd (h _ hmark) (by decide)
  · rintro ⟨hblank, hmark⟩ c hc
    rcases isBlank_iff.1 (hblank c hc) with hspace | rfl
    · exact hspace
    · exact absurd hc hmark

end Text

/-- **A text without words**: reading it comes to the end, with no token and no fault. -/
def Wordless (source : String) : Prop :=
  sourceTokens source = [] ∧ sourceFault? source = none

instance : DecidablePred Wordless := fun _ => inferInstanceAs (Decidable (_ ∧ _))

variable {source : String}

/-- **Reading finds nothing** exactly in a text of blanks. -/
theorem wordless_iff : Wordless source ↔ ∀ c ∈ source.toList, Text.isBlank c = true := by
  constructor
  · rintro ⟨htokens, hfault⟩
    have hcut := segmented_of_faultless hfault
    rw [htokens] at hcut
    generalize source.toList = cs at hcut ⊢
    cases hcut with
    | gap hblank => exact hblank
  · intro hblank
    exact sourceTokens_of_segmented (.gap hblank)

/-- A byte order mark is no word. -/
theorem wordless_byteOrderMark : Wordless "\uFEFF" := by
  have hblank : "\uFEFF".toList.all Text.isBlank = true := by decide
  exact wordless_iff.2 (List.all_eq_true.1 hblank)

/-- A text without words is no expression. -/
theorem compile_of_wordless (h : Wordless source) :
    compile source = ⟨[], some .missingOperand⟩ := by
  rw [compile_eq_compileTokens, h.1, h.2]
  rfl

theorem evaluate_of_wordless (h : Wordless source) :
    (evaluate source).text = Evaluation.errorText ∧ (evaluate source).listing = "" := by
  rw [evaluate, compile_of_wordless h]
  exact ⟨rfl, rfl⟩

/-- A line is left out exactly if it has no words and no byte order mark. -/
theorem trim_eq_empty_iff_wordless :
    Text.trim source = "" ↔ Wordless source ∧ Text.byteOrderMark ∉ source.toList := by
  rw [Text.trim_eq_empty_iff, Text.whiteSpace_iff_blank, wordless_iff]

/-- The expressions of a file are what trimming leaves of its lines. -/
theorem Session.exists_lines (content : String) :
    ∃ lines : List String, Text.Lined '\n' content.toList (lines.map String.toList) ∧
      fileExpressions content = (lines.map Text.trim).filter (· ≠ "") := by
  have hchars : ((Text.lines '\n' content.toList).map String.ofList).map String.toList
      = Text.lines '\n' content.toList := by simp
  refine ⟨(Text.lines '\n' content.toList).map String.ofList, ?_, ?_⟩
  · rw [hchars]
    exact Text.lined_lines _ _
  · rw [fileExpressions, List.map_map]
    simp [Function.comp_def, Text.trim]

/-- A text has only one list of lines. -/
theorem Text.Lined.eq_of_lines {content : String} {lines lines' : List String}
    (h : Text.Lined '\n' content.toList (lines.map String.toList))
    (hcut : Text.lines '\n' content.toList = lines'.map String.toList) : lines = lines' := by
  apply List.map_injective_iff.2 fun _ _ => String.toList_inj.1
  rw [← hcut, Text.lines_of_lined h]

/-- **Which lines a file is read without.**  They are the lines without words in which there is no
    byte order mark.  So no line with words is left out.  A line without words is numbered only if
    it has a byte order mark, and then it is reported as an error, with an empty listing. -/
theorem skipped_iff_wordless (content : String) :
    ∃ lines : List String, Text.Lined '\n' content.toList (lines.map String.toList) ∧
      Session.fileExpressions content
        = (lines.filter fun line => ¬(Wordless line ∧ Text.byteOrderMark ∉ line.toList)).map
            Text.trim ∧
      ∀ line ∈ lines,
        (Text.trim line = "" ↔ Wordless line ∧ Text.byteOrderMark ∉ line.toList) ∧
        (Wordless line → Text.trim line ≠ "" →
          Text.byteOrderMark ∈ line.toList ∧
            (evaluate (Text.trim line)).text = Evaluation.errorText ∧
            (evaluate (Text.trim line)).listing = "") := by
  obtain ⟨lines, hlined, hexpressions⟩ := Session.exists_lines content
  refine ⟨lines, hlined, ?_, ?_⟩
  · rw [hexpressions, List.filter_map]
    congr 1
    refine List.filter_congr fun line _ => ?_
    simp only [Function.comp, ne_eq, trim_eq_empty_iff_wordless]
  · intro line _
    refine ⟨trim_eq_empty_iff_wordless, fun hwordless hne => ?_⟩
    rw [evaluate_trim]
    refine ⟨?_, evaluate_of_wordless hwordless⟩
    by_contra hmark
    exact hne (trim_eq_empty_iff_wordless.2 ⟨hwordless, hmark⟩)

/-- Of a byte order mark, a space and a literal, each on its line, only the space is left out. -/
theorem skipped_iff_wordless_between :
    Session.fileExpressions "\uFEFF\n \n1" = ["\uFEFF", "1"] ∧
      Wordless " " ∧ Wordless "\uFEFF" ∧ Text.trim "\uFEFF" ≠ "" ∧
      (evaluate (Text.trim "\uFEFF")).text = Evaluation.errorText := by
  obtain ⟨lines, hlined, -, hlines⟩ := skipped_iff_wordless "\uFEFF\n \n1"
  have hcut : Text.lines '\n' "\uFEFF\n \n1".toList = ["\uFEFF", " ", "1"].map String.toList := by
    decide
  obtain rfl := hlined.eq_of_lines hcut
  have hmark := wordless_byteOrderMark
  have hshown : Text.trim "\uFEFF" ≠ "" := by decide
  refine ⟨by decide, ((hlines " " (by simp)).1.1 (by decide)).1, hmark, hshown, ?_⟩
  exact ((hlines "\uFEFF" (by simp)).2 hmark hshown).2.1

/-- **A byte order mark alone on a line** is numbered, and reported as an error, though reading
    finds nothing on this line. -/
theorem byteOrderMark_numbered :
    Text.lines '\n' "\uFEFF\n1+1".toList = ["\uFEFF".toList, "1+1".toList] ∧
      Wordless "\uFEFF" ∧ Session.fileExpressions "\uFEFF\n1+1" = ["\uFEFF", "1+1"] ∧
      ((Session.start false).entry "\uFEFF").1 = "1: \uFEFF = error\n" := by
  exact ⟨by decide, wordless_byteOrderMark, by decide, by decide +kernel⟩

end Reckoner
