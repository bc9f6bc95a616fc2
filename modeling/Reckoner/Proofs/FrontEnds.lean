import Reckoner.Proofs.Spacing
import Reckoner.Shell.Transcript

namespace Reckoner

/-!
# Three ways to ask

Expressions come from the command line, from the lines of a file or from the lines of a dialogue.
If none of them is blank, the answers are the same in each case (`frontEnds_agree`).

* `Text.Lined.bytes` — lines of characters are lines of bytes, for the byte of a line feed is in the
  code of no other character;
* `Session.fileExpressions_of_lined`, `Transcript.answerLines_bytes` — what a file and a dialogue
  ask;
* `evaluate_trim` — trimming changes what is shown of an expression, never its value or listing.
-/

namespace Text

/-! ### Lines of bytes -/

/-- The bytes of characters in UTF-8. -/
def bytes (cs : List Char) : List UInt8 := cs.flatMap String.utf8EncodeChar

theorem toUTF8_eq_bytes (s : String) : s.toUTF8 = ⟨(bytes s.toList).toArray⟩ := by
  conv_lhs => rw [← String.ofList_toList (s := s)]
  rw [String.toUTF8_eq_toByteArray, String.toByteArray_ofList]
  apply ByteArray.ext
  simp [List.utf8Encode, bytes]

/-- The bytes of a text are read as the text. -/
theorem fromUTF8?_toUTF8 (s : String) : String.fromUTF8? s.toUTF8 = some s := by
  unfold String.fromUTF8?
  rw [String.toUTF8_eq_toByteArray, dif_pos s.isValidUTF8]
  rfl

/-- The byte of a line feed is in the code of no other character. -/
theorem eq_of_feed_mem {c : Char} (h : Transcript.feed ∈ String.utf8EncodeChar c) : c = '\n' := by
  have hbyte (n : Nat) (hn : n < 256) (hfeed : Transcript.feed = UInt8.ofNat n) : n = 10 := by
    have hnat := congrArg UInt8.toNat hfeed
    rw [UInt8.toNat_ofNat_of_lt' hn] at hnat
    exact hnat.symm
  have hlong (n : Nat) (hlow : 0x80 ≤ n) (hhigh : n < 256) : Transcript.feed ≠ UInt8.ofNat n := by
    intro hfeed
    have hten := hbyte n hhigh hfeed
    omega
  unfold String.utf8EncodeChar at h
  dsimp only at h
  split at h
  · next hshort =>
    have hten := hbyte c.val.toNat (by omega) (List.mem_singleton.1 h)
    exact Char.toNat_inj.1 hten
  · -- In a longer code, every byte has its highest bit.
    exfalso
    split at h
    · simp only [List.mem_cons, List.not_mem_nil, or_false] at h
      rcases h with h | h <;> exact hlong _ (by omega) (by omega) h
    · split at h
      · simp only [List.mem_cons, List.not_mem_nil, or_false] at h
        rcases h with h | h | h <;> exact hlong _ (by omega) (by omega) h
      · simp only [List.mem_cons, List.not_mem_nil, or_false] at h
        rcases h with h | h | h | h <;> exact hlong _ (by omega) (by omega) h

theorem feed_not_mem_bytes {line : List Char} (h : '\n' ∉ line) : Transcript.feed ∉ bytes line := by
  intro hfeed
  obtain ⟨c, hc, hbyte⟩ := List.mem_flatMap.1 hfeed
  exact h (eq_of_feed_mem hbyte ▸ hc)

/-- **Lines of characters are lines of bytes.** -/
theorem Lined.bytes {cs : List Char} {ls : List (List Char)} (h : Lined '\n' cs ls) :
    Lined Transcript.feed (Text.bytes cs) (ls.map Text.bytes) := by
  induction h with
  | nil => exact .nil
  | @last line nonempty unfed =>
    refine .last ?_ (feed_not_mem_bytes unfed)
    obtain ⟨c, cs, rfl⟩ := List.exists_cons_of_ne_nil nonempty
    simp [Text.bytes]
  | @cons line cs ls unfed later ih =>
    have hcut : Text.bytes (line ++ '\n' :: cs)
        = Text.bytes line ++ Transcript.feed :: Text.bytes cs := by
      rw [Text.bytes, List.flatMap_append, List.flatMap_cons]
      rfl
    rw [hcut]
    exact .cons (feed_not_mem_bytes unfed) ih

end Text

/-! ### Expressions, one per line -/

/-- **Expressions one per line**: each line holds an expression, with any white space around it. -/
def OnePerLine (content : String) (expressions : List String) : Prop :=
  ∃ lines : List String, Text.Lined '\n' content.toList (lines.map String.toList) ∧
    lines.map Text.trim = expressions.map Text.trim

/-- Texts without line feeds can be written one per line. -/
theorem exists_onePerLine {expressions : List String}
    (h : ∀ x ∈ expressions, '\n' ∉ (Text.trim x).toList) :
    ∃ content, OnePerLine content expressions := by
  induction expressions with
  | nil => exact ⟨"", [], .nil, rfl⟩
  | cons x expressions ih =>
    obtain ⟨hx, hrest⟩ := List.forall_mem_cons.1 h
    obtain ⟨content, lines, hlined, htrim⟩ := ih hrest
    refine ⟨Text.trim x ++ "\n" ++ content, Text.trim x :: lines, ?_, ?_⟩
    · have hcut : (Text.trim x ++ "\n" ++ content).toList
          = (Text.trim x).toList ++ '\n' :: content.toList := by simp
      rw [hcut]
      exact .cons hx hlined
    · rw [List.map_cons, List.map_cons, Text.trim_trim, htrim]

theorem Session.fileExpressions_of_lined {content : String} {lines : List String}
    (h : Text.Lined '\n' content.toList (lines.map String.toList))
    (hne : ∀ x ∈ lines.map Text.trim, x ≠ "") :
    Session.fileExpressions content = lines.map Text.trim := by
  rw [fileExpressions, Text.lines_of_lined h, List.map_map]
  exact List.filter_eq_self.2 fun x hx => decide_eq_true (hne x hx)

namespace Transcript

/-- **One line of a dialogue** is answered like the expression that it holds. -/
theorem answerLine?_bytes (s : Session) (line : String) :
    answerLine? s (Text.bytes line.toList) = some (s.entry (Text.trim line)) := by
  rw [answerLine?, ← Text.toUTF8_eq_bytes, Text.fromUTF8?_toUTF8, Option.map_some]

/-- **A dialogue** is answered line by line, and each answer goes on counting. -/
theorem answerLines_bytes (s : Session) (lines : List String) :
    answerLines s (lines.map fun line => Text.bytes line.toList)
      = ⟨s.entries (lines.map Text.trim) ++ "\n", 0⟩ := by
  induction lines generalizing s with
  | nil => rfl
  | cons line lines ih =>
    rw [List.map_cons, answerLines, answerLine?_bytes, List.map_cons, Session.entries]
    dsimp only
    rw [ih, String.append_assoc]

end Transcript

/-- **Trimming changes what is shown**, never what is computed: white space is blank, and blanks at
    the ends of a source mean nothing. -/
theorem evaluate_trim (source : String) : evaluate (Text.trim source) = evaluate source := by
  obtain ⟨before, after, hcut, hbefore, hafter⟩ := Text.exists_trimChars source.toList
  obtain ⟨htokens, hfault⟩ := source_surrounded (Text.trimChars source.toList)
    (fun c hc => Text.isBlank_of_isWhiteSpace (hbefore c hc))
    (fun c hc => Text.isBlank_of_isWhiteSpace (hafter c hc))
  rw [← hcut, String.ofList_toList] at htokens hfault
  exact (eval_congr (compile_congr htokens.symm hfault.symm)).2

/-- **The three ways to ask agree.**  Expressions that are not blank and go on one line each can be
    written one per line.  Given on the command line, in such a file, or typed line by line, they
    have the same answers with the same numbers, with and without listings; a dialogue only adds its
    greeting and a last line feed.  And any source, trimmed, has the program and the outcome that it
    has as it stands. -/
theorem frontEnds_agree :
    (∀ expressions : List String, expressions ≠ [] →
      (∀ x ∈ expressions, Text.trim x ≠ "" ∧ '\n' ∉ (Text.trim x).toList) →
      (∃ content, OnePerLine content expressions) ∧
      ∀ content, OnePerLine content expressions →
        ∀ (listing : Bool) (readFile : String → Option ByteArray) (input : ByteArray)
          (file : String) (others : List String), readFile file = some content.toUTF8 →
        ∃ entries, entries = (Session.start listing).entries (expressions.map Text.trim) ∧
          Transcript.ofCommand readFile input (.run ⟨none, listing, expressions⟩)
            = ⟨entries, 0⟩ ∧
          Transcript.ofCommand readFile input (.run ⟨some file, listing, others⟩)
            = ⟨entries, 0⟩ ∧
          Transcript.ofCommand readFile content.toUTF8 (.run ⟨none, listing, []⟩)
            = ⟨Transcript.greeting ++ (entries ++ "\n"), 0⟩) ∧
    ∀ source, evaluate (Text.trim source) = evaluate source := by
  refine ⟨?_, evaluate_trim⟩
  intro expressions hne hexpressions
  refine ⟨exists_onePerLine fun x hx => (hexpressions x hx).2, ?_⟩
  rintro content ⟨lines, hlined, htrim⟩ listing readFile input file others hfile
  have hblank : ∀ x ∈ lines.map Text.trim, x ≠ "" := by
    rw [htrim]
    exact List.forall_mem_map.2 fun x hx => (hexpressions x hx).1
  refine ⟨_, rfl, ?_, ?_, ?_⟩
  · obtain ⟨x, more, rfl⟩ := List.exists_cons_of_ne_nil hne
    rfl
  · show Transcript.ofFile (Session.start listing) (readFile file) = _
    unfold Transcript.ofFile
    rw [hfile]
    dsimp only
    rw [Text.fromUTF8?_toUTF8]
    dsimp only
    rw [Session.fileExpressions_of_lined hlined hblank, htrim]
  · have hbytes := Text.lines_of_lined hlined.bytes
    show Transcript.ofDialogue (Session.start listing) content.toUTF8 = _
    unfold Transcript.ofDialogue
    rw [Text.toUTF8_eq_bytes, List.toList_toArray, hbytes, List.map_map]
    show (let answers := Transcript.answerLines _ (lines.map fun line => Text.bytes line.toList)
      { answers with output := Transcript.greeting ++ answers.output }) = _
    rw [Transcript.answerLines_bytes, htrim]

/-- Two expressions without a value, one of them with a carriage return inside and both with white
    space around them; the last line of the file has no feed. -/
theorem frontEnds_agree_failing :
    OnePerLine "foo+1\r\n\tx\ry" [" foo+1", "x\ry "] ∧
    ∀ (input : ByteArray) (readFile : String → Option ByteArray),
      readFile "list" = some "foo+1\r\n\tx\ry".toUTF8 →
      Transcript.ofCommand readFile input (.run ⟨none, true, [" foo+1", "x\ry "]⟩)
        = ⟨"1: foo+1 = error\n   @foo 1 +\n2: x\ry = error\n   \n", 0⟩ ∧
      Transcript.ofCommand readFile input (.run ⟨some "list", true, []⟩)
        = ⟨"1: foo+1 = error\n   @foo 1 +\n2: x\ry = error\n   \n", 0⟩ ∧
      Transcript.ofCommand readFile "foo+1\r\n\tx\ry".toUTF8 (.run ⟨none, true, []⟩)
        = ⟨Transcript.greeting ++ ("1: foo+1 = error\n   @foo 1 +\n2: x\ry = error\n   \n" ++ "\n"),
            0⟩ := by
  have hlines : OnePerLine "foo+1\r\n\tx\ry" [" foo+1", "x\ry "] := by
    refine ⟨["foo+1\r", "\tx\ry"], ?_, by decide⟩
    show Text.Lined '\n' ("foo+1\r".toList ++ '\n' :: "\tx\ry".toList) _
    exact .cons (by decide) (.last (by decide) (by decide))
  have hentries : (Session.start true).entries ([" foo+1", "x\ry "].map Text.trim)
      = "1: foo+1 = error\n   @foo 1 +\n2: x\ry = error\n   \n" := by
    decide +kernel
  refine ⟨hlines, ?_⟩
  intro input readFile hfile
  obtain ⟨entries, rfl, hanswers⟩ :=
    (frontEnds_agree.1 [" foo+1", "x\ry "] (by decide) (by decide)).2 _ hlines true readFile input
      "list" [] hfile
  rw [hentries] at hanswers
  exact hanswers

end Reckoner
