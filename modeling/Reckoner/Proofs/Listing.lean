import Reckoner.Proofs.Printing
import Reckoner.Proofs.Rejection
import Reckoner.Proofs.Safety
import Reckoner.Shell.Session

namespace Reckoner

/-!
# Listings are read back

A listing is cut at its spaces, and the first character of a piece says what kind of instruction it
is (`Instruction.ofText?`).  That is not enough for all programs: a number may be any text, also one
with spaces.  The instructions that come from a source have words for their texts, and no word has a
space or starts like a word of another kind.

* `Instruction.ofText?_text`, `Program.pieces_listing` — instructions over words are read back from
  their texts, and their texts from the listing;
* `lexable_of_accepted` — the program of an accepted source is made of such instructions;
* `listing_readBack` — hence what is listed is what is run.
-/

namespace Instruction

/-- Read the text of an instruction: a digit starts a number, a letter a function, the mark a
    constant; an exclamation mark negates, and any other symbol is an operator. -/
def ofText? (piece : String) : Option Instruction :=
  match piece.toList with
  | [] => none
  | c :: cs =>
    if c.isDigit then some (.number piece)
    else if c.isAlpha then if cs.all Char.isAlpha then some (.call piece) else none
    else if c = '@' then
      if cs ≠ [] ∧ cs.all Char.isAlpha then some (.constant (String.ofList cs)) else none
    else if cs ≠ [] then none
    else if c = '!' then some .negate
    else (Operator.ofChar? c).map .binary

end Instruction

namespace Program

/-- The pieces of a listing, which single spaces separate. -/
def pieces (listing : String) : List String :=
  (listing.toList.splitOn ' ').map String.ofList

/-- Read a listing: each of its pieces is an instruction. -/
def ofListing? (listing : String) : Option Program :=
  (pieces listing).mapM Instruction.ofText?

end Program

/-! ### The texts of instructions -/

/-- A literal has no characters but digits and a point. -/
theorem Literal.isDigit_or_eq {cs : List Char} (h : Literal cs) :
    ∀ c ∈ cs, c.isDigit = true ∨ c = '.' := by
  intro c hc
  cases h with
  | whole _ all => exact .inl (all c hc)
  | places _ all _ placesAll =>
    rcases List.mem_append.1 hc with hc | hc
    · exact .inl (all c hc)
    · rcases List.mem_cons.1 hc with rfl | hc
      · exact .inr rfl
      · exact .inl (placesAll c hc)

/-- No character of a literal is blank. -/
theorem Literal.isBlank_of_mem {cs : List Char} (h : Literal cs) :
    ∀ c ∈ cs, Text.isBlank c = false := by
  intro c hc
  rcases h.isDigit_or_eq c hc with hdigit | rfl
  · exact isBlank_of_canStart (.inr (.inl hdigit))
  · decide

namespace Instruction

variable {i : Instruction}

/-- No word has a blank. -/
theorem isBlank_of_mem_text (h : i.Lexable) : ∀ c ∈ i.text.toList, Text.isBlank c = false := by
  have hname (s : String) (hs : (Token.name s).Lexeme) : ∀ c ∈ s.toList, Text.isBlank c = false :=
    fun c hc => isBlank_of_canStart (.inr (.inr (hs.2 c hc)))
  cases i with
  | number s => exact Literal.isBlank_of_mem h
  | constant s =>
    have htext : (constant s).text.toList = '@' :: s.toList := String.toList_append
    rw [htext]
    exact List.forall_mem_cons.2 ⟨by decide, hname s h⟩
  | call s => exact hname s h
  | negate =>
    have htext : negate.text.toList = ['!'] := by decide
    rw [htext]
    exact List.forall_mem_singleton.2 (by decide)
  | binary o =>
    have htext : (binary o).text.toList = [o.symbol] := String.toList_singleton _
    rw [htext]
    exact List.forall_mem_singleton.2 (by cases o <;> decide)

theorem space_not_mem_text (h : i.Lexable) : ' ' ∉ i.text.toList := by
  intro hspace
  exact absurd (isBlank_of_mem_text h ' ' hspace) (by decide)

/-- **An instruction is read back from its text**, if its number or its name is a word. -/
theorem ofText?_text (h : i.Lexable) : ofText? i.text = some i := by
  cases i with
  | number s =>
    obtain ⟨c, cs, hs, hc⟩ := Literal.exists_cons h
    simp [ofText?, text, hs, hc]
  | constant s =>
    obtain ⟨hne, hall⟩ := h
    have htext : (constant s).text.toList = '@' :: s.toList := String.toList_append
    have hletters : s.toList.all Char.isAlpha = true := List.all_eq_true.2 hall
    -- The mark is neither a digit nor a letter.
    have hdigit : ¬ '@'.isDigit = true := by decide
    have halpha : ¬ '@'.isAlpha = true := by decide
    rw [ofText?, htext]
    dsimp only
    rw [if_neg hdigit, if_neg halpha, if_pos rfl, if_pos ⟨hne, hletters⟩, String.ofList_toList]
  | call s =>
    obtain ⟨hne, hall⟩ := h
    obtain ⟨c, cs, hs⟩ := List.exists_cons_of_ne_nil hne
    rw [hs] at hall
    obtain ⟨hc, hcs⟩ := List.forall_mem_cons.1 hall
    have hdigit : ¬ c.isDigit = true := by
      intro hdigit
      rw [isAlpha_of_isDigit hdigit] at hc
      cases hc
    rw [ofText?, text, hs]
    dsimp only
    rw [if_neg hdigit, if_pos hc, if_pos (List.all_eq_true.2 hcs)]
  | negate => decide
  | binary o => cases o <;> decide

end Instruction

/-! ### Listings -/

namespace Program

variable {p q : Program}

/-- **The pieces of a listing** are the texts of the instructions, if none of them has a space.
    The empty program is listed as the empty text, which is a piece like any other. -/
theorem pieces_listing (hne : p ≠ []) (h : ∀ i ∈ p, i.Lexable) :
    pieces p.listing = p.map Instruction.text := by
  have hspaces : ∀ text ∈ (p.map Instruction.text).map String.toList, ' ' ∉ text := by
    intro text htext
    rw [List.map_map] at htext
    obtain ⟨i, hi, rfl⟩ := List.mem_map.1 htext
    exact Instruction.space_not_mem_text (h i hi)
  have hsome : (p.map Instruction.text).map String.toList ≠ [] := by simpa using hne
  have hcut := List.splitOn_intercalate ' ' hspaces hsome
  show (((" ".intercalate (p.map Instruction.text)).toList).splitOn ' ').map String.ofList = _
  rw [String.toList_intercalate]
  show ((List.intercalate [' '] _).splitOn ' ').map String.ofList = _
  rw [hcut, List.map_map]
  simp

/-- Instructions over words are read back from their texts, one after the other. -/
theorem mapM_ofText?_text (h : ∀ i ∈ p, i.Lexable) :
    (p.map Instruction.text).mapM Instruction.ofText? = some p := by
  induction p with
  | nil => rfl
  | cons i p ih =>
    obtain ⟨hi, hp⟩ := List.forall_mem_cons.1 h
    rw [List.map_cons, List.mapM_cons, Instruction.ofText?_text hi, ih hp]
    rfl

/-- **A program over words is read back from its listing.** -/
theorem ofListing?_listing (hne : p ≠ []) (h : ∀ i ∈ p, i.Lexable) :
    ofListing? p.listing = some p := by
  rw [ofListing?, pieces_listing hne h]
  exact mapM_ofText?_text h

/-- Hence programs over words have the same listing only if they are the same. -/
theorem listing_inj (hp : p ≠ []) (hpwords : ∀ i ∈ p, i.Lexable) (hq : q ≠ [])
    (hqwords : ∀ i ∈ q, i.Lexable) : p.listing = q.listing ↔ p = q := by
  constructor
  · intro hsame
    apply Option.some.inj
    rw [← ofListing?_listing hp hpwords, hsame, ofListing?_listing hq hqwords]
  · intro hsame
    rw [hsame]

/-- A text with a space makes two pieces, so its listing is that of another program. -/
example : listing [.number "1 2"] = listing [.number "1", .number "2"] := by decide

end Program

/-! ### The listing of a source -/

variable {source : String}

/-- **The program of an accepted source is made of words**, those of its tokens. -/
theorem lexable_of_accepted (h : (compile source).rejection? = none) :
    ∀ i ∈ (compile source).emitted, i.Lexable := by
  intro i hi
  have hwritten := written_of_accepted h i hi
  cases i with
  | number s => exact lexeme_of_mem_sourceTokens hwritten
  | constant s =>
    obtain ⟨before, after, htokens, -⟩ := hwritten
    show (Token.name s).Lexeme
    apply @lexeme_of_mem_sourceTokens source
    simp [htokens]
  | call s =>
    obtain ⟨before, after, htokens⟩ := hwritten
    show (Token.name s).Lexeme
    apply @lexeme_of_mem_sourceTokens source
    simp [htokens]
  | negate | binary => trivial

/-- **What is listed is what is run.**  The listing of an accepted source, cut at its single spaces
    and read piece by piece, is its program, with as many pieces as instructions; so two accepted
    sources have the same listing exactly if they have the same program.  And the second line of an
    entry, behind three spaces, is read back as the very program whose value is the outcome. -/
theorem listing_readBack (h : (compile source).rejection? = none) :
    Program.ofListing? (compile source).emitted.listing = some (compile source).emitted ∧
    (Program.pieces (compile source).emitted.listing).length = (compile source).emitted.length ∧
    (∀ other, (compile other).rejection? = none →
      ((compile source).emitted.listing = (compile other).emitted.listing ↔
        (compile source).emitted = (compile other).emitted)) ∧
    ∀ s : Session, s.listing = true →
      ∃ line listed p, (s.entry source).1 = line ++ "\n" ++ ("   " ++ listed ++ "\n") ∧
        Program.ofListing? listed = some p ∧ p = (compile source).emitted ∧
        (evaluate source).outcome = p.value := by
  have hne := emitted_ne_nil h
  have hwords := lexable_of_accepted h
  have hread := Program.ofListing?_listing hne hwords
  refine ⟨hread, ?_, ?_, ?_⟩
  · rw [Program.pieces_listing hne hwords, List.length_map]
  · intro other hother
    exact Program.listing_inj hne hwords (emitted_ne_nil hother) (lexable_of_accepted hother)
  · intro s hs
    have hevaluate : evaluate source
        = ⟨some (compile source).emitted, (compile source).emitted.value⟩ := by
      rw [evaluate, Compilation.program?, h]
    refine ⟨Nat.repr (s.count + 1) ++ ": " ++ Session.shown source ++ " = " ++
      (evaluate source).text, (compile source).emitted.listing, _, ?_, hread, rfl, ?_⟩
    · -- With listings, an entry has a second line, and this is the listing of the program.
      show _ ++ "\n" ++ (if s.listing then "   " ++ (evaluate source).listing ++ "\n" else "") = _
      rw [if_pos hs, hevaluate]
      rfl
    · rw [hevaluate]

/-- A number, a constant, a function and two operators: five pieces, of which each kind is told by
    its first character. -/
theorem listing_readBack_each_kind :
    (compile "-2*sin(pi)").rejection? = none ∧
      (compile "-2*sin(pi)").emitted.listing = "2 ! @pi sin *" ∧
      Program.ofListing? "2 ! @pi sin *"
        = some [.number "2", .negate, .constant "pi", .call "sin", .binary .mul] ∧
      (Program.pieces "2 ! @pi sin *").length = 5 := by
  have haccepted : (compile "-2*sin(pi)").rejection? = none := by cbv
  have hemitted : (compile "-2*sin(pi)").emitted
      = [.number "2", .negate, .constant "pi", .call "sin", .binary .mul] := by cbv
  have hlisting : Program.listing [.number "2", .negate, .constant "pi", .call "sin", .binary .mul]
      = "2 ! @pi sin *" := by decide
  obtain ⟨hread, hlength, -⟩ := listing_readBack haccepted
  rw [hemitted, hlisting] at hread hlength
  exact ⟨haccepted, by rw [hemitted, hlisting], hread, hlength⟩

end Reckoner
