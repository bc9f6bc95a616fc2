import Reckoner.Proofs.Levels
import Reckoner.Proofs.Unfinished

namespace Reckoner

/-!
# Which sources are accepted

A source is accepted exactly if it has no lexical fault, the grammar derives its tokens, and no
more than `maxNesting` levels are open at any point (`accepted_iff_derives`).  The derivation may be
any: the grammar is ambiguous about signs within chains of powers, but what has a derivation has a
proper phrase, and a proper phrase that is not too deep is read.

* `exists_phrase_of_accepted` — what is accepted has been read as a proper phrase;
* `compile_of_phrase` — the tokens of a proper phrase compile to the listing of its tree;
* `rejection_of_phrase_tooDeep` — if its levels do not fit, they do not compile, and hence of an
  accepted source every proper phrase fits (`nesting_le_of_accepted`).
-/

variable {source : String} {p : Phrase}

/-- **What is accepted is a phrase.**  The source has no fault, and its tokens are those of a
    proper phrase whose levels fit. -/
theorem exists_phrase_of_accepted (h : (compile source).rejection? = none) :
    sourceFault? source = none ∧
      ∃ p : Phrase, p.Proper ∧ p.tokens = sourceTokens source ∧ p.nesting ≤ maxNesting := by
  rw [compile_eq_compiled] at h
  -- All tokens were taken, so the end of the source has to be accepted.
  obtain ⟨d, hread, hend⟩ := Draft.Step.exists_of_compiled h
  have hheld : d.Holds ([] ++ sourceTokens source) := Draft.holds_empty.readAll hread
  rcases hfault : sourceFault? source with _ | e
  · rw [hfault] at hend
    exact ⟨rfl, hheld.finish hend⟩
  · rw [hfault] at hend
    cases hend

/-- **A phrase is accepted.**  Without a fault, the tokens of a proper phrase whose levels fit
    compile to the postorder listing of its tree. -/
theorem compile_of_phrase (hfault : sourceFault? source = none) (hp : p.Proper)
    (htokens : p.tokens = sourceTokens source) (hn : p.nesting ≤ maxNesting) :
    compile source = ⟨p.tree.program, none⟩ := by
  have hadmits : Draft.Admits [] p.rank := fun _ x hx => by simp at hx
  have hlevels : Draft.levels [] + p.nesting ≤ maxNesting := by
    rwa [show Draft.levels [] = 0 from rfl, Nat.zero_add]
  have hread := Draft.readAll_phrase hp [] hadmits hlevels
  rw [compile_eq_compiled, hfault, ← htokens]
  exact hread.compiled p.leastRank_le_rank

/-- **A phrase that is too deep is refused** for that reason, whether or not a fault comes later. -/
theorem rejection_of_phrase_tooDeep (hp : p.Proper) (htokens : p.tokens = sourceTokens source)
    (hn : maxNesting < p.nesting) : (compile source).rejection? = some .tooDeep := by
  have hadmits : Draft.Admits [] p.rank := fun _ x hx => by simp at hx
  have hlevels : maxNesting < Draft.levels [] + p.nesting := by
    rwa [show Draft.levels [] = 0 from rfl, Nat.zero_add]
  obtain ⟨code, hcode⟩ := Draft.readAll_phrase_tooDeep hp [] hadmits (Nat.zero_le _) hlevels
  have hrun : Draft.empty.readAll (sourceTokens source) = (code, .error .tooDeep) :=
    htokens ▸ hcode
  rw [compile_eq_compiled, hrun]
  rfl

/-- Of an accepted source, the levels of every proper phrase fit. -/
theorem nesting_le_of_accepted (h : (compile source).rejection? = none) (hp : p.Proper)
    (htokens : p.tokens = sourceTokens source) : p.nesting ≤ maxNesting := by
  -- Otherwise the token that opens a level too many would have been refused.
  refine Nat.le_of_not_lt fun hdeep => ?_
  rw [rejection_of_phrase_tooDeep hp htokens hdeep] at h
  cases h

/-- **The accepted sources** are those without a lexical fault whose tokens the grammar derives and
    which have at most `maxNesting` levels open at any point. -/
theorem accepted_iff_derives (source : String) :
    (compile source).rejection? = none ↔
      sourceFault? source = none ∧ Derives .sum (sourceTokens source) ∧
        ∀ read rest, sourceTokens source = read ++ rest →
          openLevels [] read rest ≤ maxNesting := by
  constructor
  · intro h
    obtain ⟨hfault, p, hp, htokens, hn⟩ := exists_phrase_of_accepted h
    rw [← htokens]
    exact ⟨hfault, hp.derives p.leastRank_le_rank, (openLevels_le_iff hp _).2 hn⟩
  · rintro ⟨hfault, hderives, hlevels⟩
    obtain ⟨p, hp, htokens, -⟩ := hderives.exists_phrase
    rw [← htokens] at hlevels
    rw [compile_of_phrase hfault hp htokens ((openLevels_le_iff hp _).1 hlevels)]

end Reckoner
