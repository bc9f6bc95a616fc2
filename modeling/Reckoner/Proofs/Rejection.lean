import Mathlib.Order.Bounds.Defs
import Reckoner.Proofs.Acceptance
import Reckoner.Proofs.Completion
import Reckoner.Proofs.Rendering

namespace Reckoner

/-!
# Which offence a rejection names

Reading goes on as long as what has been read can still be accepted, and the rejection says what is
wrong at the point where it stops.

* `Viable` — some accepted source starts with the tokens.  A draft takes them all
  (`Viable.exists_draft`), and whatever it takes is such a start (`viable_of_readAll`).
* `Overflows` — a token opens one level more than may be open.  A token that opens a level is
  refused for no other reason (`Draft.Holds.overflows`).
* `offence?` — what is wrong at a point, told from the tokens before it, the token there and the
  fault, if one comes next.  A token that is refused (`Draft.Holds.offence_of_read`) and the end of
  the tokens (`Draft.Holds.offence_of_end`) are answered with it.
-/

/-- **Tokens that can still be accepted**: some accepted source starts with them. -/
def Viable (ts : List Token) : Prop :=
  ∃ source, (compile source).rejection? = none ∧ ts <+: sourceTokens source

/-- A token that opens a level: a parenthesis or a sign where an operand is due, or a parenthesis
    right after a name. -/
def OpensLevel (past : List Token) (t : Token) : Prop :=
  (operandDue past = true ∧ (t = .opening ∨ ∃ negative, t = .sign negative)) ∨
    (t = .opening ∧ ∃ f, past.getLast? = some (.name f))

/-- **A level too many.**  The token opens a level where `maxNesting` levels are open already, in an
    expression that goes on with it. -/
def Overflows (past : List Token) (t : Token) : Prop :=
  OpensLevel past t ∧ ∃ rest, Derives .sum (past ++ t :: rest) ∧
    openLevels [] past (t :: rest) = maxNesting

open Classical in
/-- **What is wrong after `read`**, if anything is: at the end of the tokens, where the fault or the
    end of the text comes next, or at the token that comes next. -/
noncomputable def offence? (fault? : Option LexError) (read : List Token) :
    List Token → Option CompileError
  | [] =>
    match fault? with
    | some e => some (.lexical e)
    | none =>
      if operandDue read then some .missingOperand
      else if Enclosed read then some .unclosed
      else none
  | t :: _ =>
    if Overflows read t then some .tooDeep
    else if operandDue read then some (.unexpectedToken t)
    else if Enclosed read then some .unclosed
    else some (.trailingToken t)

/-! ### What a draft expects -/

/-- What may come after a token. -/
def Token.expects : Token → Expectation
  | operator _ | opening => .operand
  | closing | number _ => .continuation
  | name f => .argument f

/-- What may come after tokens: the last of them decides. -/
def expectation (past : List Token) : Expectation :=
  match past.getLast? with
  | none => .operand
  | some t => t.expects

theorem expectation_eq_operand (past : List Token) :
    expectation past = .operand ↔ operandDue past = true := by
  rw [expectation, operandDue]
  cases past.getLast? with
  | none => simp
  | some t => cases t <;> simp [Token.expects]

theorem expectation_eq_argument {past : List Token} {f : String} :
    expectation past = .argument f ↔ past.getLast? = some (.name f) := by
  rw [expectation]
  cases past.getLast? with
  | none => simp
  | some t => cases t <;> simp [Token.expects]

namespace Draft

variable {d d' : Draft} {t : Token} {ts rest : List Token} {e : CompileError}
  {pending : List Pending}

/-- After an operand, an operator is taken, and so is the closing parenthesis of a level. -/
theorem continueOperand_cases (pending : List Pending) (t : Token) :
    (∃ d', (continueOperand pending t).2 = .ok d' ∧ d'.expecting = t.expects) ∨
      (continueOperand pending t).2 = .error
        (if remaining Operator.leastRank pending = [] then .trailingToken t else .unclosed) := by
  by_cases hoperator : ∃ o, t = .operator o
  · obtain ⟨o, rfl⟩ := hoperator
    cases o <;> exact .inl ⟨_, rfl, rfl⟩
  · by_cases hlevel : t = .closing ∧ remaining Operator.leastRank pending ≠ []
    · obtain ⟨rfl, hne⟩ := hlevel
      obtain ⟨level, outer, hrest⟩ := List.exists_cons_of_ne_nil hne
      rw [continueOperand_closing hrest]
      exact .inl ⟨_, rfl, rfl⟩
    · rw [continueOperand_refused pending (fun o ho => hoperator ⟨o, ho⟩) fun hc =>
        Decidable.byContradiction fun hne => hlevel ⟨hc, hne⟩]
      exact .inr rfl

/-- What a token after an operand is answered with.  A parenthesis right after a name is no such
    token. -/
theorem read_of_operand_read (hd : d.expecting ≠ .operand)
    (ht : t = .opening → ∀ f, d.expecting ≠ .argument f) :
    (d.read t).2 = (continueOperand d.pending t).2 := by
  by_cases hopening : t = .opening
  · subst hopening
    obtain ⟨pending, ex⟩ := d
    cases ex with
    | operand => exact absurd rfl hd
    | argument f => exact absurd rfl (ht rfl f)
    | continuation => rfl
  · rw [read_of_ne_operand hd hopening]

/-- The token that was taken last decides what may come next. -/
theorem expecting_of_read (h : (d.read t).2 = .ok d') : d'.expecting = t.expects := by
  by_cases hd : d.expecting = .operand
  · obtain ⟨pending, ex⟩ := d
    obtain rfl : ex = .operand := hd
    cases t with
    | number | name =>
      obtain rfl := Except.ok.inj h
      rfl
    | opening =>
      obtain ⟨-, rfl⟩ := openLevel_ok h
      rfl
    | closing => cases h
    | operator o =>
      cases o with
      | add | sub =>
        obtain ⟨-, rfl⟩ := openLevel_ok h
        rfl
      | mul | div | pow => cases h
  · by_cases hargument : t = .opening ∧ ∃ f, d.expecting = .argument f
    · obtain ⟨rfl, f, hf⟩ := hargument
      obtain ⟨pending, ex⟩ := d
      obtain rfl : ex = .argument f := hf
      obtain ⟨-, rfl⟩ := openLevel_ok h
      rfl
    · rw [read_of_operand_read hd fun ht f hf => hargument ⟨ht, f, hf⟩] at h
      obtain ⟨d₁, htaken, hexpects⟩ | hrefused := continueOperand_cases d.pending t
      · obtain rfl := Except.ok.inj (h.symm.trans htaken)
        exact hexpects
      · rw [hrefused] at h
        cases h

/-- What a draft expects is told from the tokens that it has taken. -/
theorem expecting_of_readAll (h : (empty.readAll ts).2 = .ok d) : d.expecting = expectation ts := by
  rcases List.eq_nil_or_concat ts with rfl | ⟨past, t, rfl⟩
  · obtain rfl := Except.ok.inj h
    rfl
  · rw [List.concat_eq_append] at h ⊢
    obtain ⟨d₁, hpast⟩ := exists_readAll_of_append h
    rw [readAll_concat hpast] at h
    rw [expecting_of_read h, expectation, List.getLast?_concat]

/-! ### Levels too many -/

/-- **A full draft overflows** at a token that opens a level.  A phrase `q` that goes on with the
    token shows it: completed, it has all the levels that wait. -/
theorem Awaits.overflows {before xs ys : List Token} {q : Phrase} (h : Awaits pending before)
    (hts : before ++ xs = ts) (hfull : maxNesting ≤ levels pending) (hq : q.Proper)
    (hrank : Operator.pow.rank ≤ q.rank) (hcut : q.tokens = xs ++ t :: ys)
    (hnone : ∀ us, openLevels before xs us = 0) (hopens : OpensLevel ts t) : Overflows ts t := by
  subst hts
  have hplace : ∀ x ∈ pending.head?, x.place ≤ q.rank :=
    fun x _ => Nat.le_trans x.place_le_pow hrank
  obtain ⟨p, hp, htokens, -⟩ := h.completed hq hplace
  have hleast := h.le_openLevels hq hplace hcut (List.cons_ne_nil t ys)
  have hsplit := openLevels_append_le [] before xs (t :: ys ++ closings pending)
  have hbefore := h.openLevels_le (xs ++ (t :: ys ++ closings pending))
  have hlevels := h.levels_le
  rw [List.nil_append, hnone] at hsplit
  refine ⟨hopens, ys ++ closings pending, ?_, ?_⟩
  · have hderives := hp.derives (c := .sum) p.leastRank_le_rank
    rw [htokens, hcut] at hderives
    simpa using hderives
  · rw [← List.cons_append]
    omega

variable (h : d.Holds ts) (hex : d.expecting = expectation ts)
include h hex

/-- **A token that opens a level** is refused only because the level is one too many. -/
theorem Holds.overflows (hopens : OpensLevel ts t) (hread : (d.read t).2 = .error e) :
    e = .tooDeep ∧ Overflows ts t := by
  obtain ⟨pending, ex⟩ := d
  obtain rfl : ex = expectation ts := hex
  rcases hopens with ⟨hdue, htoken⟩ | ⟨rfl, f, hf⟩
  · have hoperand : expectation ts = .operand := (expectation_eq_operand ts).2 hdue
    rw [hoperand] at h hread
    have hawaits : Awaits pending ts := h
    rcases htoken with rfl | ⟨negative, rfl⟩
    · obtain ⟨rfl, hfull⟩ := openLevel_error hread
      exact ⟨rfl, hawaits.overflows (List.append_nil ts) hfull (.group (.number "0"))
        (Nat.le_succ _) rfl (fun _ => rfl) (.inl ⟨hdue, .inl rfl⟩)⟩
    · have hread : openLevel (.sign negative) pending = .error e := by
        cases negative <;> exact hread
      obtain ⟨rfl, hfull⟩ := openLevel_error hread
      exact ⟨rfl, hawaits.overflows (List.append_nil ts) hfull
        (.sign negative (Nat.le_succ _) (.number "0")) (Nat.le_refl _) rfl (fun _ => rfl)
        (.inl ⟨hdue, .inr ⟨negative, rfl⟩⟩)⟩
  · have hargument : expectation ts = .argument f := expectation_eq_argument.2 hf
    rw [hargument] at h hread
    obtain ⟨before, hawaits, hts⟩ := h
    obtain ⟨rfl, hfull⟩ := openLevel_error hread
    -- The name belongs to the operand that the parenthesis would go on with.
    exact ⟨rfl, hawaits.overflows hts hfull (.call f (.number "0")) (Nat.le_succ _) rfl
      (fun us => openLevels_name f) (.inr ⟨rfl, f, hf⟩)⟩

/-- **A token that is refused** is answered with the offence at this point. -/
theorem Holds.offence_of_read (fault? : Option LexError) (hread : (d.read t).2 = .error e) :
    offence? fault? ts (t :: rest) = some e := by
  by_cases hopens : OpensLevel ts t
  · obtain ⟨rfl, hover⟩ := h.overflows hex hopens hread
    exact if_pos hover
  · have hfits : ¬ Overflows ts t := fun hover => hopens hover.1
    rw [offence?, if_neg hfits]
    by_cases hdue : operandDue ts = true
    · -- The token starts no operand.
      rw [if_pos hdue]
      obtain ⟨pending, ex⟩ := d
      obtain rfl : ex = .operand := hex.trans ((expectation_eq_operand ts).2 hdue)
      cases t with
      | number | name => cases hread
      | opening => exact absurd (.inl ⟨hdue, .inl rfl⟩) hopens
      | closing =>
        obtain rfl := Except.error.inj hread
        rfl
      | operator o =>
        cases o with
        | add => exact absurd (.inl ⟨hdue, .inr ⟨false, rfl⟩⟩) hopens
        | sub => exact absurd (.inl ⟨hdue, .inr ⟨true, rfl⟩⟩) hopens
        | mul | div | pow =>
          obtain rfl := Except.error.inj hread
          rfl
    · -- The token goes on with no operand.
      rw [if_neg hdue]
      have hoperand : d.expecting ≠ .operand := by
        rw [hex]
        exact fun hd => hdue ((expectation_eq_operand ts).1 hd)
      have hargument : t = .opening → ∀ f, d.expecting ≠ .argument f := by
        rintro rfl f hf
        rw [hex] at hf
        exact hopens (.inr ⟨rfl, f, expectation_eq_argument.1 hf⟩)
      rw [read_of_operand_read hoperand hargument] at hread
      obtain ⟨d', htaken, -⟩ | hrefused := continueOperand_cases d.pending t
      · rw [htaken] at hread
        cases hread
      · obtain rfl := Except.error.inj (hrefused.symm.trans hread)
        by_cases hinside : Enclosed ts
        · rw [if_pos hinside, if_neg fun hnone => h.not_enclosed_iff.2 hnone hinside]
        · rw [if_neg hinside, if_pos (h.not_enclosed_iff.1 hinside)]

/-- **The end of the tokens** is answered with the offence there, if there is one. -/
theorem Holds.offence_of_end (fault? : Option LexError) :
    (d.compileTokens fault? []).rejection? = offence? fault? ts [] := by
  cases fault? with
  | some e => rfl
  | none =>
    show d.finish.rejection? = _
    rw [offence?]
    by_cases hdue : operandDue ts = true
    · rw [if_pos hdue]
      obtain ⟨pending, ex⟩ := d
      obtain rfl : ex = .operand := hex.trans ((expectation_eq_operand ts).2 hdue)
      rfl
    · have hoperand : d.expecting ≠ .operand := by
        rw [hex]
        exact fun hd => hdue ((expectation_eq_operand ts).1 hd)
      rw [if_neg hdue, finish_of_ne_operand hoperand]
      simp only [List.isEmpty_iff]
      by_cases hinside : Enclosed ts
      · rw [if_pos hinside, if_neg fun hnone => h.not_enclosed_iff.2 hnone hinside]
      · rw [if_neg hinside, if_pos (h.not_enclosed_iff.1 hinside)]

end Draft

/-! ### Tokens that can still be accepted -/

variable {source : String} {ts read rest : List Token} {t : Token} {d : Draft} {e : CompileError}

/-- The tokens of a source are words. -/
theorem lexeme_of_mem_sourceTokens (ht : t ∈ sourceTokens source) : t.Lexeme := by
  obtain ⟨text, ts, fault?, taken, left, hcut, hsegmented, hs⟩ := exists_segmented source.toList
  have hread := Cursor.tokens_of_segmented hsegmented hs (c := .ofSource source) hcut
  rw [sourceTokens, hread] at ht
  exact hsegmented.lexeme t ht

theorem lexeme_zero : (Token.number "0").Lexeme := by
  refine .whole (by simp) fun c hc => ?_
  obtain rfl : c = '0' := by simpa using hc
  decide

/-- What an accepted source starts with has been taken. -/
theorem Viable.exists_draft (h : Viable ts) : ∃ d, (Draft.empty.readAll ts).2 = .ok d := by
  obtain ⟨source, haccepted, rest, htokens⟩ := h
  rw [compile_eq_compiled] at haccepted
  obtain ⟨d, hread, -⟩ := Draft.Step.exists_of_compiled haccepted
  rw [← htokens] at hread
  exact Draft.exists_readAll_of_append hread

/-- **What has been taken can still be accepted**, by what completes the draft. -/
theorem viable_of_readAll (hlexeme : ∀ t ∈ ts, t.Lexeme) (h : (Draft.empty.readAll ts).2 = .ok d) :
    Viable ts := by
  have hheld : d.Holds ([] ++ ts) := Draft.holds_empty.readAll h
  obtain ⟨p, operand, hp, htokens, hn, hoperand⟩ := hheld.completed
  have hwords : ∀ t ∈ p.tokens, t.Lexeme := by
    intro t ht
    rw [htokens, List.nil_append, List.mem_append, List.mem_append] at ht
    rcases ht with ht | ht | ht
    · exact hlexeme t ht
    · rcases hoperand with rfl | rfl
      · cases ht
      · obtain rfl := List.mem_singleton.1 ht
        exact lexeme_zero
    · obtain rfl := Draft.eq_closing_of_mem_closings ht
      exact Token.lexeme_closing
  obtain ⟨source, hsource, hfault⟩ := exists_source_of_lexemes hwords
  refine ⟨source, ?_, ?_⟩
  · rw [compile_of_phrase hfault hp hsource.symm hn]
  · rw [hsource, htokens]
    exact List.prefix_append _ _

theorem Viable.of_prefix {us : List Token} (h : Viable ts) (hstarts : us <+: ts) : Viable us := by
  obtain ⟨source, haccepted, htokens⟩ := h
  exact ⟨source, haccepted, hstarts.trans htokens⟩

/-- What has been refused cannot be accepted any more. -/
theorem not_viable_of_readAll (h : (Draft.empty.readAll ts).2 = .error e) : ¬ Viable ts := by
  intro hviable
  obtain ⟨d, hd⟩ := hviable.exists_draft
  rw [h] at hd
  cases hd

/-- The last point up to which tokens can be accepted. -/
theorem isGreatest_viable {ts : List Token} (hviable : Viable read)
    (hnext : ∀ t ∈ rest.head?, ¬ Viable (read ++ [t])) (hcut : ts = read ++ rest) :
    IsGreatest {j | j ≤ ts.length ∧ Viable (ts.take j)} read.length := by
  subst hcut
  refine ⟨⟨by simp, by rwa [List.take_left]⟩, ?_⟩
  rintro j ⟨hj, hlonger⟩
  -- At a later point the next token would have been accepted as well.
  refine Nat.le_of_not_lt fun hlt => ?_
  cases rest with
  | nil =>
    rw [List.append_nil] at hj
    omega
  | cons t rest =>
    refine hnext t rfl (hlonger.of_prefix (List.prefix_take_iff.2 ⟨?_, ?_⟩))
    · rw [List.append_cons read t rest]
      exact List.prefix_append _ _
    · rw [List.length_append, List.length_singleton]
      exact hlt

/-- **Nothing after a token that is refused matters.** -/
theorem compile_of_refused {code : Program} (h : Draft.empty.readAll ts = (code, .error e))
    (hstarts : ts <+: sourceTokens source) : compile source = ⟨code, some e⟩ := by
  obtain ⟨rest, htokens⟩ := hstarts
  rw [compile_eq_compiled, ← htokens, Draft.readAll_append, h]
  rfl

/-- **A rejection names the first offence.**  There is a last point up to which the tokens of a
    source can still be accepted, and the rejection says what is wrong there: a source is accepted
    if nothing is wrong at that point.  If a token is refused there, nothing after it matters. -/
theorem rejection_first_offence (source : String) :
    ∃ k, IsGreatest
        {j | j ≤ (sourceTokens source).length ∧ Viable ((sourceTokens source).take j)} k ∧
      (compile source).rejection? = offence? (sourceFault? source)
        ((sourceTokens source).take k) ((sourceTokens source).drop k) ∧
      (k < (sourceTokens source).length → ∀ other,
        (sourceTokens other).take (k + 1) = (sourceTokens source).take (k + 1) →
        compile other = compile source) := by
  have hlexeme : ∀ t ∈ sourceTokens source, t.Lexeme := fun t => lexeme_of_mem_sourceTokens
  rcases hrun : (Draft.empty.readAll (sourceTokens source)).2 with e | d
  · -- A token is refused.
    obtain ⟨read, t, rest, d, hcut, hread, ht⟩ := Draft.readAll_refused hrun
    have hheld : d.Holds read := Draft.holds_empty.readAll hread
    have hviable : Viable read := by
      refine viable_of_readAll (fun u hu => hlexeme u ?_) hread
      rw [hcut]
      exact List.mem_append_left _ hu
    have hrefused : (Draft.empty.readAll (read ++ [t])).2 = .error e := by
      rw [Draft.readAll_concat hread, ht]
    have hnext : (sourceTokens source).take (read.length + 1) = read ++ [t] := by
      rw [hcut, List.append_cons]
      exact List.take_left' (by simp)
    have hcompile {other : String} (hother : read ++ [t] <+: sourceTokens other) :=
      compile_of_refused (Prod.ext rfl hrefused) hother
    have hstarts : read ++ [t] <+: sourceTokens source := hnext ▸ List.take_prefix _ _
    refine ⟨read.length, isGreatest_viable hviable ?_ hcut, ?_, ?_⟩
    · intro u hu
      obtain rfl : t = u := by simpa using hu
      exact not_viable_of_readAll hrefused
    · rw [hcompile hstarts, hcut, List.take_left, List.drop_left]
      exact (hheld.offence_of_read (Draft.expecting_of_readAll hread) _ ht).symm
    · intro _ other hother
      rw [hcompile hstarts, hcompile]
      rw [← hnext, ← hother]
      exact List.take_prefix _ _
  · -- All tokens are taken, so the last point is their end.
    have hheld : d.Holds (sourceTokens source) := Draft.holds_empty.readAll hrun
    have hviable := viable_of_readAll hlexeme hrun
    refine ⟨_, isGreatest_viable hviable (by simp) (List.append_nil _).symm, ?_, fun hlt => ?_⟩
    · rw [List.take_length, List.drop_length, compile_eq_compiled,
        Draft.Step.rejection_compiled hrun]
      exact hheld.offence_of_end (Draft.expecting_of_readAll hrun) _
    · exact absurd hlt (Nat.lt_irrefl _)

end Reckoner
