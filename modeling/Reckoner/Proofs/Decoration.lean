import Reckoner.Proofs.Substitution

namespace Reckoner

/-!
# Redundant decoration

A unary plus before an operand and parentheses around a node of the expression leave the program of
an accepted source as it is, unless the level that they add makes it too deep (`compile_decorated`).

* `Phrase.Proper.exists_plus` — a plus may stand wherever an operand is due.  Within a chain of
  powers it takes over the rest of the chain, so the phrase becomes another one, but its tree stays
  the same;
* `Context.operandDue_before` — the first token of every node is such a place;
* `Spans` — where a node stands in a source, as `Occurs` for a single token.
-/

/-- **Tokens of a source with all that is around them**: the characters before the tokens, those at
    the tokens and those after them, each cut into tokens. -/
structure Spans (source : String) (before : List Char) (past : List Token) (text : List Char)
    (inside : List Token) (after : List Char) (future : List Token) : Prop where
  cut : source.toList = before ++ (text ++ after)
  past : Segmented before past (text ++ after)
  inside : Segmented text inside after
  future : Segmented after future []

/-- A token with a plus before it, between two texts. -/
def plussed (before : List Char) (t : Token) (after : List Char) : String :=
  String.ofList (before ++ '+' :: (t.text.toList ++ after))

/-- **A decoration means nothing**: the decorated source compiles as the plain one does, unless more
    levels than allowed are open at once in it, and then it is refused for that reason. -/
structure Neutral (plain decorated : String) : Prop where
  fits : deepest (sourceTokens decorated) ≤ maxNesting → compile decorated = compile plain
  tooDeep : maxNesting < deepest (sourceTokens decorated) →
    (compile decorated).rejection? = some .tooDeep

/-! ### Where an operand is due -/

/-- At the hole of a context, an operand is due. -/
theorem Context.operandDue_before (c : Context) : operandDue c.before = true := by
  induction c with
  | hole => rfl
  | call f c ih => exact (operandDue_append_cons (operandDue_append_opening [.name f]) _).trans ih
  | group c ih => exact (operandDue_append_cons (operandDue_append_opening []) _).trans ih
  | sign negative c ih =>
    exact (operandDue_append_cons (operandDue_append_operator [] _) _).trans ih
  | left o c b ih => exact ih
  | right o a c ih =>
    exact (operandDue_append_cons (operandDue_append_operator a.tokens o) _).trans ih

namespace Phrase

variable {p : Phrase} {past future more : List Token} {t u : Token}

/-- **No operand is due behind a phrase**, so a token before which one is due stands within the
    phrase, or further than the next token. -/
theorem cut_of_operandDue (h : p.tokens ++ u :: more = past ++ t :: future)
    (hdue : operandDue past = true) :
    (∃ rest, p.tokens = past ++ t :: rest ∧ future = rest ++ u :: more) ∨
      ∃ inside, past = p.tokens ++ u :: inside ∧ more = inside ++ t :: future := by
  rcases append_eq_append_cons h with hleft | ⟨inside, rfl, hright⟩
  · exact .inl hleft
  · cases inside with
    | nil =>
      rw [List.append_nil, ← List.nil_append p.tokens, p.operandDue_append] at hdue
      cases hdue
    | cons v inside =>
      obtain ⟨rfl, hmore⟩ := List.cons.inj hright
      exact .inr ⟨inside, rfl, hmore⟩

/-! ### Plus signs -/

/-- `Plus p past t future q` says that `q` is the phrase `p` with a plus between `past` and the
    token `t`.  The tree is the same, and `q` holds together as tightly as `p`, but not tighter than
    a sign if the plus comes first. -/
structure Plus (p : Phrase) (past : List Token) (t : Token) (future : List Token) (q : Phrase) :
    Prop where
  proper : q.Proper
  tokens : q.tokens = past ++ .operator .add :: t :: future
  tree : q.tree = p.tree
  rank : min p.rank Operator.pow.rank ≤ q.rank
  rank_of_ne : past ≠ [] → p.rank ≤ q.rank

/-- A plus before a whole phrase is a sign, if the phrase is as tight as the operand of a sign. -/
theorem Proper.plus (hp : p.Proper) (h : p.tokens = t :: future)
    (hrank : Operator.pow.rank ≤ p.rank) : Plus p [] t future (.sign false p) where
  proper := .sign false hrank hp
  tokens := congrArg (Token.sign false :: ·) h
  tree := rfl
  rank := Nat.min_le_right _ _
  rank_of_ne hne := absurd rfl hne

/-- A phrase that holds together as before. -/
theorem Plus.of_rank_eq {q : Phrase} (proper : q.Proper)
    (tokens : q.tokens = past ++ .operator .add :: t :: future) (tree : q.tree = p.tree)
    (hrank : q.rank = p.rank) : Plus p past t future q where
  proper := proper
  tokens := tokens
  tree := tree
  rank := hrank ▸ Nat.min_le_left _ _
  rank_of_ne _ := hrank.ge

/-- Between parentheses, such a token stands within what they enclose. -/
theorem cut_of_enclosed (h : p.tokens ++ [.closing] = past ++ t :: future)
    (hdue : operandDue past = true) :
    ∃ rest, p.tokens = past ++ t :: rest ∧ future = rest ++ [.closing] := by
  rcases cut_of_operandDue h hdue with hinside | ⟨inside, -, hnone⟩
  · exact hinside
  · exact absurd hnone (by simp)

/-- **A plus may stand wherever an operand is due**, and changes nothing in the tree. -/
theorem Proper.exists_plus (hp : p.Proper) (h : p.tokens = past ++ t :: future)
    (hdue : operandDue past = true) : ∃ q, Plus p past t future q := by
  -- If the plus comes first, it is a sign before the whole phrase, but for the binary operators.
  induction hp generalizing past future with
  | number s =>
    obtain ⟨rfl, -⟩ : past = [] ∧ _ := by
      simpa [Phrase.tokens, List.singleton_eq_append_iff] using h
    exact ⟨_, Proper.plus (.number s) h (Nat.le_succ _)⟩
  | name s =>
    obtain ⟨rfl, -⟩ : past = [] ∧ _ := by
      simpa [Phrase.tokens, List.singleton_eq_append_iff] using h
    exact ⟨_, Proper.plus (.name s) h (Nat.le_succ _)⟩
  | @call f a ha ih =>
    rcases past with _ | ⟨v, _ | ⟨w, past⟩⟩
    · exact ⟨_, Proper.plus (.call f ha) h (Nat.le_succ _)⟩
    · obtain ⟨rfl, -⟩ := List.cons.inj h
      cases hdue
    · obtain ⟨rfl, hgroup⟩ := List.cons.inj h
      obtain ⟨rfl, hbody⟩ := List.cons.inj hgroup
      have hinside : operandDue past = true :=
        (operandDue_append_cons (operandDue_append_opening [.name f]) past).symm.trans hdue
      obtain ⟨rest, hcut, rfl⟩ := cut_of_enclosed hbody hinside
      obtain ⟨q, hq⟩ := ih hcut hinside
      refine ⟨.call f q, .of_rank_eq (.call f hq.proper) ?_ ?_ rfl⟩
      · simp [Phrase.tokens, hq.tokens]
      · exact congrArg (Expr.call f) hq.tree
  | @group a ha ih =>
    rcases past with _ | ⟨v, past⟩
    · exact ⟨_, Proper.plus (.group ha) h (Nat.le_succ _)⟩
    · obtain ⟨rfl, hbody⟩ := List.cons.inj h
      have hinside : operandDue past = true :=
        (operandDue_append_cons (operandDue_append_opening []) past).symm.trans hdue
      obtain ⟨rest, hcut, rfl⟩ := cut_of_enclosed hbody hinside
      obtain ⟨q, hq⟩ := ih hcut hinside
      refine ⟨.group q, .of_rank_eq (.group hq.proper) ?_ ?_ rfl⟩
      · simp [Phrase.tokens, hq.tokens]
      · exact hq.tree
  | @sign negative a holds ha ih =>
    rcases past with _ | ⟨v, past⟩
    · exact ⟨_, Proper.plus (.sign negative holds ha) h (Nat.le_refl _)⟩
    · obtain ⟨rfl, hcut⟩ := List.cons.inj h
      have hinside : operandDue past = true :=
        (operandDue_append_cons (operandDue_append_operator [] _) past).symm.trans hdue
      obtain ⟨q, hq⟩ := ih hcut hinside
      have hholds : Operator.pow.rank ≤ q.rank := by
        have hrank := hq.rank
        omega
      refine ⟨.sign negative q, .of_rank_eq (.sign negative hholds hq.proper) ?_ ?_ rfl⟩
      · exact congrArg (Token.sign negative :: ·) hq.tokens
      · cases negative <;> simp [Phrase.tree, hq.tree]
  | @binary o a b holdsLeft holdsRight ha hb iha ihb =>
    rcases cut_of_operandDue h hdue with ⟨rest, hcut, rfl⟩ | ⟨inside, rfl, hcut⟩
    · by_cases hwhole : o = .pow ∧ past = []
      · -- No sign stands left of `^`, so the plus takes the whole chain.
        obtain ⟨rfl, rfl⟩ := hwhole
        exact ⟨_, Proper.plus (.binary .pow holdsLeft holdsRight ha hb) h (Nat.le_refl _)⟩
      · obtain ⟨q, hq⟩ := iha hcut hdue
        have hplace : Expr.leftPlace o ≤ q.rank := by
          by_cases ho : o = .pow
          · exact holdsLeft.trans (hq.rank_of_ne fun hnil => hwhole ⟨ho, hnil⟩)
          · -- The other operators bind less than a sign.
            have hlow := Operator.rank_lt_of_ne ho
            have hrank := hq.rank
            rw [Operator.leftPlace_of_ne ho] at holdsLeft ⊢
            omega
        refine ⟨.binary o q b, .of_rank_eq (.binary o hplace holdsRight hq.proper hb) ?_ ?_ rfl⟩
        · simp [Phrase.tokens, hq.tokens]
        · exact congrArg (Expr.binary o · b.tree) hq.tree
    · have hinside : operandDue inside = true :=
        (operandDue_append_cons (operandDue_append_operator a.tokens o) inside).symm.trans hdue
      obtain ⟨q, hq⟩ := ihb hcut hinside
      have hplace : Expr.rightPlace o ≤ q.rank := by
        -- To the right of an operator a sign may stand.
        have hpow : Expr.rightPlace o ≤ Operator.pow.rank := by cases o <;> decide
        have hrank := hq.rank
        omega
      refine ⟨.binary o a q, .of_rank_eq (.binary o holdsLeft hplace ha hq.proper) ?_ ?_ rfl⟩
      · simp [Phrase.tokens, hq.tokens]
      · exact congrArg (Expr.binary o a.tree) hq.tree

end Phrase

/-! ### Where nodes stand -/

namespace Spans

variable {source : String} {before text after : List Char} {past inside future : List Token}

/-- Tokens of a source without a fault stand somewhere. -/
theorem exists_of_sourceTokens (hfault : sourceFault? source = none)
    (h : sourceTokens source = past ++ (inside ++ future)) :
    ∃ before text after, Spans source before past text inside after future := by
  have hwhole := segmented_of_faultless hfault
  rw [h] at hwhole
  obtain ⟨before, behind, hcut, hpast, hbehind⟩ := hwhole.exists_of_append
  obtain ⟨text, after, rfl, hinside, hfuture⟩ := hbehind.exists_of_append
  rw [List.append_nil] at hpast hinside
  exact ⟨before, text, after, hcut, hpast, hinside, hfuture⟩

/-- **The tokens with parentheses** around some of them are the same otherwise. -/
theorem tokens_spliced (h : Spans source before past text inside after future) :
    sourceTokens (spliced before (String.ofList text) after)
        = past ++ .opening :: (inside ++ .closing :: future) ∧
      sourceFault? (spliced before (String.ofList text) after) = none := by
  have hinside : Segmented (String.ofList text).toList inside after := by
    rw [String.toList_ofList]
    exact h.inside
  exact h.past.tokens_spliced hinside h.future

end Spans

/-- **The tokens with a plus** before one of them are the same otherwise. -/
theorem Occurs.tokens_plussed {source : String} {before after : List Char}
    {past future : List Token} {t : Token} (h : Occurs source before past t after future) :
    sourceTokens (plussed before t after) = past ++ .operator .add :: t :: future ∧
      sourceFault? (plussed before t after) = none := by
  have htoken := h.future.cons h.lexeme (by rw [List.append_nil]; exact h.ends)
  obtain ⟨hplus, hbehind⟩ := htoken.cons_symbol (c := '+') (t := .operator .add) rfl
  apply sourceTokens_of_segmented
  rw [plussed, String.toList_ofList]
  exact (h.past.follow hbehind).append hplus

/-! ### Decorated sources -/

/-- A phrase with the same program is the phrase of a neutral decoration. -/
theorem Neutral.of_phrase {plain decorated : String} {p : Phrase}
    (haccepted : (compile plain).rejection? = none)
    (hemitted : (compile plain).emitted = p.tree.program) (hp : p.Proper)
    (htokens : p.tokens = sourceTokens decorated) (hfault : sourceFault? decorated = none) :
    Neutral plain decorated where
  fits hfits := by
    rw [← htokens, deepest_tokens hp] at hfits
    rw [compile_of_phrase hfault hp htokens hfits, ← hemitted, ← haccepted]
  tooDeep hdeep := by
    rw [← htokens, deepest_tokens hp] at hdeep
    exact rejection_of_phrase_tooDeep hp htokens hdeep

/-- **Redundant decoration is neutral.**  In an accepted source, a plus may be put directly before
    any token that begins an operand, and parentheses around the text of any node of the expression,
    with or without the blanks at its ends.  The tokens are the same but for the new ones, and so is
    the program, unless the new level is one too many. -/
theorem compile_decorated {source : String} (h : (compile source).rejection? = none) :
    ((∀ past t future, sourceTokens source = past ++ t :: future →
        ∃ before after, Occurs source before past t after future) ∧
      ∀ before past t after future, Occurs source before past t after future →
        operandDue past = true →
        sourceTokens (plussed before t after) = past ++ .operator .add :: t :: future ∧
          Neutral source (plussed before t after)) ∧
    ∀ (c : Context) (node : Phrase), (c.fill node).Proper →
      (c.fill node).tokens = sourceTokens source →
      operandDue c.before = true ∧
      (∃ before text after, Spans source before c.before text node.tokens after c.after) ∧
      ∀ before text after, Spans source before c.before text node.tokens after c.after →
        sourceTokens (spliced before (String.ofList text) after)
            = c.before ++ .opening :: (node.tokens ++ .closing :: c.after) ∧
          Neutral source (spliced before (String.ofList text) after) := by
  obtain ⟨hfault, p, hp, htokens, -⟩ := exists_phrase_of_accepted h
  refine ⟨⟨fun past t future => Occurs.exists_of_sourceTokens hfault, ?_⟩, ?_⟩
  · intro before past t after future hoccurs hdue
    obtain ⟨q, hq⟩ := hp.exists_plus (htokens.trans hoccurs.sourceTokens_eq) hdue
    obtain ⟨hplussed, hplussedFault⟩ := hoccurs.tokens_plussed
    have hemitted : (compile source).emitted = q.tree.program :=
      emitted_eq_program h ⟨p, hp, htokens, hq.tree.symm⟩
    exact ⟨hplussed,
      .of_phrase h hemitted hq.proper (hq.tokens.trans hplussed.symm) hplussedFault⟩
  · intro c node hnode hread
    refine ⟨c.operandDue_before, ?_, ?_⟩
    · apply Spans.exists_of_sourceTokens hfault
      rw [← hread, c.tokens_fill]
    · intro before text after hspans
      obtain ⟨hspliced, hsplicedFault⟩ := hspans.tokens_spliced
      -- Parentheses hold most, so they may stand wherever the node does.
      have hgroup : (c.fill (.group node)).Proper :=
        Context.proper_fill hnode (.group (Context.proper_of_fill hnode)) node.rank_le
      have hemitted : (compile source).emitted = (c.fill (.group node)).tree.program := by
        rw [emitted_eq_program h ⟨_, hnode, hread, rfl⟩, c.program_fill, c.program_fill]
        rfl
      refine ⟨hspliced, .of_phrase h hemitted hgroup ?_ hsplicedFault⟩
      rw [hspliced, c.tokens_fill]
      simp [Phrase.tokens]

/-- A plus within a chain of powers, and parentheses around what is right of an operator. -/
theorem compile_decorated_power_chain :
    (compile "2^3^2").rejection? = none ∧ operandDue [.number "2", .operator .pow] = true ∧
      compile "2^+3^2" = compile "2^3^2" ∧ compile "2^(3^2)" = compile "2^3^2" := by
  have haccepted : (compile "2^3^2").rejection? = none := by cbv
  have hdue : operandDue [.number "2", .operator .pow] = true := rfl
  have hdigit (s : String) (c : Char) (hs : s.toList = [c]) (hc : c.isDigit = true) :
      (Token.number s).Lexeme := by
    show Literal s.toList
    rw [hs]
    exact .whole (by simp) (by simpa)
  have hend (rest : List Char) : Segmented [] [] rest := .gap (by simp)
  have hbase (rest : List Char) : Segmented ['2', '^'] [.number "2", .operator .pow] rest := by
    obtain ⟨hpow, hbehind⟩ := (hend rest).cons_symbol (c := '^') (t := .operator .pow) rfl
    exact hpow.cons (t := .number "2") (hdigit _ '2' rfl rfl) (hbehind.endsBefore _)
  have hlast : Segmented ['2'] [.number "2"] [] :=
    (hend []).cons (t := .number "2") (hdigit _ '2' rfl rfl) (by simp [Token.EndsBefore])
  obtain ⟨hpow, hbehind⟩ := hlast.cons_symbol (c := '^') (t := .operator .pow) rfl
  have hchain := hpow.cons (t := .number "3") (hdigit _ '3' rfl rfl) (hbehind.endsBefore _)
  obtain ⟨⟨-, hplus⟩, hgroup⟩ := compile_decorated haccepted
  refine ⟨haccepted, hdue, ?_, ?_⟩
  · have hoccurs : Occurs "2^3^2" ['2', '^'] [.number "2", .operator .pow] (.number "3")
        ['^', '2'] [.operator .pow, .number "2"] := {
      text := rfl
      past := hbase _
      lexeme := hdigit _ '3' rfl rfl
      ends := hbehind.endsBefore _
      future := hpow }
    obtain ⟨htokens, hneutral⟩ := hplus _ _ _ _ _ hoccurs hdue
    refine hneutral.fits ((deepest_le_length _).trans ?_)
    rw [htokens]
    decide
  · have hproper : (Phrase.binary .pow (.number "2")
        (.binary .pow (.number "3") (.number "2"))).Proper :=
      .binary .pow (by decide) (by decide) (.number "2")
        (.binary .pow (by decide) (by decide) (.number "3") (.number "2"))
    have hspans : Spans "2^3^2" ['2', '^'] [.number "2", .operator .pow] ['3', '^', '2']
        [.number "3", .operator .pow, .number "2"] [] [] := {
      cut := rfl
      past := hbase _
      inside := hchain
      future := hend [] }
    have hread : [Token.number "2", .operator .pow, .number "3", .operator .pow, .number "2"]
        = sourceTokens "2^3^2" := by cbv
    obtain ⟨-, -, hwrapped⟩ := hgroup (.right .pow (.number "2") .hole) _ hproper hread
    obtain ⟨htokens, hneutral⟩ := hwrapped _ _ _ hspans
    refine hneutral.fits ((deepest_le_length _).trans ?_)
    rw [htokens]
    decide

end Reckoner
