import Reckoner.Proofs.Descent
import Reckoner.Proofs.Reading

namespace Reckoner

/-!
# Descent in step with a draft

Recursive descent (`Supply.parse`) and a draft that takes each token once (`Draft.read`) come to the
same compilation (`Supply.compilation_parse`): the same instructions, in the same order, and the
same error.

* `Supply.InStep` — parser and draft are in step: the draft completes the rest of the text to the
  compilation that is expected, and as many levels wait in it as the parser counts;
* `Supply.InStep.release` — the draft lags behind, for it learns from the next token that an operand
  has ended, where the parser has looked at this token already;
* `Supply.InStep.descend` — every rule keeps them in step.
-/

/-! ### Releasing the top of what waits -/

namespace Draft

variable {rank : Nat} {above base : List Pending} {t : Token}

/-- **A token that releases what is on top** goes on below it. -/
theorem continueOperand_append (hleast : ∀ x ∈ above, Operator.leastRank ≤ x.rank)
    (hoperator : ∀ o, t = .operator o → o ≠ .pow ∧ ∀ x ∈ above, o.rank ≤ x.rank)
    (base : List Pending) :
    continueOperand (above ++ base) t
      = (above.flatMap Pending.code ++ (continueOperand base t).1,
        (continueOperand base t).2) := by
  have hreleased := released_append_eq hleast base
  have hremaining := remaining_append_eq hleast base
  cases t with
  | operator o =>
    obtain ⟨ho, hrank⟩ := hoperator o rfl
    rw [continueOperand_operator ho, continueOperand_operator ho, released_append_eq hrank,
      remaining_append_eq hrank]
  | opening | number | name =>
    cases hrest : remaining Operator.leastRank base <;>
      simp [continueOperand, hreleased, hremaining, hrest]
  | closing =>
    cases hrest : remaining Operator.leastRank base <;>
      simp [continueOperand, hreleased, hremaining, hrest]

/-- The end of the text releases it, too. -/
theorem finish_append (hleast : ∀ x ∈ above, Operator.leastRank ≤ x.rank) (base : List Pending) :
    finish ⟨above ++ base, .continuation⟩
      = (finish ⟨base, .continuation⟩).after (above.flatMap Pending.code) := by
  rw [finish_of_ne_operand (by simp), finish_of_ne_operand (by simp), released_append_eq hleast,
    remaining_append_eq hleast]
  simp [Compilation.after, Expectation.code]

/-- Operators are no levels. -/
theorem levels_powers (count : Nat) (base : List Pending) :
    levels (List.replicate count (.operator .pow) ++ base) = levels base := by
  simp [levels, Pending.isLevel, List.countP_replicate]

theorem code_powers (count : Nat) :
    (List.replicate count (Pending.operator .pow)).flatMap Pending.code
      = List.replicate count (.binary .pow) := by
  induction count with
  | zero => rfl
  | succ count ih => rw [List.replicate_succ, List.flatMap_cons, ih]; rfl

end Draft

@[simp] theorem Parser.emit_nil {σ : Type} (s : Parser σ) : s.emit [] = s := by
  simp [Parser.emit]

/-- An operator that is looser than the links of a chain, but none of its own, is looser than it. -/
theorem Operator.rank_lt_of_chain_ne {c : Category} {o : Operator} (hlow : o.rank < c.link.rank)
    (hne : o.chain ≠ c) : o.rank < c.rank := by
  revert hlow hne
  cases c <;> cases o <;> decide

/-! ### All that a supply answers -/

namespace Supply

variable {σ : Type} {S : Supply σ} {i : σ} {t : Token} {e : LexError}

theorem readAll_of_token (h : S.peek i = .token t) :
    S.readAll i = ⟨t :: (S.readAll (S.next i).2).tokens, (S.readAll (S.next i).2).fault?⟩ := by
  rw [readAll]
  split <;> simp_all

theorem readAll_of_finished (h : S.peek i = .finished) : S.readAll i = ⟨[], none⟩ := by
  rw [readAll]
  split <;> simp_all

theorem readAll_of_fault (h : S.peek i = .fault e) : S.readAll i = ⟨[], some e⟩ := by
  rw [readAll]
  split <;> simp_all

/-- Tokens that have been read are read again as they are. -/
theorem readAll_stream (i : TokenStream) : stream.readAll i = i := by
  obtain ⟨ts, fault?⟩ := i
  induction ts with
  | nil =>
    cases fault? with
    | none => exact readAll_of_finished rfl
    | some e => exact readAll_of_fault rfl
  | cons t ts ih =>
    have hcons : stream.readAll ⟨t :: ts, fault?⟩
        = ⟨t :: (stream.readAll ⟨ts, fault?⟩).tokens, (stream.readAll ⟨ts, fault?⟩).fault?⟩ :=
      readAll_of_token rfl
    rw [hcons, ih]

/-- A cursor answers the tokens from its place on. -/
theorem readAll_cursor (c : Cursor) :
    cursor.readAll c = ⟨c.tokens.tokens, c.tokens.fault?⟩ := by
  fun_induction Cursor.tokens c with
  | case1 c r t h _ later ih =>
    have hpeek : cursor.peek c = .token t := h
    have hlater : cursor.readAll (cursor.next c).2 = _ := ih
    rw [readAll_of_token hpeek, hlater]
  | case2 c r h => exact readAll_of_finished h
  | case3 c r e h => exact readAll_of_fault h

/-! ### In step with a draft -/

/-- What the text comes to if the draft reads what is left of it. -/
def completed (S : Supply σ) (s : Parser σ) (d : Draft) : Compilation :=
  (d.compileTokens (S.readAll s.input).fault? (S.readAll s.input).tokens).after s.code

/-- **In step**: if the draft reads what is left, the text comes to `result`; and as many levels
    wait in the draft as the parser counts. -/
structure InStep (S : Supply σ) (result : Compilation) (d : Draft) (s : Parser σ) : Prop where
  completed : S.completed s d = result
  levels : Draft.levels d.pending = s.depth

/-- Here ends what binds at least as tightly as `rank`: the next token is no operator that does, and
    there is no fault. -/
structure EndsHere (S : Supply σ) (rank : Nat) (s : Parser σ) : Prop where
  sound : ∀ e, S.peek s.input ≠ .fault e
  looser : ∀ o, S.peek s.input = .token (.operator o) → o.rank < rank

/-- **A rule has ended in step**: in the draft an operand is complete above `base`, and nothing that
    comes next belongs to it. -/
structure Ended (S : Supply σ) (result : Compilation) (c : Category) (base : List Pending)
    (s : Parser σ) : Prop where
  inStep : S.InStep result ⟨base, .continuation⟩ s
  ends : c ≠ .operand → S.EndsHere c.rank s

/-- **The error is the result**, behind what was emitted. -/
def Refused (result : Compilation) (e : CompileError) (s : Parser σ) : Prop :=
  result = ⟨s.code, some e⟩

variable {s : Parser σ} {d d' : Draft} {code : Program} {result : Compilation}

theorem completed_of_finished (h : S.peek s.input = .finished) :
    S.completed s d = d.finish.after s.code := by
  rw [completed, readAll_of_finished h, Draft.compileTokens]

theorem completed_of_fault (h : S.peek s.input = .fault e) :
    S.completed s d = ⟨s.code, some (.lexical e)⟩ := by
  rw [completed, readAll_of_fault h, Draft.compileTokens]
  simp [Compilation.after]

/-- A token that the draft takes. -/
theorem completed_of_taken (h : S.peek s.input = .token t) (hread : d.read t = (code, .ok d')) :
    S.completed s d = S.completed ((s.looked.taken S).emit code) d' := by
  rw [completed, readAll_of_token h, Draft.compileTokens, hread]
  simp [completed, Compilation.after]

/-- A token that the draft refuses. -/
theorem completed_of_refused {error : CompileError} (h : S.peek s.input = .token t)
    (hread : d.read t = (code, .error error)) :
    S.completed s d = ⟨s.code ++ code, some error⟩ := by
  rw [completed, readAll_of_token h, Draft.compileTokens, hread]
  simp [Compilation.after]

/-- A draft that answers whatever comes next as another one does, but for instructions before. -/
theorem completed_of_read_eq (hsound : ∀ e, S.peek s.input ≠ .fault e)
    (hfinish : S.peek s.input = .finished → d.finish = d'.finish.after code)
    (hread : ∀ t, S.peek s.input = .token t → d.read t = (code ++ (d'.read t).1, (d'.read t).2)) :
    S.completed s d = S.completed (s.emit code) d' := by
  cases h : S.peek s.input with
  | token t =>
    have hemit : S.peek (s.emit code).input = .token t := h
    cases hnext : d'.read t with
    | mk more outcome =>
      have hd := hread t h
      rw [hnext] at hd
      cases outcome with
      | ok d'' =>
        rw [completed_of_taken h hd, completed_of_taken hemit hnext]
        simp [completed, Compilation.after]
      | error error =>
        rw [completed_of_refused h hd, completed_of_refused hemit hnext]
        simp
  | finished =>
    have hemit : S.peek (s.emit code).input = .finished := h
    rw [completed_of_finished h, completed_of_finished hemit, hfinish h]
    simp [Compilation.after]
  | fault e => exact absurd h (hsound e)

namespace InStep

variable {base above : List Pending} {rank : Nat}

theorem looked (h : S.InStep result d s) : S.InStep result d s.looked := ⟨h.1, h.2⟩

/-- **A token that parser and draft take**, if it opens no level. -/
theorem taken (h : S.InStep result d s) (ht : S.peek s.input = .token t)
    (hread : d.read t = (code, .ok d'))
    (hlevels : Draft.levels d'.pending = Draft.levels d.pending) :
    S.InStep result d' ((s.looked.taken S).emit code) where
  completed := (completed_of_taken ht hread).symm.trans h.completed
  levels := hlevels.trans h.levels

/-- A token that parser and draft refuse, where nothing is released. -/
theorem refused {error : CompileError} (h : S.InStep result d s) (ht : S.peek s.input = .token t)
    (hread : d.read t = ([], .error error)) : Refused result error (s.looked.taken S) := by
  have hresult := h.completed.symm.trans (completed_of_refused ht hread)
  rwa [List.append_nil] at hresult

/-- A token that parser and draft take, and that completes nothing. -/
theorem passed (h : S.InStep result d s) (ht : S.peek s.input = .token t)
    (hread : d.read t = ([], .ok d')) (hlevels : Draft.levels d'.pending = Draft.levels d.pending) :
    S.InStep result d' (s.looked.taken S) := by
  have htaken := h.taken ht hread hlevels
  rwa [Parser.emit_nil] at htaken

theorem finished (h : S.InStep result d s) (hfinished : S.peek s.input = .finished) :
    result = d.finish.after s.code :=
  h.completed.symm.trans (completed_of_finished hfinished)

theorem fault (h : S.InStep result d s) (hfault : S.peek s.input = .fault e) :
    Refused result (.lexical e) s.looked :=
  h.completed.symm.trans (completed_of_fault hfault)

/-- **Where something ends, the draft releases it** as soon as it sees what comes next; the parser
    has emitted it and counts the levels around it. -/
theorem release {s' : Parser σ} (h : S.InStep result ⟨above ++ base, .continuation⟩ s)
    (hends : S.EndsHere rank s) (hrank : rank ≤ Operator.pow.rank)
    (habove : ∀ x ∈ above, Operator.leastRank ≤ x.rank ∧ rank ≤ x.rank + 1)
    (hinput : s'.input = s.input) (hcode : s'.code = s.code ++ above.flatMap Pending.code)
    (hlevels : Draft.levels base = s'.depth) :
    S.InStep result ⟨base, .continuation⟩ s' where
  completed := by
    have hleast : ∀ x ∈ above, Operator.leastRank ≤ x.rank := fun x hx => (habove x hx).1
    have hemitted : S.completed s' ⟨base, .continuation⟩
        = S.completed (s.emit (above.flatMap Pending.code)) ⟨base, .continuation⟩ := by
      rw [Supply.completed, Supply.completed, hinput, hcode]
    rw [← h.completed, hemitted]
    -- Whatever comes next, the draft first releases `above`, and goes on as if it had not waited.
    refine (completed_of_read_eq hends.sound (fun _ => Draft.finish_append hleast base) ?_).symm
    intro t ht
    apply Draft.continueOperand_append hleast
    rintro o rfl
    have hlow := hends.looser o ht
    refine ⟨?_, fun x hx => ?_⟩
    · rintro rfl
      omega
    · have hx := (habove x hx).2
      omega
  levels := hlevels

/-- A name that no parenthesis follows is a constant. -/
theorem constant {f : String} (h : S.InStep result ⟨base, .argument f⟩ s)
    (hsound : ∀ e, S.peek s.input ≠ .fault e) (hopening : S.peek s.input ≠ .token .opening) :
    S.InStep result ⟨base, .continuation⟩ (s.looked.emit [.constant f]) where
  completed := by
    rw [← h.completed]
    refine (completed_of_read_eq hsound (fun _ => ?_) fun t ht => ?_).symm
    · rw [Draft.finish_of_ne_operand (by simp), Draft.finish_of_ne_operand (by simp)]
      simp [Compilation.after, Expectation.code]
    · have hne : t ≠ .opening := by
        rintro rfl
        exact hopening ht
      exact Draft.read_of_ne_operand (by simp) hne
  levels := h.levels

/-- **A token that opens a level**: parser and draft agree whether it may be opened. -/
theorem nested {n : Nat} {level : Pending} {Q : Parser σ → Prop}
    {rule : (s' : Parser σ) → S.size s'.input = S.size (s.looked.taken S).input → Outcome S n}
    (h : S.InStep result d s) (ht : S.peek s.input = .token t)
    (hread : d.read t = ([], Draft.openLevel level d.pending)) (hlevel : level.isLevel = true)
    (hrule : ∀ s' same, S.InStep result ⟨level :: d.pending, .operand⟩ s' →
      (rule s' same).Sat (fun s'' => Q s''.shallower) (Refused result)) :
    (S.nested (s.looked.taken S) rule).Sat Q (Refused result) := by
  -- Both count the same levels, so both refuse the next one or neither does.
  have hdepth : Draft.levels d.pending = (s.looked.taken S).depth := h.levels
  refine sat_nested (fun hfull => ?_) fun hroom => ?_
  · rw [Draft.openLevel, if_neg (by omega)] at hread
    exact h.refused ht hread
  · rw [Draft.openLevel, if_pos (by omega)] at hread
    apply hrule
    constructor
    · have htaken := completed_of_taken ht hread
      rw [h.completed, Parser.emit_nil] at htaken
      exact htaken.symm
    · rw [Draft.levels_level hlevel, hdepth]

/-- Where an operand has ended in a level, a token is taken only if it is an operator or closes the
    level. -/
theorem unclosed {level : Pending} (h : S.InStep result ⟨level :: base, .continuation⟩ s)
    (hlevel : level.rank = 0) (hends : S.EndsHere Operator.leastRank s)
    (hclosing : S.peek s.input ≠ .token .closing) : Refused result .unclosed s.looked := by
  have hloose : Draft.LooserThan Operator.leastRank (level :: base) :=
    Draft.looserThan_level hlevel (Nat.le_refl _)
  have hreleased := Draft.released_of_looserThan hloose
  have hremaining := Draft.remaining_of_looserThan hloose
  cases hpeek : S.peek s.input with
  | fault e => exact absurd hpeek (hends.sound e)
  | finished =>
    have hfinish := h.finished hpeek
    rw [Draft.finish_of_ne_operand (by simp), hreleased, hremaining] at hfinish
    simpa [Refused, Compilation.after, Expectation.code] using hfinish
  | token t =>
    have hoperator : ∀ o, t ≠ .operator o := by
      rintro o rfl
      exact absurd o.leastRank_le (Nat.not_le.2 (hends.looser o hpeek))
    have hread : Draft.read ⟨level :: base, .continuation⟩ t = ([], .error .unclosed) := by
      refine (Draft.continueOperand_refused _ hoperator ?_).trans ?_
      · rintro rfl
        exact absurd hpeek hclosing
      · rw [hreleased, hremaining, if_neg (List.cons_ne_nil _ _)]
    exact h.refused hpeek hread

/-- **The parenthesis that closes a level**, or else the error that it is missing. -/
theorem enclosed {level : Pending} {rule : (s' : Parser σ) →
      S.size s'.input = S.size (s.looked.taken S).input → Outcome S (S.size s'.input)}
    (h : S.InStep result d s) (ht : S.peek s.input = .token t)
    (hread : d.read t = ([], Draft.openLevel level d.pending)) (hlevel : level.isLevel = true)
    (hrank : level.rank = 0)
    (hrule : ∀ s' same, S.InStep result ⟨level :: d.pending, .operand⟩ s' →
      (rule s' same).Sat (S.Ended result .sum (level :: d.pending)) (Refused result)) :
    (S.enclosed (s.looked.taken S) rule).Sat
      (fun s' => S.InStep result ⟨d.pending, .continuation⟩ (s'.emit level.code))
      (Refused result) := by
  apply h.nested ht hread hlevel
  intro s₁ same hs₁
  apply (hrule s₁ same hs₁).bind
  rintro s₂ fewer ⟨hs₂, hends⟩
  have hends : S.EndsHere Operator.leastRank s₂ := hends (by decide)
  refine sat_eat (fun e he => hs₂.fault he) (fun u a hu ha => ?_) fun _ hother => ?_
  · obtain rfl := Token.only?_eq_some.1 ha
    have hloose : Draft.LooserThan Operator.leastRank (level :: d.pending) :=
      Draft.looserThan_level hrank (Nat.le_refl _)
    have hclose : Draft.read ⟨level :: d.pending, .continuation⟩ .closing
        = (level.code, .ok ⟨d.pending, .continuation⟩) := by
      refine (Draft.continueOperand_closing (Draft.remaining_of_looserThan hloose)).trans ?_
      rw [Draft.released_of_looserThan hloose, List.nil_append]
    constructor
    · exact (completed_of_taken hu hclose).symm.trans hs₂.completed
    · have hdepth := hs₂.levels
      rw [Draft.levels_level hlevel] at hdepth
      show Draft.levels d.pending = s₂.depth - 1
      omega
  · exact hs₂.unclosed hrank hends (peek_ne_of_only? hother)

/-! ### Every rule keeps step -/

/-- Where an operand is due, there has to be a token. -/
theorem require {n : Nat} {Q : Parser σ → Prop}
    {next : (t : Token) → S.peek s.input = .token t → Outcome S n}
    (h : S.InStep result ⟨base, .operand⟩ s)
    (hnext : ∀ t ht, (next t ht).Sat Q (Refused result)) :
    (S.require s next).Sat Q (Refused result) := by
  refine sat_require (fun hfinished => ?_) (fun _ he => h.fault he) hnext
  have hfinish := h.finished hfinished
  simpa [Refused, Draft.finish, Compilation.after] using hfinish

/-- **A sign closes over its chain of powers**, and leaves its instruction. -/
theorem sign {n : Nat} {negative : Bool}
    {rule : (s' : Parser σ) → S.size s'.input = S.size (s.looked.taken S).input → Outcome S n}
    (h : S.InStep result ⟨base, .operand⟩ s) (ht : S.peek s.input = .token (.sign negative))
    (hrule : ∀ s' same, S.InStep result ⟨.sign negative :: base, .operand⟩ s' →
      (rule s' same).Sat (S.Ended result .power (.sign negative :: base)) (Refused result)) :
    (S.nested (s.looked.taken S) rule).Sat
      (fun s' => S.InStep result ⟨base, .continuation⟩ (s'.emit (Pending.sign negative).code))
      (Refused result) := by
  have hread : Draft.read ⟨base, .operand⟩ (.sign negative)
      = ([], Draft.openLevel (.sign negative) base) := by
    cases negative <;> rfl
  apply h.nested ht hread rfl
  intro s₁ same hs₁
  refine (hrule s₁ same hs₁).mono ?_ fun _ _ => id
  rintro s₂ ⟨hs₂, hends⟩
  have hdepth := hs₂.levels
  rw [Draft.levels_level rfl] at hdepth
  have habove : S.InStep result ⟨[.sign negative] ++ base, .continuation⟩ s₂ := hs₂
  refine habove.release (hends (by decide)) (Nat.le_refl _) ?_ rfl (by simp) ?_
  · intro x hx
    obtain rfl := List.mem_singleton.1 hx
    exact ⟨Operator.leastRank_le .pow, Nat.le_succ _⟩
  · show Draft.levels base = s₂.depth - 1
    omega

/-- Where a chain of powers has ended, its operators are released. -/
theorem powers_end {count : Nat}
    (h : S.InStep result ⟨List.replicate count (.operator .pow) ++ base, .continuation⟩ s)
    (hsound : ∀ e, S.peek s.input ≠ .fault e)
    (hpow : S.peek s.input ≠ .token (.operator .pow)) :
    S.Ended result .power base (s.looked.emit (List.replicate count (.binary .pow))) := by
  have hends : S.EndsHere Operator.pow.rank s := by
    refine ⟨hsound, fun o ho => Operator.rank_lt_of_ne ?_⟩
    rintro rfl
    exact hpow ho
  have hlevels : Draft.levels base = s.depth := by
    rw [← h.levels, Draft.levels_powers]
  refine ⟨h.release hends (Nat.le_refl _) ?_ rfl ?_ hlevels, fun _ => ⟨hends.sound, hends.looser⟩⟩
  · intro x hx
    obtain rfl := List.eq_of_mem_replicate hx
    exact ⟨Operator.leastRank_le .pow, Nat.le_succ _⟩
  · rw [Draft.code_powers]

/-- An operator of a chain that groups from the left waits for its right operand. -/
theorem operator {o : Operator} (h : S.InStep result ⟨base, .continuation⟩ s)
    (ht : S.peek s.input = .token (.operator o)) (ho : o.rank < Operator.pow.rank)
    (hloose : Draft.LooserThan o.rank base) :
    S.InStep result ⟨.operator o :: base, .operand⟩ (s.looked.taken S) := by
  have hne : o ≠ .pow := by
    rintro rfl
    exact absurd ho (Nat.lt_irrefl _)
  have hread : Draft.read ⟨base, .continuation⟩ (.operator o)
      = ([], .ok ⟨.operator o :: base, .operand⟩) := by
    refine (Draft.continueOperand_operator hne base).trans ?_
    rw [Draft.released_of_looserThan hloose, Draft.remaining_of_looserThan hloose]
  exact h.passed ht hread (Draft.levels_operator o base)

end InStep

/-- Where its right operand has ended, the operator is released. -/
theorem Ended.operator_end {base : List Pending} {o : Operator}
    (h : S.Ended result o.chain.link (.operator o :: base) s) (ho : o.rank < Operator.pow.rank) :
    S.InStep result ⟨base, .continuation⟩ (s.emit [.binary o]) ∧
      S.EndsHere o.chain.link.rank (s.emit [.binary o]) := by
  have habove : S.InStep result ⟨[.operator o] ++ base, .continuation⟩ s := h.inStep
  have hlink : S.EndsHere o.chain.link.rank s := by
    apply h.ends
    intro hlast
    have hrank := o.rank_link_chain
    rw [hlast] at hrank
    exact absurd ho (Nat.not_lt.2 (Nat.le_of_succ_le_succ (Nat.le_of_eq hrank)))
  refine ⟨habove.release hlink ?_ ?_ rfl (by simp [Pending.code]) ?_, hlink.sound, hlink.looser⟩
  · rw [Operator.rank_link_chain]
    exact ho
  · intro x hx
    obtain rfl := List.mem_singleton.1 hx
    rw [Operator.rank_link_chain]
    exact ⟨o.leastRank_le, Nat.le_refl _⟩
  · rw [← h.inStep.levels]
    exact (Draft.levels_operator o base).symm

namespace InStep

variable {base : List Pending}

/-- **Every rule keeps step with a draft.**  An operand is due in the draft where the rule starts,
    and complete where it ends. -/
theorem descend (c : Category) (s : Parser σ) (base : List Pending)
    (h : S.InStep result ⟨base, .operand⟩ s) (hadmits : Draft.Admits base c.rank) :
    (S.descend c s).Sat (S.Ended result c base) (Refused result) := by
  -- Inside a chain of powers, its operators still wait in the draft, where the parser counts them.
  refine Supply.descend.induct S
    (fun c s => ∀ base, S.InStep result ⟨base, .operand⟩ s → Draft.Admits base c.rank →
      (S.descend c s).Sat (S.Ended result c base) (Refused result))
    (fun count s => ∀ base,
      S.InStep result ⟨List.replicate count (.operator .pow) ++ base, .continuation⟩ s →
      (S.powers count s).Sat (S.Ended result .power base) (Refused result))
    (fun c s => c.rank < Operator.pow.rank → ∀ base, S.InStep result ⟨base, .continuation⟩ s →
      Draft.Admits base c.rank → S.EndsHere c.link.rank s →
      (S.leftAssociative c s).Sat (S.Ended result c base) (Refused result))
    ?sum ?product ?power ?operand ?powers ?leftAssociative c s base h hadmits
  case sum | product =>
    intro s link later base h hadmits
    rw [Supply.descend]
    apply h.require
    intro t ht
    apply (link base h.looked (hadmits.mono (by decide))).bind
    intro s₁ h₁ hs₁
    exact (later s₁ h₁ (by decide) base hs₁.inStep hadmits (hs₁.ends (by decide))).weaken _
  case power =>
    intro s operand later base h hadmits
    rw [Supply.descend]
    apply h.require
    intro t ht
    apply (operand base h.looked (Draft.admits_of_pow_le (by decide))).bind
    intro s₁ h₁ hs₁
    exact (later s₁ h₁ base hs₁.inStep).weaken _
  case operand =>
    intro s argument group chain base h hadmits
    rw [Supply.descend]
    apply h.require
    intro t ht
    rw [advance_eq_ok]
    have hlevel {level : Pending} (hrank : level.rank = 0) (outer : List Pending) :
        Draft.Admits (level :: outer) Category.sum.rank :=
      fun _ => Draft.looserThan_level hrank (Nat.le_refl _)
    have hsign (negative : Bool) (ht : S.peek s.input = .token (.sign negative)) :=
      h.sign ht fun s₂ h₂ hs₂ =>
        (chain _ (S.next_smaller ht) s₂ h₂ _ hs₂ (Draft.admits_of_pow_le (by decide))).weaken
          (Nat.le_of_lt (h₂ ▸ S.next_smaller ht))
    have hended {s' : Parser σ} (hs' : S.InStep result ⟨base, .continuation⟩ s') :
        S.Ended result .operand base s' := ⟨hs', fun hne => absurd rfl hne⟩
    cases t with
    | number text => exact hended (h.taken ht rfl rfl)
    | name text =>
      have hstart : Draft.read ⟨base, .operand⟩ (.name text)
          = ([], .ok ⟨base, .argument text⟩) := rfl
      have hname := h.passed ht hstart rfl
      refine sat_eat (fun e he => hname.fault he) (fun u a hu ha => ?_) fun hsound hother => ?_
      · obtain rfl := Token.only?_eq_some.1 ha
        have hread : Draft.read ⟨base, .argument text⟩ .opening
            = ([], Draft.openLevel (.argument text) base) := rfl
        have hcall := hname.enclosed hu hread rfl rfl fun s₃ h₃ hs₃ =>
          argument _ (S.next_smaller ht) _ (S.next_smaller hu) s₃ h₃ _ hs₃ (hlevel rfl base)
        exact (hcall.mono (fun s' hs' => hended hs') fun _ _ => id).emit.weaken _
      · exact hended (hname.constant hsound (peek_ne_of_only? hother))
    | opening =>
      have hread : Draft.read ⟨base, .operand⟩ .opening = ([], Draft.openLevel .group base) := rfl
      have hgroup := h.enclosed ht hread rfl rfl fun s₂ h₂ hs₂ =>
        group _ (S.next_smaller ht) s₂ h₂ _ hs₂ (hlevel rfl base)
      refine (hgroup.mono (fun s' hs' => hended ?_) fun _ _ => id).weaken
        (Nat.le_of_lt (S.next_smaller ht))
      rwa [Pending.code, Parser.emit_nil] at hs'
    | closing => exact h.refused ht rfl
    | operator o =>
      cases o with
      | add =>
        have hplus := hsign false ht
        refine hplus.mono (fun s' hs' => hended ?_) fun _ _ => id
        rwa [Pending.code, Parser.emit_nil] at hs'
      | sub =>
        have hminus := hsign true ht
        exact (hminus.mono (fun s' hs' => hended hs') fun _ _ => id).emit
      | mul | div | pow => exact h.refused ht rfl
  case powers =>
    intro count s operand later base h
    rw [powers]
    refine sat_eat (fun e he => h.fault he) (fun u a hu ha => ?_) fun hsound hother => ?_
    · obtain rfl := Token.only?_eq_some.1 ha
      have hread : Draft.read ⟨List.replicate count (.operator .pow) ++ base, .continuation⟩
          (.operator .pow) = ([], .ok ⟨List.replicate (count + 1) (.operator .pow) ++ base,
            .operand⟩) := rfl
      have hpow := h.passed hu hread (Draft.levels_operator .pow _)
      apply (operand _ (S.next_smaller hu) _ hpow (Draft.admits_of_pow_le (by decide))).bind
      intro s₂ h₂ hs₂
      exact (later _ (S.next_smaller hu) s₂ h₂ base hs₂.inStep).weaken _
    · exact h.powers_end hsound (peek_ne_of_only? hother)
  case leftAssociative =>
    intro c s link later hc base h hadmits hends
    rw [leftAssociative]
    refine sat_eat (fun e he => h.fault he) (fun u o hu ho => ?_) fun hsound hother => ?_
    · obtain ⟨rfl, rfl⟩ := Category.operator?_eq_some.1 ho
      rw [Operator.rank_chain] at hc hadmits later
      have hadmitted : Draft.Admits (.operator o :: base) o.chain.link.rank := by
        rw [Operator.rank_link_chain]
        exact fun _ => Draft.looserThan_cons (Nat.lt_succ_self _)
      apply (link _ (S.next_smaller hu) _ (h.operator hu hc (hadmits hc)) hadmitted).bind
      intro s₂ h₂ hs₂
      obtain ⟨hreleased, hends₂⟩ := hs₂.operator_end hc
      exact (later o _ (S.next_smaller hu) s₂ h₂ hc base hreleased hadmits hends₂).weaken _
    · -- The next token was no operator of the links, and now it is none of this chain.
      refine ⟨h.looked, fun _ => ⟨hsound, fun o ho => ?_⟩⟩
      refine Operator.rank_lt_of_chain_ne (hends.looser o ho) (fun hchain => ?_)
      have hnone := hother _ ho
      rw [Category.operator?_eq_some.2 ⟨rfl, hchain⟩] at hnone
      cases hnone

end InStep

/-- **The whole procedure comes to what a draft comes to** on the tokens of the supply. -/
theorem compilation_parse (S : Supply σ) (i : σ) :
    (S.parse i).compilation
      = Draft.empty.compileTokens (S.readAll i).fault? (S.readAll i).tokens := by
  -- Before the first token, both are in step towards the compilation of the draft.
  have hstart : S.InStep (Draft.empty.compileTokens (S.readAll i).fault? (S.readAll i).tokens)
      ⟨[], .operand⟩ (.start i) := ⟨rfl, rfl⟩
  generalize Draft.empty.compileTokens _ _ = result at hstart ⊢
  have hnone : Draft.Admits [] Category.sum.rank := fun _ x hx => by cases hx
  have hparse : (S.parse i).Sat (fun s => result = ⟨s.code, none⟩) (Refused result) := by
    apply hstart.require
    intro t ht
    apply (hstart.looked.descend .sum _ [] hnone).bind
    intro s _ hs
    have hends : S.EndsHere Operator.leastRank s := hs.ends (by decide)
    split
    · next u hu =>
      have hread : Draft.read ⟨[], .continuation⟩ u = ([], .error (.trailingToken u)) := by
        refine Draft.continueOperand_refused [] ?_ fun _ => rfl
        rintro o rfl
        exact absurd o.leastRank_le (Nat.not_le.2 (hends.looser o hu))
      exact hs.inStep.refused hu hread
    · next hfinished =>
      have hfinish := hs.inStep.finished hfinished
      simpa [Outcome.Sat, Draft.finish, Draft.released, Draft.remaining, Compilation.after]
        using hfinish
    · next e he => exact hs.inStep.fault he
  cases houtcome : S.parse i with
  | ok s fewer =>
    rw [houtcome] at hparse
    exact hparse.symm
  | error e s =>
    rw [houtcome] at hparse
    exact hparse.symm

end Supply

end Reckoner
