import Reckoner.Proofs.DraftRun
import Reckoner.Proofs.Phrase

namespace Reckoner

/-!
# Reading a phrase

What a draft makes of the tokens of a proper phrase, whatever waits below it.  `Draft.HasRead` is
the state after the last token: some operators and signs of the phrase may still wait, but they
bind at least as tightly as the phrase does, and releasing them completes the postorder listing of
its tree.  The next token releases them (`HasRead.read_operator`, `HasRead.read_closing`), and so
does the end of the text (`HasRead.compiled`).

* `readAll_phrase` — a phrase whose levels fit is read;
* `readAll_phrase_tooDeep` — a phrase whose levels do not fit is refused for that reason.
-/

/-- The instruction that is still owed: a name waits for the token after it. -/
def Expectation.code : Expectation → Program
  | argument f => [.constant f]
  | operand | continuation => []

theorem Pending.rank_le (x : Pending) : x.rank ≤ Operator.pow.rank := by
  cases x with
  | operator o => exact o.rank_le_pow
  | sign => exact Nat.le_refl _
  | group | argument => exact Nat.zero_le _

namespace Draft

/-- The innermost item that waits binds more loosely than `rank`, so it is not released. -/
def LooserThan (rank : Nat) (pending : List Pending) : Prop :=
  ∀ x ∈ pending.head?, x.rank < rank

/-- A phrase of that rank can be read above the base.  A chain of powers releases nothing before it
    ends; the operators of other phrases must not release the base. -/
def Admits (base : List Pending) (rank : Nat) : Prop :=
  rank < Operator.pow.rank → LooserThan rank base

/-- What binds more tightly can be read there as well. -/
theorem Admits.mono {base : List Pending} {rank rank' : Nat} (h : Admits base rank)
    (hle : rank ≤ rank') : Admits base rank' :=
  fun hlow x hx => Nat.lt_of_lt_of_le (h (Nat.lt_of_le_of_lt hle hlow) x hx) hle

/-! ### What is released and what remains -/

variable {rank : Nat} {above base : List Pending}

theorem looserThan_cons {x : Pending} (hx : x.rank < rank) : LooserThan rank (x :: base) := by
  intro y hy
  obtain rfl : x = y := by simpa using hy
  exact hx

theorem released_cons {x : Pending} (hx : rank ≤ x.rank) (pending : List Pending) :
    released rank (x :: pending) = x.code ++ released rank pending := by
  simp [released, hx]

theorem remaining_cons {x : Pending} (hx : rank ≤ x.rank) (pending : List Pending) :
    remaining rank (x :: pending) = remaining rank pending := by
  simp [remaining, hx]

theorem released_of_looserThan (hb : LooserThan rank base) : released rank base = [] := by
  cases base with
  | nil => rfl
  | cons x base =>
    have hx : ¬ rank ≤ x.rank := Nat.not_le.2 (hb x rfl)
    simp [released, hx]

theorem remaining_of_looserThan (hb : LooserThan rank base) : remaining rank base = base := by
  cases base with
  | nil => rfl
  | cons x base =>
    have hx : ¬ rank ≤ x.rank := Nat.not_le.2 (hb x rfl)
    simp [remaining, hx]

/-- What binds tightly enough is released first. -/
theorem released_append_eq (ha : ∀ x ∈ above, rank ≤ x.rank) (base : List Pending) :
    released rank (above ++ base) = above.flatMap Pending.code ++ released rank base := by
  induction above with
  | nil => rfl
  | cons x above ih =>
    rw [List.cons_append, released_cons (ha x List.mem_cons_self), List.flatMap_cons,
      ih fun y hy => ha y (List.mem_cons_of_mem x hy), List.append_assoc]

/-- None of it remains. -/
theorem remaining_append_eq (ha : ∀ x ∈ above, rank ≤ x.rank) (base : List Pending) :
    remaining rank (above ++ base) = remaining rank base := by
  induction above with
  | nil => rfl
  | cons x above ih =>
    rw [List.cons_append, remaining_cons (ha x List.mem_cons_self),
      ih fun y hy => ha y (List.mem_cons_of_mem x hy)]

/-- Above a looser base everything is released. -/
theorem released_append (ha : ∀ x ∈ above, rank ≤ x.rank) (hb : LooserThan rank base) :
    released rank (above ++ base) = above.flatMap Pending.code := by
  rw [released_append_eq ha, released_of_looserThan hb, List.append_nil]

/-- Above a looser base nothing remains. -/
theorem remaining_append (ha : ∀ x ∈ above, rank ≤ x.rank) (hb : LooserThan rank base) :
    remaining rank (above ++ base) = base := by
  rw [remaining_append_eq ha, remaining_of_looserThan hb]

/-- A level is looser than any phrase. -/
theorem looserThan_level {level : Pending} (h : level.rank = 0)
    (hr : Operator.leastRank ≤ rank) : LooserThan rank (level :: base) := by
  refine looserThan_cons ?_
  rw [h]
  exact hr

theorem levels_level {level : Pending} (h : level.isLevel = true) (pending : List Pending) :
    levels (level :: pending) = levels pending + 1 := by
  simp [levels, h]

theorem levels_operator (o : Operator) (pending : List Pending) :
    levels (.operator o :: pending) = levels pending := by
  simp [levels, Pending.isLevel]

/-- A level opens only if there is room, and an operand is due in it. -/
theorem openLevel_ok {level : Pending} {pending : List Pending} {d' : Draft}
    (h : openLevel level pending = .ok d') :
    levels pending < maxNesting ∧ d' = ⟨level :: pending, .operand⟩ := by
  rw [openLevel] at h
  split at h
  · next hroom => exact ⟨hroom, (Except.ok.inj h).symm⟩
  · cases h

/-- A level is refused only if no more may be open. -/
theorem openLevel_error {level : Pending} {pending : List Pending} {e : CompileError}
    (h : openLevel level pending = .error e) :
    e = .tooDeep ∧ maxNesting ≤ levels pending := by
  rw [openLevel] at h
  split at h
  · cases h
  · next hfull => exact ⟨(Except.error.inj h).symm, Nat.le_of_not_lt hfull⟩

/-- **Tokens that open a level.**  What follows is read on top of the level, if there is room. -/
theorem readAll_of_opener {d : Draft} {opener : List Token} {level : Pending}
    (h : d.readAll opener = ([], openLevel level base)) (ts : List Token) :
    d.readAll (opener ++ ts)
      = if levels base < maxNesting then readAll ⟨level :: base, .operand⟩ ts
        else ([], .error .tooDeep) := by
  rw [readAll_append, h, openLevel]
  split
  · simp
  · rfl

theorem readAll_call_opener (f : String) (base : List Pending) :
    readAll ⟨base, .operand⟩ [.name f, .opening] = ([], openLevel (.argument f) base) := by
  rw [readAll_cons]
  simp [read, startOperand]

theorem readAll_group_opener (base : List Pending) :
    readAll ⟨base, .operand⟩ [.opening] = ([], openLevel .group base) := by
  rw [readAll_singleton]
  rfl

theorem readAll_sign_opener (negative : Bool) (base : List Pending) :
    readAll ⟨base, .operand⟩ [.sign negative] = ([], openLevel (.sign negative) base) := by
  rw [readAll_singleton]
  cases negative <;> rfl

/-- After an operand, a token first releases a name that has waited for it. -/
theorem read_of_ne_operand {d : Draft} {t : Token} (hd : d.expecting ≠ .operand)
    (ht : t ≠ .opening) :
    d.read t = (d.expecting.code ++ (continueOperand d.pending t).1,
      (continueOperand d.pending t).2) := by
  obtain ⟨pending, ex⟩ := d
  cases ex with
  | operand => exact absurd rfl hd
  | continuation => simp [read, Expectation.code]
  | argument f => cases t <;> simp_all [read, Expectation.code]

/-- The end of the text after an operand releases everything, down to an open level. -/
theorem finish_of_ne_operand {d : Draft} (hd : d.expecting ≠ .operand) :
    d.finish = ⟨d.expecting.code ++ released Operator.leastRank d.pending,
      if (remaining Operator.leastRank d.pending).isEmpty then none else some .unclosed⟩ := by
  obtain ⟨pending, ex⟩ := d
  cases ex with
  | operand => exact absurd rfl hd
  | continuation | argument => rfl

/-- The text may end after an operand, if no level is open. -/
theorem remaining_of_accepted {d : Draft} (h : d.finish.rejection? = none) :
    d.expecting ≠ .operand ∧ remaining Operator.leastRank d.pending = [] := by
  have hd : d.expecting ≠ .operand := by
    intro hoperand
    unfold finish at h
    rw [hoperand] at h
    cases h
  refine ⟨hd, ?_⟩
  rw [finish_of_ne_operand hd] at h
  cases hrest : remaining Operator.leastRank d.pending with
  | nil => rfl
  | cons level outer =>
    rw [hrest] at h
    cases h

/-- An operator other than `^` releases what binds at least as tightly, and waits. -/
theorem continueOperand_operator {o : Operator} (ho : o ≠ .pow) (pending : List Pending) :
    continueOperand pending (.operator o)
      = (released o.rank pending, .ok ⟨.operator o :: remaining o.rank pending, .operand⟩) := by
  cases o with
  | pow => exact absurd rfl ho
  | add | sub | mul | div => rfl

/-- A closing parenthesis releases all that is inside the innermost level, and closes the level. -/
theorem continueOperand_closing {pending outer : List Pending} {level : Pending}
    (h : remaining Operator.leastRank pending = level :: outer) :
    continueOperand pending .closing
      = (released Operator.leastRank pending ++ level.code, .ok ⟨outer, .continuation⟩) := by
  simp only [continueOperand, h]

/-- Any other token is refused, and so is a closing parenthesis without a level. -/
theorem continueOperand_refused (pending : List Pending) {t : Token} (ht : ∀ o, t ≠ .operator o)
    (h : t = .closing → remaining Operator.leastRank pending = []) :
    continueOperand pending t = (released Operator.leastRank pending, .error
      (if remaining Operator.leastRank pending = [] then .trailingToken t else .unclosed)) := by
  cases t with
  | operator o => exact absurd rfl (ht o)
  | closing => simp [continueOperand, h rfl]
  | opening | number | name =>
    cases hrest : remaining Operator.leastRank pending with
    | nil => simp [continueOperand, hrest]
    | cons level outer => simp [continueOperand, hrest]

/-! ### The state after a phrase -/

/-- **A phrase has been read above `base`.**  What waits above `base` binds as tightly as the
    phrase, and with it the instructions are the whole program. -/
def HasRead (base : List Pending) (rank : Nat) (program : Program) (s : Step) : Prop :=
  ∃ code above ex, s = (code, .ok ⟨above ++ base, ex⟩) ∧ ex ≠ .operand ∧
    (∀ x ∈ above, rank ≤ x.rank) ∧ code ++ ex.code ++ above.flatMap Pending.code = program

namespace HasRead

variable {program : Program} {s : Step}

/-- A phrase that leaves nothing waiting. -/
theorem of_continuation (code : Program) :
    HasRead base rank code (code, .ok ⟨base, .continuation⟩) :=
  ⟨code, [], .continuation, rfl, by simp, by simp, by simp [Expectation.code]⟩

/-- The innermost item of the base becomes part of the phrase. -/
theorem release {x : Pending} (h : HasRead (x :: base) rank program s) {r : Nat} (hr : r ≤ rank)
    (hx : r ≤ x.rank) (before : Program) :
    HasRead base r (before ++ program ++ x.code) (before ++ s.1, s.2) := by
  obtain ⟨code, above, ex, rfl, hex, habove, rfl⟩ := h
  refine ⟨before ++ code, above ++ [x], ex, by simp, hex, ?_, by simp⟩
  intro y hy
  rcases List.mem_append.1 hy with hy | hy
  · have hhigh := habove y hy
    omega
  · obtain rfl : y = x := by simpa using hy
    exact hx

/-- **An operator after a left operand** releases the operand and waits in its place. -/
theorem read_operator (h : HasRead base rank program s) {o : Operator}
    (hr : Expr.leftPlace o ≤ rank) (hb : o ≠ .pow → LooserThan o.rank base) :
    Step.andThen s (fun d => d.read (.operator o))
      = (program, .ok ⟨.operator o :: base, .operand⟩) := by
  obtain ⟨code, above, ex, rfl, hex, habove, rfl⟩ := h
  rw [Step.andThen_ok, read_of_ne_operand hex (by simp)]
  by_cases ho : o = .pow
  · subst ho
    -- Nothing that waits binds as tightly as the left operand of a power has to.
    have hnone : above = [] := by
      refine List.eq_nil_iff_forall_not_mem.2 fun x hx => ?_
      have hplace : Operator.pow.rank + 1 ≤ rank := hr
      have hhigh := habove x hx
      have hlow := x.rank_le
      omega
    subst hnone
    simp [continueOperand]
  · have hall : ∀ x ∈ above, o.rank ≤ x.rank := by
      intro x hx
      have hplace := o.rank_le_leftPlace
      have hhigh := habove x hx
      omega
    simp [continueOperand_operator ho, released_append hall (hb ho),
      remaining_append hall (hb ho)]

/-- **A closing parenthesis after a phrase** releases the phrase and closes the level. -/
theorem read_closing {level : Pending} (h : HasRead (level :: base) rank program s)
    (hr : Operator.leastRank ≤ rank) (hl : level.rank = 0) :
    Step.andThen s (fun d => d.read .closing)
      = (program ++ level.code, .ok ⟨base, .continuation⟩) := by
  obtain ⟨code, above, ex, rfl, hex, habove, rfl⟩ := h
  have hall : ∀ x ∈ above, Operator.leastRank ≤ x.rank := by
    intro x hx
    have hhigh := habove x hx
    omega
  have hlevel : LooserThan Operator.leastRank (level :: base) :=
    looserThan_level hl (Nat.le_refl _)
  rw [Step.andThen_ok, read_of_ne_operand hex (by simp),
    continueOperand_closing (remaining_append hall hlevel), released_append hall hlevel]
  simp

/-- **The end of the text after a phrase** releases the phrase, and the text is accepted. -/
theorem compiled (h : HasRead [] rank program s) (hr : Operator.leastRank ≤ rank) :
    Step.compiled s (fun d => d.compileTokens none []) = ⟨program, none⟩ := by
  obtain ⟨code, above, ex, rfl, hex, habove, rfl⟩ := h
  have hall : ∀ x ∈ above, Operator.leastRank ≤ x.rank := by
    intro x hx
    have hhigh := habove x hx
    omega
  have hnone : LooserThan Operator.leastRank [] := by
    intro x hx
    cases hx
  show (finish ⟨above ++ [], ex⟩).after code = _
  rw [finish_of_ne_operand hex, released_append hall hnone, remaining_append hall hnone]
  simp [Compilation.after]

end HasRead

/-! ### Phrases are read -/

/-- A left operand with its operator, and what is read after them. -/
theorem readAll_left {d : Draft} {ts : List Token} {o : Operator} {program : Program}
    (h : HasRead base rank program (d.readAll ts)) (hr : Expr.leftPlace o ≤ rank)
    (hb : o ≠ .pow → LooserThan o.rank base) (us : List Token) :
    d.readAll (ts ++ .operator o :: us)
      = Step.andThen (program, .ok ⟨.operator o :: base, .operand⟩) fun d' => d'.readAll us := by
  rw [List.append_cons, readAll_append, readAll_append]
  simp only [readAll_singleton, h.read_operator hr hb]

/-- The rest of a level, and the parenthesis that closes it. -/
theorem readAll_closed {d : Draft} {ts : List Token} {level : Pending} {program : Program}
    (h : HasRead (level :: base) rank program (d.readAll ts)) (hr : Operator.leastRank ≤ rank)
    (hl : level.rank = 0) :
    d.readAll (ts ++ [.closing]) = (program ++ level.code, .ok ⟨base, .continuation⟩) := by
  rw [readAll_append]
  simp only [readAll_singleton, h.read_closing hr hl]

theorem admits_level {level : Pending} (h : level.rank = 0) (p : Phrase) :
    Admits (level :: base) p.rank :=
  fun _ => looserThan_level h p.leastRank_le_rank

theorem admits_of_pow_le (h : Operator.pow.rank ≤ rank) : Admits base rank :=
  fun hlow => absurd h (Nat.not_le.2 hlow)

/-- What the operator of a phrase asks of the base, its left operand asks too. -/
theorem Admits.left {o : Operator} {a : Phrase} (h : Admits base o.rank)
    (ha : Expr.leftPlace o ≤ a.rank) : Admits base a.rank := by
  intro hlow x hx
  have hplace := o.rank_le_leftPlace
  have hloose := h (by omega) x hx
  omega

/-- The right operand stands above the operator, which binds more loosely. -/
theorem admits_right {o : Operator} {b : Phrase} (hb : Expr.rightPlace o ≤ b.rank) :
    Admits (.operator o :: base) b.rank := by
  intro hlow
  have ho : o ≠ .pow := by
    rintro rfl
    have hplace : Operator.pow.rank ≤ b.rank := hb
    omega
  rw [Operator.rightPlace_of_ne ho] at hb
  exact looserThan_cons hb

/-- A level, its body and its parenthesis are read as one operand. -/
theorem hasRead_enclosed {opener : List Token} {level : Pending} {a : Phrase}
    (hopener : readAll ⟨base, .operand⟩ opener = ([], openLevel level base))
    (hroom : levels base < maxNesting) (hl : level.rank = 0)
    (hbody : HasRead (level :: base) a.rank a.tree.program
      (readAll ⟨level :: base, .operand⟩ a.tokens)) :
    HasRead base rank (a.tree.program ++ level.code)
      (readAll ⟨base, .operand⟩ (opener ++ (a.tokens ++ [.closing]))) := by
  have hread := readAll_of_opener hopener (a.tokens ++ [.closing])
  rw [if_pos hroom, readAll_closed hbody a.leastRank_le_rank hl] at hread
  rw [hread]
  exact HasRead.of_continuation _

/-- **A phrase whose levels fit is read.**  The induction carries every base that admits the
    phrase: an operand is read above the operators and levels that wait for it. -/
theorem readAll_phrase {p : Phrase} (hp : p.Proper) (base : List Pending)
    (hb : Admits base p.rank)
    (hn : levels base + p.nesting ≤ maxNesting) :
    HasRead base p.rank p.tree.program (readAll ⟨base, .operand⟩ p.tokens) := by
  induction hp generalizing base with
  | number s => exact HasRead.of_continuation [.number s]
  | name s =>
    -- The name still waits for the token after it, and its instruction is owed.
    exact ⟨[], [], .argument s, rfl, by simp, by simp, rfl⟩
  | @call f a _ ih =>
    have hn : levels base + (a.nesting + 1) ≤ maxNesting := hn
    have hbody := ih (.argument f :: base) (admits_level rfl a)
      (by rw [levels_level rfl]; omega)
    exact hasRead_enclosed (readAll_call_opener f base) (by omega) rfl hbody
  | @group a _ ih =>
    have hn : levels base + (a.nesting + 1) ≤ maxNesting := hn
    have hbody := ih (.group :: base) (admits_level rfl a)
      (by rw [levels_level rfl]; omega)
    have hread : HasRead base (Phrase.group a).rank (a.tree.program ++ Pending.group.code) _ :=
      hasRead_enclosed (readAll_group_opener base) (by omega) rfl hbody
    rwa [Pending.code, List.append_nil] at hread
  | @sign negative a holds _ ih =>
    have hn : levels base + (a.nesting + 1) ≤ maxNesting := hn
    have hbody := ih (.sign negative :: base) (admits_of_pow_le holds)
      (by rw [levels_level rfl]; omega)
    -- Nothing closes the sign: it joins what waits for the end of its chain of powers.
    have hread := readAll_of_opener (readAll_sign_opener negative base) a.tokens
    rw [if_pos (by omega)] at hread
    have hrel := hbody.release holds (Nat.le_refl _) []
    rw [Phrase.tokens, ← List.singleton_append, hread]
    cases negative with
    | true => exact hrel
    | false => rwa [Pending.code, List.append_nil] at hrel
  | @binary o a b holdsLeft holdsRight _ _ iha ihb =>
    have hn : levels base + max a.nesting b.nesting ≤ maxNesting := hn
    have hleft := iha base (hb.left holdsLeft) (by omega)
    have hright := ihb (.operator o :: base) (admits_right holdsRight)
      (by rw [levels_operator]; omega)
    -- The right operand is read above the operator, which then joins what waits above the base.
    rw [Phrase.tokens, readAll_left hleft holdsLeft fun ho => hb (Operator.rank_lt_of_ne ho)]
    exact hright.release (Nat.le_trans o.rank_le_rightPlace holdsRight) (Nat.le_refl _) _

/-! ### Phrases too deep are refused -/

/-- A level is refused if its body is, or if there is no room for the level itself. -/
theorem readAll_tooDeep_of_opener {d : Draft} {opener : List Token} {level : Pending}
    (h : d.readAll opener = ([], openLevel level base)) (body : List Token)
    (hbody : levels base < maxNesting →
      ∃ code, readAll ⟨level :: base, .operand⟩ body = (code, .error .tooDeep))
    (ts : List Token) : ∃ code, d.readAll (opener ++ (body ++ ts)) = (code, .error .tooDeep) := by
  rw [readAll_of_opener h]
  split
  · next hroom =>
    obtain ⟨code, hcode⟩ := hbody hroom
    exact ⟨code, by rw [readAll_append, hcode, Step.andThen_error]⟩
  · exact ⟨[], rfl⟩

/-- **A phrase whose levels do not fit is refused**, by the token that opens a level too many. -/
theorem readAll_phrase_tooDeep {p : Phrase} (hp : p.Proper) (base : List Pending)
    (hb : Admits base p.rank) (hl : levels base ≤ maxNesting)
    (hn : maxNesting < levels base + p.nesting) :
    ∃ code, readAll ⟨base, .operand⟩ p.tokens = (code, .error .tooDeep) := by
  induction hp generalizing base with
  | number s => exact absurd hl (Nat.not_le.2 hn)
  | name s => exact absurd hl (Nat.not_le.2 hn)
  | @call f a _ ih =>
    have hn : maxNesting < levels base + (a.nesting + 1) := hn
    refine readAll_tooDeep_of_opener (readAll_call_opener f base) _ (fun hroom => ?_) [.closing]
    refine ih (.argument f :: base) (admits_level rfl a) ?_ ?_
    · rw [levels_level rfl]; exact hroom
    · rw [levels_level rfl]; omega
  | @group a _ ih =>
    have hn : maxNesting < levels base + (a.nesting + 1) := hn
    refine readAll_tooDeep_of_opener (readAll_group_opener base) _ (fun hroom => ?_) [.closing]
    refine ih (.group :: base) (admits_level rfl a) ?_ ?_
    · rw [levels_level rfl]; exact hroom
    · rw [levels_level rfl]; omega
  | @sign negative a holds _ ih =>
    have hn : maxNesting < levels base + (a.nesting + 1) := hn
    have hsign := readAll_tooDeep_of_opener (readAll_sign_opener negative base) a.tokens
      (fun hroom => ih (.sign negative :: base) (admits_of_pow_le holds)
        (by rw [levels_level rfl]; exact hroom) (by rw [levels_level rfl]; omega)) []
    rwa [List.append_nil] at hsign
  | @binary o a b holdsLeft holdsRight left _ iha ihb =>
    have hn : maxNesting < levels base + max a.nesting b.nesting := hn
    rw [Phrase.tokens]
    by_cases ha : levels base + a.nesting ≤ maxNesting
    · -- The left operand fits, so the right one does not.
      have hleft := readAll_phrase left base (hb.left holdsLeft) ha
      rw [readAll_left hleft holdsLeft fun ho => hb (Operator.rank_lt_of_ne ho)]
      obtain ⟨code, hcode⟩ := ihb (.operator o :: base) (admits_right holdsRight)
        (by rw [levels_operator]; exact hl) (by rw [levels_operator]; omega)
      exact ⟨a.tree.program ++ code, by rw [Step.andThen_ok, hcode]⟩
    · obtain ⟨code, hcode⟩ := iha base (hb.left holdsLeft) hl (by omega)
      exact ⟨code, by rw [readAll_append, hcode, Step.andThen_error]⟩

end Draft

end Reckoner
