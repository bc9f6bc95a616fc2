import Reckoner.Proofs.Reading

namespace Reckoner

/-!
# Unfinished phrases

Every draft that reading can come to stands for an unfinished phrase.  `Draft.Awaits` recovers it
from what waits: below each operator stands its left operand, below each level nothing of it, and
an operand is due on top.  `Draft.Continues` is the same with an operand on top that may still
grow.  Releasing an operator or a sign closes it over the operand on top (`Continues.closed`).

* `Holds.read`, `Holds.readAll` — reading a token, and hence reading any list of them, keeps the
  unfinished phrase in step with the draft;
* `Holds.finish` — if the text may end, the phrase is finished.
-/

/-- How tightly the operand of what waits has to hold together. -/
def Pending.place : Pending → Nat
  | operator o => Expr.rightPlace o
  | sign _ => Operator.pow.rank
  | group | argument _ => Operator.leastRank

theorem Pending.place_le_pow (x : Pending) : x.place ≤ Operator.pow.rank := by
  cases x with
  | operator o => cases o <;> decide
  | sign => exact Nat.le_refl _
  | group | argument => exact Operator.leastRank_le .pow

/-- What binds more loosely than a phrase can take the phrase as its operand. -/
theorem Pending.place_le_of_rank_lt {x : Pending} {rank : Nat} (h : x.rank < rank) :
    x.place ≤ rank := by
  cases x with
  | operator o =>
    by_cases ho : o = .pow
    · subst ho; exact Nat.le_of_lt h
    · rw [place, Operator.rightPlace_of_ne ho]; exact h
  | sign => exact Nat.le_of_lt h
  | group | argument => exact h

namespace Draft

/-- The levels of a phrase fit above what waits. -/
def Fits (pending : List Pending) (p : Phrase) : Prop :=
  levels pending + p.nesting ≤ maxNesting

/-- The level around a phrase fits where the phrase fits inside it. -/
theorem nesting_succ_fits {level : Pending} (hlevel : level.isLevel = true) {pending : List Pending}
    {p : Phrase} (h : Fits (level :: pending) p) :
    levels pending + (p.nesting + 1) ≤ maxNesting := by
  rw [Fits, levels_level hlevel] at h
  omega

/-- **What was read before an operand that is due**, told from what waits for it. -/
inductive Awaits : List Pending → List Token → Prop where
  | start : Awaits [] []
  | operator {pending : List Pending} {ts : List Token} (o : Operator) {left : Phrase}
      (rest : Awaits pending ts) (proper : left.Proper) (fits : Fits pending left)
      (holds : Expr.leftPlace o ≤ left.rank) (loose : o ≠ .pow → LooserThan o.rank pending) :
      Awaits (.operator o :: pending) (ts ++ (left.tokens ++ [.operator o]))
  | sign {pending : List Pending} {ts : List Token} (negative : Bool)
      (rest : Awaits pending ts) (room : levels pending < maxNesting) :
      Awaits (.sign negative :: pending) (ts ++ [.sign negative])
  | group {pending : List Pending} {ts : List Token}
      (rest : Awaits pending ts) (room : levels pending < maxNesting) :
      Awaits (.group :: pending) (ts ++ [.opening])
  | argument {pending : List Pending} {ts : List Token} (f : String)
      (rest : Awaits pending ts) (room : levels pending < maxNesting) :
      Awaits (.argument f :: pending) (ts ++ [.name f, .opening])

/-- **An operand has been read on top of what waits**, and may be the operand of all of it. -/
def Continues (pending : List Pending) (p : Phrase) (ts : List Token) : Prop :=
  ∃ before, Awaits pending before ∧ p.Proper ∧ Fits pending p ∧
    (∀ x ∈ pending.head?, x.place ≤ p.rank) ∧ before ++ p.tokens = ts

variable {pending : List Pending} {ts : List Token}

/-- Nothing waits at more levels than may be open. -/
theorem Awaits.levels_le (h : Awaits pending ts) : levels pending ≤ maxNesting := by
  cases h with
  | start => exact Nat.zero_le _
  | operator o rest proper fits =>
    rw [levels_operator]
    exact Nat.le_trans (Nat.le_add_right _ _) fits
  | sign _ _ room | group _ room | argument _ _ room =>
    rw [levels_level rfl]
    exact room

/-- An operand that holds most can be the operand of anything. -/
theorem Awaits.continues {before : List Token} (h : Awaits pending before) {p : Phrase}
    (hp : p.Proper) (hn : Fits pending p) (hr : Operator.pow.rank ≤ p.rank) :
    Continues pending p (before ++ p.tokens) :=
  ⟨before, h, hp, hn, fun x _ => Nat.le_trans x.place_le_pow hr, rfl⟩

/-- An operator is a fit operand for what it has not released. -/
theorem place_le_of_loose {o : Operator} (loose : o ≠ .pow → LooserThan o.rank pending) :
    ∀ x ∈ pending.head?, x.place ≤ o.rank := by
  intro x hx
  by_cases ho : o = .pow
  · subst ho
    exact x.place_le_pow
  · exact Pending.place_le_of_rank_lt (loose ho x hx)

/-- **An operator or a sign closes over its operand.**  The phrase that results can be the operand
    of what waits below. -/
theorem Continues.closed {x : Pending} {p : Phrase} (h : Continues (x :: pending) p ts)
    (hx : Operator.leastRank ≤ x.rank) :
    ∃ q, Continues pending q ts ∧ q.rank = x.rank := by
  obtain ⟨before, hawaits, hp, hfits, hplace, rfl⟩ := h
  have hp_place := hplace x rfl
  cases hawaits with
  | @operator _ ts o left rest proper fits holds loose =>
    refine ⟨.binary o left p, ⟨ts, rest, .binary o holds hp_place proper hp, ?_, ?_, ?_⟩, rfl⟩
    · -- An operator is no level, so its operands share the room.
      have hn : levels pending + p.nesting ≤ maxNesting := by rwa [Fits, levels_operator] at hfits
      have hleft : levels pending + left.nesting ≤ maxNesting := fits
      show levels pending + max left.nesting p.nesting ≤ maxNesting
      omega
    · -- What waits below binds more loosely, unless both are powers.
      exact place_le_of_loose loose
    · simp [Phrase.tokens]
  | @sign _ ts negative rest room =>
    refine ⟨.sign negative p, ⟨ts, rest, .sign negative hp_place hp, ?_, ?_, ?_⟩, rfl⟩
    · exact nesting_succ_fits rfl hfits
    · exact fun y _ => y.place_le_pow
    · simp [Phrase.tokens]
  | group | argument => exact absurd hx (Nat.not_succ_le_zero _)

/-- **Releasing** closes all that binds at least as tightly as `rank`, one item after the other. -/
theorem Continues.released {p : Phrase} {rank : Nat} (h : Continues pending p ts)
    (hrank : Operator.leastRank ≤ rank) (hp : rank ≤ p.rank) :
    ∃ q, Continues (remaining rank pending) q ts ∧ rank ≤ q.rank := by
  induction pending generalizing p with
  | nil => exact ⟨p, h, hp⟩
  | cons x pending ih =>
    by_cases hx : rank ≤ x.rank
    · obtain ⟨q, hq, hqx⟩ := h.closed (Nat.le_trans hrank hx)
      rw [remaining_cons hx]
      exact ih hq (hqx ▸ hx)
    · rw [remaining_of_looserThan (looserThan_cons (Nat.lt_of_not_le hx))]
      exact ⟨p, h, hp⟩

/-- What remains binds more loosely. -/
theorem looserThan_remaining (rank : Nat) (pending : List Pending) :
    LooserThan rank (remaining rank pending) := by
  intro x hx
  have hhead := List.head?_dropWhile_not (fun x : Pending => decide (rank ≤ x.rank)) pending
  rw [remaining] at hx
  rw [hx] at hhead
  simpa using hhead

/-! ### Drafts hold unfinished phrases -/

/-- **The draft holds what was read**: its unfinished phrase has these tokens. -/
def Holds (d : Draft) (ts : List Token) : Prop :=
  match d.expecting with
  | .operand => Awaits d.pending ts
  | .argument f => ∃ before, Awaits d.pending before ∧ before ++ [.name f] = ts
  | .continuation => ∃ p, Continues d.pending p ts ∧ Operator.pow.rank < p.rank

theorem holds_empty : empty.Holds [] := Awaits.start

variable {t : Token} {d d' : Draft}

/-- An operand has been read that holds most. -/
theorem Awaits.holds_operand {before : List Token} (h : Awaits pending before) {p : Phrase}
    (hp : p.Proper) (hn : Fits pending p) (hr : Operator.pow.rank < p.rank) :
    Holds ⟨pending, .continuation⟩ (before ++ p.tokens) :=
  ⟨p, h.continues hp hn (Nat.le_of_lt hr), hr⟩

/-- A level that opens holds its opening tokens. -/
theorem holds_of_openLevel {level : Pending} {us : List Token}
    (h : openLevel level pending = .ok d')
    (hlevel : levels pending < maxNesting → Awaits (level :: pending) us) : d'.Holds us := by
  obtain ⟨hroom, rfl⟩ := openLevel_ok h
  exact hlevel hroom

/-- A token where an operand is due. -/
theorem Awaits.startOperand (h : Awaits pending ts)
    (hread : (startOperand pending t).2 = .ok d') : d'.Holds (ts ++ [t]) := by
  have hfits (p : Phrase) (hp : p.nesting = 0) : Fits pending p := by
    rw [Fits, hp]
    exact h.levels_le
  cases t with
  | number s =>
    obtain rfl := Except.ok.inj hread
    exact h.holds_operand (.number s) (hfits _ rfl) (Nat.lt_succ_self _)
  | name s =>
    obtain rfl := Except.ok.inj hread
    exact ⟨ts, h, rfl⟩
  | opening => exact holds_of_openLevel hread h.group
  | closing => cases hread
  | operator o =>
    cases o with
    | add => exact holds_of_openLevel hread (h.sign false)
    | sub => exact holds_of_openLevel hread (h.sign true)
    | mul | div | pow => cases hread

/-- An operator after an operand: it releases what binds at least as tightly, and waits. -/
theorem Continues.read_operator {p : Phrase} (h : Continues pending p ts)
    (hp : Operator.pow.rank < p.rank) {o : Operator}
    (hread : (continueOperand pending (.operator o)).2 = .ok d') :
    d'.Holds (ts ++ [.operator o]) := by
  by_cases ho : o = .pow
  · -- The operand that was read last is the left operand of the power, and no other.
    subst ho
    obtain rfl := Except.ok.inj hread
    obtain ⟨before, hawaits, hproper, hfits, -, rfl⟩ := h
    have hwaits := hawaits.operator .pow hproper hfits hp (fun hne => absurd rfl hne)
    rwa [← List.append_assoc] at hwaits
  · rw [continueOperand_operator ho] at hread
    obtain rfl := Except.ok.inj hread
    have hrank : o.rank ≤ p.rank := by
      have hlow := Operator.rank_lt_of_ne ho
      omega
    -- All that is released becomes one phrase, the left operand.
    obtain ⟨q, ⟨before, hawaits, hproper, hfits, -, rfl⟩, hq⟩ := h.released o.leastRank_le hrank
    have hholds : Expr.leftPlace o ≤ q.rank := by rwa [Operator.leftPlace_of_ne ho]
    have hwaits := hawaits.operator o hproper hfits hholds
      (fun _ => looserThan_remaining o.rank pending)
    rwa [← List.append_assoc] at hwaits

/-- A closing parenthesis after an operand: it releases the innermost level and closes it. -/
theorem Continues.read_closing {p : Phrase} (h : Continues pending p ts)
    (hread : (continueOperand pending .closing).2 = .ok d') : d'.Holds (ts ++ [.closing]) := by
  obtain ⟨q, ⟨before, hawaits, hproper, hfits, -, rfl⟩, -⟩ :=
    h.released (Nat.le_refl _) p.leastRank_le_rank
  have hloose := looserThan_remaining Operator.leastRank pending
  cases hrest : remaining Operator.leastRank pending with
  | nil =>
    rw [continueOperand_refused pending (by simp) fun _ => hrest] at hread
    cases hread
  | cons level outer =>
    rw [continueOperand_closing hrest] at hread
    rw [hrest] at hawaits hfits hloose
    obtain rfl := Except.ok.inj hread
    -- What remains on top is a level, for nothing else binds that loosely.
    cases hawaits with
    | operator o => exact absurd (hloose _ rfl) (Nat.not_lt.2 o.leastRank_le)
    | sign => exact absurd (hloose _ rfl) (Nat.not_lt.2 (Operator.leastRank_le .pow))
    | @group _ ts rest room =>
      have hholds := rest.holds_operand (.group hproper) (nesting_succ_fits rfl hfits)
        (Nat.lt_succ_self _)
      simpa [Phrase.tokens] using hholds
    | @argument _ ts f rest room =>
      have hholds := rest.holds_operand (.call f hproper) (nesting_succ_fits rfl hfits)
        (Nat.lt_succ_self _)
      simpa [Phrase.tokens] using hholds

/-- A token after an operand that holds most.  Only operators and closing parentheses go on. -/
theorem Continues.continueOperand {p : Phrase} (h : Continues pending p ts)
    (hp : Operator.pow.rank < p.rank) (hread : (continueOperand pending t).2 = .ok d') :
    d'.Holds (ts ++ [t]) := by
  by_cases hoperator : ∃ o, t = .operator o
  · obtain ⟨o, rfl⟩ := hoperator
    exact h.read_operator hp hread
  · by_cases hclosing : t = .closing
    · subst hclosing
      exact h.read_closing hread
    · rw [continueOperand_refused pending (fun o ho => hoperator ⟨o, ho⟩)
        fun hc => absurd hc hclosing] at hread
      cases hread

/-- The operand that a draft has read, a name included. -/
theorem Holds.continues (h : d.Holds ts) (hd : d.expecting ≠ .operand) :
    ∃ p, Continues d.pending p ts ∧ Operator.pow.rank < p.rank := by
  obtain ⟨pending, ex⟩ := d
  cases ex with
  | operand => exact absurd rfl hd
  | continuation => exact h
  | argument f =>
    obtain ⟨before, hawaits, rfl⟩ := h
    exact ⟨.name f, hawaits.continues (.name f) hawaits.levels_le (Nat.le_succ _),
      Nat.lt_succ_self _⟩

/-- **One token keeps the unfinished phrase in step.** -/
theorem Holds.read (h : d.Holds ts) (hread : (d.read t).2 = .ok d') : d'.Holds (ts ++ [t]) := by
  by_cases hd : d.expecting = .operand
  · obtain ⟨pending, ex⟩ := d
    obtain rfl : ex = .operand := hd
    exact Awaits.startOperand h hread
  · by_cases ht : t = .opening
    · -- A parenthesis goes on after a name only, and makes it a function.
      subst ht
      obtain ⟨pending, ex⟩ := d
      cases ex with
      | operand => exact absurd rfl hd
      | continuation =>
        obtain ⟨p, hcont, hp⟩ := h
        exact hcont.continueOperand hp hread
      | argument f =>
        obtain ⟨before, hawaits, rfl⟩ := h
        refine holds_of_openLevel hread fun hroom => ?_
        rw [List.append_assoc]
        exact hawaits.argument f hroom
    · rw [read_of_ne_operand hd ht] at hread
      obtain ⟨p, hcont, hp⟩ := h.continues hd
      exact hcont.continueOperand hp hread

/-- **A run keeps the unfinished phrase in step.** -/
theorem Holds.readAll {us : List Token} (h : d.Holds ts) (hread : (d.readAll us).2 = .ok d') :
    d'.Holds (ts ++ us) := by
  induction us generalizing d ts with
  | nil =>
    obtain rfl := Except.ok.inj hread
    rwa [List.append_nil]
  | cons t us ih =>
    rw [readAll_cons] at hread
    obtain ⟨d₁, ht, hrest⟩ := Step.ok_of_andThen hread
    have hheld := ih (h.read ht) hrest
    rwa [List.append_assoc] at hheld

/-- **A text that may end has been read as a finished phrase.** -/
theorem Holds.finish (h : d.Holds ts) (hd : d.finish.rejection? = none) :
    ∃ p : Phrase, p.Proper ∧ p.tokens = ts ∧ p.nesting ≤ maxNesting := by
  obtain ⟨hex, hnone⟩ := remaining_of_accepted hd
  obtain ⟨p, hcont, -⟩ := h.continues hex
  obtain ⟨q, ⟨before, hawaits, hproper, hfits, -, rfl⟩, -⟩ :=
    hcont.released (Nat.le_refl _) p.leastRank_le_rank
  rw [hnone] at hawaits hfits
  cases hawaits with
  | start => exact ⟨q, hproper, rfl, by simpa [Fits, levels] using hfits⟩

end Draft

end Reckoner
