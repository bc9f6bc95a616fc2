import Reckoner.Proofs.Levels
import Reckoner.Proofs.Unfinished

namespace Reckoner

/-!
# Completing an unfinished phrase

What waits for an operand can be given one: with the parentheses that are still due, any phrase that
fits the innermost place completes the text (`Awaits.completed`).  Hence whatever a draft holds is
the start of a proper phrase whose levels fit (`Holds.exists_phrase`).

The levels that a draft counts are the levels that are open in the text:

* `Awaits.openLevels_le` — whatever follows, no more are open than wait;
* `Awaits.le_openLevels` — in a completed text, as many are.
-/

/-! ### Levels at a later point -/

section Later

variable {past xs ys after : List Token} {t : Token}

/-- A level that is open at some point was open before. -/
theorem isOpen_of_append (h : IsOpen past t (xs ++ ys) after) : IsOpen past t xs (ys ++ after) := by
  cases t with
  | opening => exact closesOutside_of_append h
  | closing | number | name => exact h
  | operator o =>
    cases o with
    | mul | div | pow => exact h
    | add | sub =>
      obtain ⟨hdue, chain, hchain, hstarts, hlong⟩ := h
      rw [List.append_assoc] at hstarts
      rw [List.length_append] at hlong
      exact ⟨hdue, chain, hchain, hstarts, by omega⟩

/-- At a later point, at most those levels are open that were open before or that the tokens since
    then open. -/
theorem openLevels_append_le (past xs ys after : List Token) :
    openLevels past (xs ++ ys) after
      ≤ openLevels past xs (ys ++ after) + openLevels (past ++ xs) ys after := by
  induction xs generalizing past with
  | nil => simp
  | cons t xs ih =>
    have hlater := ih (past ++ [t])
    rw [List.append_assoc, List.singleton_append] at hlater
    rw [List.cons_append]
    by_cases ht : IsOpen past t (xs ++ ys) after
    · rw [openLevels_cons_of_isOpen ht, openLevels_cons_of_isOpen (isOpen_of_append ht)]
      omega
    · rw [openLevels_cons_of_not ht]
      have hfewer : openLevels (past ++ [t]) xs (ys ++ after)
          ≤ openLevels past (t :: xs) (ys ++ after) := by
        rw [openLevels]
        omega
      omega

end Later

namespace Draft

variable {pending : List Pending} {ts : List Token}

/-- An operand is due after what waits for one. -/
theorem Awaits.operandDue (h : Awaits pending ts) : operandDue ts = true := by
  cases h with
  | start => rfl
  | operator o =>
    rw [← List.append_assoc]
    exact operandDue_append_operator _ o
  | sign => exact operandDue_append_operator _ _
  | group => exact operandDue_append_opening _
  | argument => exact List.append_cons _ _ _ ▸ operandDue_append_opening _

/-- The tokens that open a level leave one more open at most. -/
theorem openLevels_opener_le {opener : List Token} {level : Pending} (hlevel : level.isLevel = true)
    (hbefore : ∀ us, openLevels [] ts us ≤ levels pending)
    (hopener : ∀ us, openLevels ts opener us ≤ 1) (us : List Token) :
    openLevels [] (ts ++ opener) us ≤ levels (level :: pending) := by
  have hsplit := openLevels_append_le [] ts opener us
  have hone := hopener us
  have hbefore := hbefore (opener ++ us)
  rw [List.nil_append] at hsplit
  rw [levels_level hlevel]
  omega

/-- **Whatever follows**, no more levels are open than wait. -/
theorem Awaits.openLevels_le (h : Awaits pending ts) (us : List Token) :
    openLevels [] ts us ≤ levels pending := by
  induction h generalizing us with
  | start => exact Nat.zero_le _
  | @operator pending ts o left rest proper _ holds _ ih =>
    have hsplit := openLevels_append_le [] ts (left.tokens ++ [.operator o]) us
    have hbefore := ih (left.tokens ++ [.operator o] ++ us)
    -- The left operand is complete, and its operator is no sign.
    have hleft : openLevels ts (left.tokens ++ [.operator o]) us = 0 := by
      rw [openLevels_phrase_append proper rest.operandDue _ (Phrase.precedes_operator holds us),
        openLevels_cons_of_not (not_isOpen_operator (left.operandDue_append ts) o _ _)]
      rfl
    rw [List.nil_append, hleft] at hsplit
    rw [levels_operator]
    omega
  | @sign pending ts negative _ _ ih =>
    exact openLevels_opener_le rfl ih (openLevels_cons_le ts (.sign negative) []) us
  | @group pending ts _ _ ih =>
    exact openLevels_opener_le rfl ih (openLevels_cons_le ts .opening []) us
  | @argument pending ts f _ _ ih =>
    refine openLevels_opener_le rfl ih (fun vs => ?_) us
    rw [openLevels_name]
    exact openLevels_cons_le (ts ++ [.name f]) .opening [] vs

/-! ### The rest of a text -/

end Draft

/-- The parenthesis that an open level still needs, if it is one of parentheses. -/
def Pending.closings : Pending → List Token
  | group | argument _ => [.closing]
  | operator _ | sign _ => []

/-- The parentheses that are still due, the innermost first. -/
def Draft.closings (pending : List Pending) : List Token := pending.flatMap Pending.closings

namespace Draft

variable {pending : List Pending} {ts : List Token} {q : Phrase}

@[simp] theorem closings_cons (x : Pending) (pending : List Pending) :
    closings (x :: pending) = x.closings ++ closings pending := rfl

/-- **An operand completes what waits for it**, with the parentheses that are due.  If the levels of
    the operand fit above those that wait, all levels fit. -/
theorem Awaits.completed (h : Awaits pending ts) (hq : q.Proper)
    (hplace : ∀ x ∈ pending.head?, x.place ≤ q.rank) :
    ∃ p : Phrase, p.Proper ∧ p.tokens = ts ++ (q.tokens ++ closings pending) ∧
      p.nesting ≤ max maxNesting (levels pending + q.nesting) := by
  induction h generalizing q with
  | start =>
    refine ⟨q, hq, by simp [closings], ?_⟩
    rw [show levels [] = 0 from rfl, Nat.zero_add]
    exact Nat.le_max_right _ _
  | @operator pending ts o left _ proper fits holds loose ih =>
    have hproper : (Phrase.binary o left q).Proper := .binary o holds (hplace _ rfl) proper hq
    obtain ⟨p, hp, htokens, hn⟩ := ih hproper (place_le_of_loose loose)
    refine ⟨p, hp, by simp [htokens, Phrase.tokens, Pending.closings], ?_⟩
    have hleft : levels pending + left.nesting ≤ maxNesting := fits
    rw [levels_operator]
    simp only [Phrase.nesting] at hn
    omega
  | @sign pending ts negative _ _ ih =>
    have hproper : (Phrase.sign negative q).Proper := .sign negative (hplace _ rfl) hq
    obtain ⟨p, hp, htokens, hn⟩ := ih hproper fun x _ => x.place_le_pow
    refine ⟨p, hp, by simp [htokens, Phrase.tokens, Pending.closings], ?_⟩
    rw [levels_level rfl]
    simp only [Phrase.nesting] at hn
    omega
  | @group pending ts _ _ ih =>
    have hproper : (Phrase.group q).Proper := .group hq
    obtain ⟨p, hp, htokens, hn⟩ := ih hproper fun x _ => Nat.le_succ_of_le x.place_le_pow
    refine ⟨p, hp, by simp [htokens, Phrase.tokens, Pending.closings], ?_⟩
    rw [levels_level rfl]
    simp only [Phrase.nesting] at hn
    omega
  | @argument pending ts f _ _ ih =>
    have hproper : (Phrase.call f q).Proper := .call f hq
    obtain ⟨p, hp, htokens, hn⟩ := ih hproper fun x _ => Nat.le_succ_of_le x.place_le_pow
    refine ⟨p, hp, by simp [htokens, Phrase.tokens, Pending.closings], ?_⟩
    rw [levels_level rfl]
    simp only [Phrase.nesting] at hn
    omega

/-- **In a completed text**, all levels that wait are open before the operand ends, besides those
    that the operand opens itself.  The induction carries the point inside the operand: what waits
    becomes part of a larger operand, and the point stays where it is. -/
theorem Awaits.le_openLevels (h : Awaits pending ts) (hq : q.Proper)
    (hplace : ∀ x ∈ pending.head?, x.place ≤ q.rank) {xs ys : List Token}
    (hcut : q.tokens = xs ++ ys) (hys : ys ≠ []) :
    levels pending + openLevels ts xs (ys ++ closings pending)
      ≤ openLevels [] (ts ++ xs) (ys ++ closings pending) := by
  induction h generalizing q xs ys with
  | start => simp [levels]
  | @operator pending ts o left rest proper fits holds loose ih =>
    have hproper : (Phrase.binary o left q).Proper := .binary o holds (hplace _ rfl) proper hq
    have hcut' : (Phrase.binary o left q).tokens = (left.tokens ++ .operator o :: xs) ++ ys := by
      simp [Phrase.tokens, hcut]
    have hbelow := ih hproper (place_le_of_loose loose) hcut' hys
    -- Behind the left operand and its operator, none of their levels is open.
    rw [openLevels_phrase_append proper rest.operandDue _ (Phrase.precedes_operator holds _),
      openLevels_cons_of_not (not_isOpen_operator (left.operandDue_append ts) o _ _)] at hbelow
    rw [levels_operator]
    simpa [Pending.closings] using hbelow
  | @sign pending ts negative rest room ih =>
    have hpow : Operator.pow.rank ≤ q.rank := hplace _ rfl
    have hcut' : (Phrase.sign negative q).tokens = (.sign negative :: xs) ++ ys := by
      simp [Phrase.tokens, hcut]
    have hbelow := ih (.sign negative hpow hq) (fun x _ => x.place_le_pow) hcut' hys
    -- The operand is a chain of powers that reaches past the point.
    have hopen : IsOpen ts (.sign negative) xs (ys ++ closings pending) := by
      refine isOpen_sign.2 ⟨rest.operandDue, q.tokens, hq.derives hpow, ?_, ?_⟩
      · rw [hcut, ← List.append_assoc]
        exact List.prefix_append _ _
      · have hpos := List.length_pos_iff.2 hys
        rw [hcut, List.length_append]
        omega
    rw [openLevels_cons_of_isOpen hopen] at hbelow
    rw [levels_level rfl]
    simp only [closings_cons, Pending.closings, List.nil_append, List.append_assoc,
      List.singleton_append]
    omega
  | @group pending ts rest room ih =>
    have hcut' : (Phrase.group q).tokens = (.opening :: xs) ++ (ys ++ [.closing]) := by
      simp [Phrase.tokens, hcut]
    have hbelow := ih (.group hq) (fun x _ => Nat.le_succ_of_le x.place_le_pow) hcut' (by simp)
    rw [openLevels_cons_of_isOpen (isOpen_opening_of_cut hcut _ _)] at hbelow
    rw [levels_level rfl]
    simp only [closings_cons, Pending.closings, List.append_assoc, List.singleton_append]
      at hbelow ⊢
    omega
  | @argument pending ts f rest room ih =>
    have hcut' : (Phrase.call f q).tokens = (.name f :: .opening :: xs) ++ (ys ++ [.closing]) := by
      simp [Phrase.tokens, hcut]
    have hbelow := ih (.call f hq) (fun x _ => Nat.le_succ_of_le x.place_le_pow) hcut' (by simp)
    rw [openLevels_name, openLevels_cons_of_isOpen (isOpen_opening_of_cut hcut _ _)] at hbelow
    rw [levels_level rfl]
    simp only [closings_cons, Pending.closings, List.append_assoc, List.cons_append,
      List.nil_append] at hbelow ⊢
    omega

/-- **Whatever a draft holds can be completed**: by a number if an operand is due, and by the
    parentheses that are due.  All levels of the completed text fit. -/
theorem Holds.completed {d : Draft} (h : d.Holds ts) :
    ∃ (p : Phrase) (operand : List Token), p.Proper ∧
      p.tokens = ts ++ (operand ++ closings d.pending) ∧ p.nesting ≤ maxNesting ∧
      (operand = [] ∨ operand = [.number "0"]) := by
  by_cases hd : d.expecting = .operand
  · obtain ⟨pending, ex⟩ := d
    obtain rfl : ex = .operand := hd
    have hawaits : Awaits pending ts := h
    obtain ⟨p, hp, htokens, hn⟩ := hawaits.completed (.number "0")
      fun x _ => Nat.le_succ_of_le x.place_le_pow
    have hlevels := hawaits.levels_le
    exact ⟨p, _, hp, htokens, by simp only [Phrase.nesting] at hn; omega, .inr rfl⟩
  · -- The operand that has been read is the one that completes what waits.
    obtain ⟨q, ⟨before, hawaits, hq, hfits, hplace, rfl⟩, -⟩ := h.continues hd
    obtain ⟨p, hp, htokens, hn⟩ := hawaits.completed hq hplace
    have hlevels : levels d.pending + q.nesting ≤ maxNesting := hfits
    exact ⟨p, [], hp, by simp [htokens], by omega, .inl rfl⟩

end Draft

/-! ### Parentheses -/

/-- More parentheses have been opened than closed. -/
def Enclosed (ts : List Token) : Prop := ts.count .closing < ts.count .opening

/-- A phrase closes as many parentheses as it opens. -/
theorem Phrase.count_opening (p : Phrase) :
    p.tokens.count .opening = p.tokens.count .closing := by
  induction p with
  | number s => simp [tokens]
  | name s => simp [tokens]
  | call f a ih => simp [tokens, ih]
  | group a ih => simp [tokens, ih]
  | sign negative a ih => simp [tokens, Token.sign, ih]
  | binary o a b iha ihb => simp [tokens, iha, ihb]

namespace Draft

theorem eq_closing_of_mem_closings {pending : List Pending} {t : Token}
    (ht : t ∈ closings pending) : t = .closing := by
  obtain ⟨x, -, hx⟩ := List.mem_flatMap.1 ht
  cases x with
  | operator | sign => cases hx
  | group | argument => exact List.mem_singleton.1 hx

/-- Nothing remains after a release exactly if no parenthesis is due. -/
theorem remaining_eq_nil_iff (pending : List Pending) :
    remaining Operator.leastRank pending = [] ↔ closings pending = [] := by
  induction pending with
  | nil => exact ⟨fun _ => rfl, fun _ => rfl⟩
  | cons x pending ih =>
    cases x with
    | operator o => rw [remaining_cons o.leastRank_le, ih]; rfl
    | sign negative => rw [remaining_cons (Operator.leastRank_le .pow), ih]; rfl
    | group | argument => simp [remaining, Pending.rank, Operator.leastRank, Pending.closings]

/-- **Outside all parentheses**, and only there, nothing remains after a release. -/
theorem Holds.not_enclosed_iff {d : Draft} {ts : List Token} (h : d.Holds ts) :
    ¬ Enclosed ts ↔ remaining Operator.leastRank d.pending = [] := by
  obtain ⟨p, operand, -, htokens, -, hoperand⟩ := h.completed
  have hbalanced := p.count_opening
  have hnone : operand.count .opening = 0 ∧ operand.count .closing = 0 := by
    rcases hoperand with rfl | rfl <;> simp
  have hopening : (closings d.pending).count .opening = 0 :=
    List.count_eq_zero.2 fun hmem => absurd (eq_closing_of_mem_closings hmem) (by simp)
  have hclosing : (closings d.pending).count .closing = (closings d.pending).length :=
    List.count_eq_length.2 fun t ht => (eq_closing_of_mem_closings ht).symm
  rw [htokens] at hbalanced
  simp only [List.count_append, hnone, hopening, hclosing] at hbalanced
  rw [remaining_eq_nil_iff, ← List.length_eq_zero_iff, Enclosed]
  omega

end Draft

end Reckoner
