import Reckoner.Proofs.Phrase

namespace Reckoner

/-!
# Open levels

How many levels are open at a point of a text, counted on the tokens alone.  A token opens a level
if it is an opening parenthesis, or a sign where an operand is due (`IsOpen`):

* a parenthesis is open until the tokens after it close one more than they open;
* a sign is open as long as some chain of powers that starts right after it reaches past the
  point, that is, until the longest one has ended.

`openLevels` adds them up.  The most levels that are open at any point of a proper phrase are its
nesting (`openLevels_le_iff`).  The upper bound needs that no chain reaches past the operand of a
sign (`Phrase.Proper.longest_operand`), and that levels which have ended stay closed
(`openLevels_phrase_append`).
-/

/-- Whether an operand is due: at the start, after an operator and after an opening parenthesis. -/
def operandDue (past : List Token) : Bool :=
  match past.getLast? with
  | none | some (.operator _) | some .opening => true
  | some .closing | some (.number _) | some (.name _) => false

/-- Whether tokens close a parenthesis that was open before, besides `depth` others. -/
def closesOutside : Nat → List Token → Bool
  | _, [] => false
  | 0, .closing :: _ => true
  | depth + 1, .closing :: ts => closesOutside depth ts
  | depth, .opening :: ts => closesOutside (depth + 1) ts
  | depth, .operator _ :: ts | depth, .number _ :: ts | depth, .name _ :: ts =>
    closesOutside depth ts

/-- **An open level.**  The token `t` after `past` opens a level, and the level is still open when
    `inside` has been read and `after` follows. -/
def IsOpen (past : List Token) (t : Token) (inside after : List Token) : Prop :=
  match t with
  | .opening => closesOutside 0 inside = false
  | .operator .add | .operator .sub =>
    operandDue past = true ∧
      ∃ chain, Derives .power chain ∧ chain <+: inside ++ after ∧ inside.length < chain.length
  | _ => False

open Classical in
/-- **The number of levels open at a point**, of those that the tokens before it open.  What came
    before these tokens is `past`, and what follows the point is `after`. -/
noncomputable def openLevels (past : List Token) : (before after : List Token) → Nat
  | [], _ => 0
  | t :: inside, after =>
    (if IsOpen past t inside after then 1 else 0) + openLevels (past ++ [t]) inside after

/-! ### Chains do not reach past their end -/

/-- What may follow a chain of powers that is complete: nothing that makes it longer. -/
def Ends : List Token → Prop
  | [] | .closing :: _ => True
  | .operator o :: _ => o ≠ .pow
  | .opening :: _ | .number _ :: _ | .name _ :: _ => False

/-- What reading tokens inside a chain of powers comes to: the open parentheses and whether an
    operand is due, or none if the chain has ended before. -/
def scanChain : Nat → Bool → List Token → Option (Nat × Bool)
  | depth, due, [] => some (depth, due)
  | depth, _, .opening :: ts => scanChain (depth + 1) true ts
  | 0, _, .closing :: _ => none
  | depth + 1, _, .closing :: ts => scanChain depth false ts
  | depth, due, .operator o :: ts =>
    if due = true ∨ 0 < depth ∨ o = .pow then scanChain depth true ts else none
  | depth, _, .number _ :: ts | depth, _, .name _ :: ts => scanChain depth false ts

/-- A chain of powers is scanned to its end, and so is anything inside parentheses. -/
theorem Derives.scan {c : Category} {ts : List Token} (h : Derives c ts) {depth : Nat}
    (hc : Operator.pow.rank ≤ c.rank ∨ 0 < depth) (us : List Token) :
    scanChain depth true (ts ++ us) = scanChain depth false us := by
  induction h generalizing depth us with
  | @single c ts _ ih =>
    have hlink := c.rank_le_rank_link
    exact ih (hc.imp_left fun hrank => by omega) us
  | @chain c o ts vs joins _ _ ihl ihr =>
    subst joins
    -- Outside all parentheses only powers are linked.
    have hpow : 0 < depth ∨ o = .pow := by
      rcases hc with hc | hc
      · rw [Operator.rank_chain] at hc
        refine .inr (Decidable.byContradiction fun ho => ?_)
        have hlow := Operator.rank_lt_of_ne ho
        omega
      · exact .inl hc
    rw [List.append_assoc, ihl hc, List.cons_append, scanChain, if_pos (.inr hpow)]
    have hlink := o.chain.rank_le_rank_link
    exact ihr (hc.imp_left fun hrank => by omega) us
  | number s => rfl
  | name s => rfl
  | @call f ts _ ih =>
    simp only [List.cons_append, List.append_assoc, scanChain]
    rw [ih (.inr (Nat.succ_pos _))]
    rfl
  | @group ts _ ih =>
    simp only [List.cons_append, List.append_assoc, scanChain]
    rw [ih (.inr (Nat.succ_pos _))]
    rfl
  | @sign negative ts _ ih =>
    rw [List.cons_append, Token.sign, scanChain, if_pos (.inl rfl)]
    exact ih (.inl (Nat.le_refl _)) us

/-- **The longest chain.**  Where a chain of powers is complete, no other one reaches further. -/
theorem Derives.length_le_of_ends {ts chain rest : List Token} (h : Derives .power ts)
    (hchain : Derives .power chain) (hstarts : chain <+: ts ++ rest) (hends : Ends rest) :
    chain.length ≤ ts.length := by
  -- Both start the same text, so one is the start of the other.
  rcases Nat.le_total chain.length ts.length with hle | hle
  · exact hle
  · -- The other chain goes on with what follows, but there its scan has ended.
    obtain ⟨more, rfl⟩ := List.prefix_of_prefix_length_le (List.prefix_append ts rest) hstarts hle
    obtain ⟨last, hlast⟩ := hstarts
    rw [List.append_assoc, List.append_cancel_left_eq] at hlast
    have hscan : scanChain 0 true ((ts ++ more) ++ []) = scanChain 0 false [] :=
      hchain.scan (.inl (Nat.le_refl _)) []
    rw [List.append_nil, h.scan (.inl (Nat.le_refl _))] at hscan
    subst hlast
    cases more with
    | nil => simp
    | cons t more =>
      cases t with
      | opening | number | name => exact absurd hends (by simp [Ends])
      | closing => simp [scanChain] at hscan
      | operator o => simp_all [Ends, scanChain]

/-! ### Levels of a phrase -/

namespace Phrase

/-- A phrase closes the parentheses that it opens, and no others. -/
theorem closesOutside_append (p : Phrase) (depth : Nat) (ts : List Token) :
    closesOutside depth (p.tokens ++ ts) = closesOutside depth ts := by
  induction p generalizing depth ts with
  | number s => rfl
  | name s => rfl
  | call f a ih => simp [tokens, closesOutside, ih]
  | group a ih => simp [tokens, closesOutside, ih]
  | sign negative a ih => simp [tokens, Token.sign, closesOutside, ih]
  | binary o a b iha ihb => simp [tokens, closesOutside, iha, ihb]

/-- After a phrase no operand is due. -/
theorem operandDue_append (p : Phrase) (past : List Token) :
    operandDue (past ++ p.tokens) = false := by
  induction p generalizing past with
  | number s => simp [operandDue, tokens]
  | name s => simp [operandDue, tokens]
  | call f a _ => rw [tokens, ← List.append_assoc, operandDue, List.getLast?_concat]
  | group a _ => rw [tokens, ← List.append_assoc, operandDue, List.getLast?_concat]
  | sign negative a ih =>
    have ha := ih (past ++ [.sign negative])
    rwa [List.append_assoc] at ha
  | binary o a b _ ihb =>
    have hb := ihb (past ++ a.tokens ++ [.operator o])
    rwa [List.append_assoc, List.append_assoc] at hb

/-- What may follow a phrase: the end of the chain, if the phrase may itself end in one. -/
def Precedes (p : Phrase) (rest : List Token) : Prop :=
  p.rank ≤ Operator.pow.rank → Ends rest

/-- A closing parenthesis may follow any phrase. -/
theorem precedes_closing (p : Phrase) (rest : List Token) : p.Precedes (.closing :: rest) :=
  fun _ => trivial

/-- An operator may follow its left operand. -/
theorem precedes_operator {o : Operator} {a : Phrase} (h : Expr.leftPlace o ≤ a.rank)
    (rest : List Token) : a.Precedes (.operator o :: rest) := by
  intro hrank ho
  subst ho
  have hplace : Operator.pow.rank + 1 ≤ a.rank := h
  omega

/-- **The operand of a sign is the longest chain of powers after it.** -/
theorem Proper.longest_operand {negative : Bool} {a : Phrase} {chain rest : List Token}
    (hp : (Phrase.sign negative a).Proper) (hfollow : (Phrase.sign negative a).Precedes rest)
    (hchain : Derives .power chain) (hstarts : chain <+: a.tokens ++ rest) :
    chain.length ≤ a.tokens.length := by
  cases hp with
  | sign _ holds ha =>
    have hoperand : Derives .power a.tokens := ha.derives holds
    exact hoperand.length_le_of_ends hchain hstarts (hfollow (Nat.le_refl _))

end Phrase

/-- What parentheses enclose leaves them open as long as they are not closed. -/
theorem closesOutside_of_append {depth : Nat} {xs ys : List Token}
    (h : closesOutside depth (xs ++ ys) = false) : closesOutside depth xs = false := by
  fun_induction closesOutside depth xs <;> simp_all [closesOutside]

theorem operandDue_append_operator (past : List Token) (o : Operator) :
    operandDue (past ++ [.operator o]) = true := by
  simp [operandDue]

theorem operandDue_append_opening (past : List Token) :
    operandDue (past ++ [.opening]) = true := by
  simp [operandDue]

/-- Behind an operator or an opening parenthesis, nothing before it matters. -/
theorem operandDue_append_cons {past : List Token} {t : Token}
    (ht : operandDue (past ++ [t]) = true) (ts : List Token) :
    operandDue (past ++ t :: ts) = operandDue ts := by
  rcases List.eq_nil_or_concat ts with rfl | ⟨ts, u, rfl⟩
  · exact ht
  · rw [List.concat_eq_append, ← List.cons_append, ← List.append_assoc, operandDue, operandDue, List.getLast?_concat,
      List.getLast?_concat]

theorem isOpen_sign {past inside after : List Token} {negative : Bool} :
    IsOpen past (.sign negative) inside after ↔ operandDue past = true ∧
      ∃ chain, Derives .power chain ∧ chain <+: inside ++ after ∧
        inside.length < chain.length := by
  cases negative <;> rfl

/-- An operator between two operands is no sign. -/
theorem not_isOpen_operator {past : List Token} (h : operandDue past = false) (o : Operator)
    (inside after : List Token) : ¬ IsOpen past (.operator o) inside after := by
  cases o <;> simp [IsOpen, h]

section OneToken

variable {past inside after : List Token} {t : Token}

/-- A token that opens no level. -/
theorem openLevels_cons_of_not (h : ¬ IsOpen past t inside after) :
    openLevels past (t :: inside) after = openLevels (past ++ [t]) inside after := by
  rw [openLevels, if_neg h, Nat.zero_add]

/-- A token whose level is open. -/
theorem openLevels_cons_of_isOpen (h : IsOpen past t inside after) :
    openLevels past (t :: inside) after = 1 + openLevels (past ++ [t]) inside after := by
  rw [openLevels, if_pos h]

/-- A token opens at most one level. -/
theorem openLevels_cons_le (past : List Token) (t : Token) (inside after : List Token) :
    openLevels past (t :: inside) after ≤ openLevels (past ++ [t]) inside after + 1 := by
  by_cases ht : IsOpen past t inside after
  · have hopen := openLevels_cons_of_isOpen ht
    omega
  · have hclosed := openLevels_cons_of_not ht
    omega

/-- No more levels are open than tokens have been read. -/
theorem openLevels_le_length (past before after : List Token) :
    openLevels past before after ≤ before.length := by
  induction before generalizing past with
  | nil => exact Nat.le_refl 0
  | cons t inside ih =>
    have hcons := openLevels_cons_le past t inside after
    have hinside := ih (past ++ [t])
    rw [List.length_cons]
    omega

theorem openLevels_number (s : String) :
    openLevels past (.number s :: inside) after = openLevels (past ++ [.number s]) inside after :=
  openLevels_cons_of_not (by simp [IsOpen])

theorem openLevels_name (s : String) :
    openLevels past (.name s :: inside) after = openLevels (past ++ [.name s]) inside after :=
  openLevels_cons_of_not (by simp [IsOpen])

theorem openLevels_closing :
    openLevels past (.closing :: inside) after = openLevels (past ++ [.closing]) inside after :=
  openLevels_cons_of_not (by simp [IsOpen])

end OneToken

variable {p a : Phrase} {past after : List Token}

/-! ### Levels that have ended -/

/-- Once its parenthesis is closed, a group is like what it encloses. -/
theorem openLevels_group_append
    (hbody : ∀ us, openLevels (past ++ [.opening]) (a.tokens ++ .closing :: us) after
      = openLevels (past ++ [.opening] ++ a.tokens) (.closing :: us) after) (us : List Token) :
    openLevels past ((Phrase.group a).tokens ++ us) after
      = openLevels (past ++ (Phrase.group a).tokens) us after := by
  have hclosed : ¬ IsOpen past .opening (a.tokens ++ .closing :: us) after := by
    simp [IsOpen, a.closesOutside_append, closesOutside]
  have htokens : (Phrase.group a).tokens ++ us = .opening :: (a.tokens ++ .closing :: us) := by
    simp [Phrase.tokens]
  rw [htokens, openLevels_cons_of_not hclosed, hbody, openLevels_closing]
  simp [Phrase.tokens]

/-- **Levels that have ended stay closed.**  Once a phrase is complete, none of its levels is open,
    here or later. -/
theorem openLevels_phrase_append (hp : p.Proper) (hdue : operandDue past = true)
    (us : List Token) (hfollow : p.Precedes (us ++ after)) :
    openLevels past (p.tokens ++ us) after = openLevels (past ++ p.tokens) us after := by
  induction hp generalizing past us with
  | number s => exact openLevels_number s
  | name s => exact openLevels_name s
  | @call f a _ ih =>
    -- A call is its name and then a group.
    have hgroup : openLevels (past ++ [.name f]) ((Phrase.group a).tokens ++ us) after
        = openLevels (past ++ [.name f] ++ (Phrase.group a).tokens) us after :=
      openLevels_group_append (fun vs =>
        ih (operandDue_append_opening _) (.closing :: vs) (a.precedes_closing _)) us
    show openLevels past (.name f :: ((Phrase.group a).tokens ++ us)) after = _
    rw [openLevels_name, hgroup, List.append_assoc]
    rfl
  | @group a _ ih =>
    exact openLevels_group_append (fun vs =>
      ih (operandDue_append_opening _) (.closing :: vs) (a.precedes_closing _)) us
  | @sign negative a holds ha ih =>
    have hends : Ends (us ++ after) := hfollow (Nat.le_refl _)
    -- A chain that reaches further would be longer than the operand of the sign.
    have hclosed : ¬ IsOpen past (.sign negative) (a.tokens ++ us) after := by
      rw [isOpen_sign]
      rintro ⟨-, chain, hchain, hstarts, hlong⟩
      rw [List.append_assoc] at hstarts
      have hle := (Phrase.Proper.sign negative holds ha).longest_operand hfollow hchain hstarts
      rw [List.length_append] at hlong
      omega
    have hbody := @ih (past ++ [.sign negative]) (operandDue_append_operator _ _) us
      (fun _ => hends)
    rw [Phrase.tokens, List.cons_append, openLevels_cons_of_not hclosed, hbody]
    simp
  | @binary o a b holdsLeft holdsRight _ _ iha ihb =>
    have hends : Ends (us ++ after) := hfollow o.rank_le_pow
    have hleft := @iha past hdue (.operator o :: (b.tokens ++ us))
      (Phrase.precedes_operator holdsLeft _)
    have hright := @ihb (past ++ a.tokens ++ [.operator o]) (operandDue_append_operator _ _) us
      (fun _ => hends)
    rw [Phrase.tokens, List.append_assoc, List.cons_append, hleft,
      openLevels_cons_of_not (not_isOpen_operator (a.operandDue_append past) o _ _), hright]
    simp

/-! ### The most levels open inside a phrase -/

/-- Inside a group, and behind its closing parenthesis, one more level is open than inside what it
    encloses, at most. -/
theorem openLevels_group_le (ha : a.Proper) {bound : Nat}
    (hbody : ∀ xs ys, a.tokens = xs ++ ys →
      openLevels (past ++ [.opening]) xs (ys ++ .closing :: after) ≤ bound)
    {xs ys : List Token} (hcut : (Phrase.group a).tokens = xs ++ ys) :
    openLevels past xs (ys ++ after) ≤ bound + 1 := by
  have hdue := operandDue_append_opening past
  rcases xs with _ | ⟨t, xs⟩
  · exact Nat.zero_le _
  · obtain ⟨rfl, hrest⟩ := List.cons.inj hcut
    have hopens := openLevels_cons_le past .opening xs (ys ++ after)
    have hinside : openLevels (past ++ [.opening]) xs (ys ++ after) ≤ bound := by
      -- The point is inside the body, or behind the parenthesis that closes it.
      rcases List.append_eq_append_iff.1 hrest with ⟨more, rfl, hmore⟩ | ⟨more, hmore, rfl⟩
      · rcases List.append_eq_singleton_iff.1 hmore.symm with ⟨rfl, rfl⟩ | ⟨rfl, rfl⟩
        · rw [List.append_nil]
          exact hbody a.tokens [] (List.append_nil _).symm
        · rw [List.nil_append,
            openLevels_phrase_append ha hdue [.closing] (a.precedes_closing after),
            openLevels_closing]
          exact Nat.zero_le _
      · rw [List.append_assoc]
        exact hbody xs more hmore
    omega

/-- **Inside a phrase**, no more levels are open than its nesting. -/
theorem openLevels_le_nesting (hp : p.Proper) (hdue : operandDue past = true)
    (hfollow : p.Precedes after) {xs ys : List Token} (hcut : p.tokens = xs ++ ys) :
    openLevels past xs (ys ++ after) ≤ p.nesting := by
  induction hp generalizing past after xs ys with
  | number s =>
    rcases List.append_eq_singleton_iff.1 hcut.symm with ⟨rfl, -⟩ | ⟨rfl, -⟩
    · exact Nat.zero_le _
    · rw [openLevels_number]
      exact Nat.zero_le _
  | name s =>
    rcases List.append_eq_singleton_iff.1 hcut.symm with ⟨rfl, -⟩ | ⟨rfl, -⟩
    · exact Nat.zero_le _
    · rw [openLevels_name]
      exact Nat.zero_le _
  | @call f a ha ih =>
    rcases xs with _ | ⟨t, xs⟩
    · exact Nat.zero_le _
    · obtain ⟨rfl, hgroup⟩ := List.cons.inj hcut
      rw [openLevels_name]
      exact openLevels_group_le ha (fun _ _ =>
        ih (operandDue_append_opening _) (a.precedes_closing after)) hgroup
  | @group a ha ih =>
    exact openLevels_group_le ha (fun _ _ =>
      ih (operandDue_append_opening _) (a.precedes_closing after)) hcut
  | @sign negative a _ _ ih =>
    rcases xs with _ | ⟨t, xs⟩
    · exact Nat.zero_le _
    · obtain ⟨rfl, hbody⟩ := List.cons.inj hcut
      have hopens := openLevels_cons_le past (.sign negative) xs (ys ++ after)
      have hinside : openLevels (past ++ [.sign negative]) xs (ys ++ after) ≤ a.nesting :=
        ih (operandDue_append_operator past _) (fun _ => hfollow (Nat.le_refl _)) hbody
      show _ ≤ a.nesting + 1
      omega
  | @binary o a b holdsLeft _ ha _ iha ihb =>
    have hends : Ends after := hfollow o.rank_le_pow
    have hleft : ∀ rest, a.Precedes (.operator o :: rest) := Phrase.precedes_operator holdsLeft
    show _ ≤ max a.nesting b.nesting
    rcases List.append_eq_append_iff.1 hcut with ⟨more, rfl, hmore⟩ | ⟨more, hmore, rfl⟩
    · -- Behind the left operand, which has no level open any more.
      rw [openLevels_phrase_append ha hdue]
      · rcases more with _ | ⟨t, more⟩
        · exact Nat.zero_le _
        · obtain ⟨rfl, hright⟩ := List.cons.inj hmore
          rw [openLevels_cons_of_not (not_isOpen_operator (a.operandDue_append past) o _ _)]
          have hle := ihb (operandDue_append_operator (past ++ a.tokens) o) (fun _ => hends) hright
          omega
      · rw [← List.append_assoc, ← hmore]
        exact hleft _
    · rw [List.append_assoc]
      have hle : openLevels past xs (more ++ (.operator o :: b.tokens ++ after)) ≤ a.nesting :=
        iha hdue (hleft (b.tokens ++ after)) hmore
      omega

/-- The opening parenthesis of a phrase is open up to any place inside. -/
theorem isOpen_opening_of_cut {xs ys : List Token} (hcut : p.tokens = xs ++ ys)
    (past after : List Token) : IsOpen past .opening xs after := by
  have hclosed : closesOutside 0 (p.tokens ++ []) = false := p.closesOutside_append 0 []
  rw [List.append_nil, hcut] at hclosed
  exact closesOutside_of_append hclosed

/-- A group has one more level open than what it encloses, somewhere before its end. -/
theorem exists_openLevels_group {n : Nat}
    (hbody : ∃ xs ys, a.tokens = xs ++ ys ∧
      openLevels (past ++ [.opening]) xs (ys ++ .closing :: after) = n) :
    ∃ xs ys, (Phrase.group a).tokens = xs ++ ys ∧ ys ≠ [] ∧
      openLevels past xs (ys ++ after) = n + 1 := by
  obtain ⟨xs, ys, hcut, hxs⟩ := hbody
  refine ⟨.opening :: xs, ys ++ [.closing], by simp [Phrase.tokens, hcut], by simp, ?_⟩
  rw [openLevels_cons_of_isOpen (isOpen_opening_of_cut hcut _ _), ← List.append_cons ys, hxs,
    Nat.add_comm]

/-- **The nesting is attained** somewhere before the end of a phrase. -/
theorem exists_openLevels_eq (hp : p.Proper) (hdue : operandDue past = true) :
    ∃ xs ys, p.tokens = xs ++ ys ∧ ys ≠ [] ∧ openLevels past xs (ys ++ after) = p.nesting := by
  induction hp generalizing past after with
  | number s => exact ⟨[], [.number s], rfl, by simp, rfl⟩
  | name s => exact ⟨[], [.name s], rfl, by simp, rfl⟩
  | @call f a _ ih =>
    obtain ⟨xs, ys, hcut, -, hxs⟩ :=
      @ih _ (.closing :: after) (operandDue_append_opening (past ++ [.name f]))
    obtain ⟨xs, ys, hgroup, hys, hxs⟩ := exists_openLevels_group ⟨xs, ys, hcut, hxs⟩
    refine ⟨.name f :: xs, ys, ?_, hys, ?_⟩
    · rw [List.cons_append, ← hgroup]
      rfl
    · rw [openLevels_name, hxs]
      rfl
  | @group a _ ih =>
    obtain ⟨xs, ys, hcut, -, hxs⟩ :=
      @ih _ (.closing :: after) (operandDue_append_opening past)
    exact exists_openLevels_group ⟨xs, ys, hcut, hxs⟩
  | @sign negative a holds ha ih =>
    obtain ⟨xs, ys, hcut, hys, hxs⟩ :=
      @ih _ after (operandDue_append_operator past (if negative then .sub else .add))
    refine ⟨.sign negative :: xs, ys, by simp [Phrase.tokens, hcut], hys, ?_⟩
    -- The operand itself is the chain that reaches past the point.
    have hopen : IsOpen past (.sign negative) xs (ys ++ after) := by
      refine isOpen_sign.2 ⟨hdue, a.tokens, ha.derives holds, ?_, ?_⟩
      · rw [hcut, ← List.append_assoc]
        exact List.prefix_append _ _
      · have hpos := List.length_pos_iff.2 hys
        rw [hcut, List.length_append]
        omega
    rw [openLevels_cons_of_isOpen hopen, Token.sign, hxs, Nat.add_comm]
    rfl
  | @binary o a b holdsLeft _ ha _ iha ihb =>
    show ∃ xs ys, _ ∧ _ ∧ _ = max a.nesting b.nesting
    rcases Nat.le_total b.nesting a.nesting with hle | hle
    · obtain ⟨xs, ys, hcut, hys, hxs⟩ := @iha past (.operator o :: (b.tokens ++ after)) hdue
      refine ⟨xs, ys ++ .operator o :: b.tokens, by simp [Phrase.tokens, hcut], by simp, ?_⟩
      rw [List.append_assoc, List.cons_append, hxs, Nat.max_eq_left hle]
    · obtain ⟨xs, ys, hcut, hys, hxs⟩ :=
        @ihb _ after (operandDue_append_operator (past ++ a.tokens) o)
      refine ⟨a.tokens ++ .operator o :: xs, ys, by simp [Phrase.tokens, hcut], hys, ?_⟩
      rw [openLevels_phrase_append ha hdue _ (Phrase.precedes_operator holdsLeft _),
        openLevels_cons_of_not (not_isOpen_operator (a.operandDue_append past) o _ _), hxs,
        Nat.max_eq_right hle]

/-- **How deep a text goes.**  At no point of a phrase more than `bound` levels are open exactly if
    its nesting is at most `bound`. -/
theorem openLevels_le_iff (hp : p.Proper) (bound : Nat) :
    (∀ read rest, p.tokens = read ++ rest → openLevels [] read rest ≤ bound)
      ↔ p.nesting ≤ bound := by
  constructor
  · intro h
    obtain ⟨xs, ys, hcut, -, hxs⟩ := @exists_openLevels_eq p [] [] hp rfl
    rw [List.append_nil] at hxs
    have hle := h xs ys hcut
    omega
  · intro h read rest hcut
    have hle := @openLevels_le_nesting p [] [] hp rfl (fun _ => trivial) read rest hcut
    rw [List.append_nil] at hle
    omega

end Reckoner
