import Reckoner.Proofs.Levels

namespace Reckoner

/-!
# Phrases with a hole

A `Context` is a phrase in which one operand is left open.  All that is read off a phrase is read
off its context and what fills it, one beside the other: the tokens (`Context.tokens_fill`), the
listing (`Context.program_fill`) and the nesting (`Context.nesting_fill`).  What fills a context may
be exchanged for anything that holds together as tightly (`Context.proper_fill`).

* `Phrase.exists_context` — every number token of a phrase fills a context;
* `Context.openLevels_before` — the levels that are open at the hole are those that the context
  counts on the way to it.
-/

/-- A phrase with a hole. -/
inductive Context where
  | hole
  | call (function : String) (argument : Context)
  | group (inner : Context)
  | sign (negative : Bool) (operand : Context)
  | left (o : Operator) (hole : Context) (right : Phrase)
  | right (o : Operator) (left : Phrase) (hole : Context)
  deriving DecidableEq, Repr

namespace Context

/-- The phrase that results when the hole is filled. -/
def fill (p : Phrase) : Context → Phrase
  | hole => p
  | call f c => .call f (c.fill p)
  | group c => .group (c.fill p)
  | sign b c => .sign b (c.fill p)
  | left o c b => .binary o (c.fill p) b
  | right o a c => .binary o a (c.fill p)

/-- The tokens before the hole. -/
def before : Context → List Token
  | hole => []
  | call f c => .name f :: .opening :: c.before
  | group c => .opening :: c.before
  | sign b c => .sign b :: c.before
  | left _ c _ => c.before
  | right o a c => a.tokens ++ .operator o :: c.before

/-- The tokens after the hole. -/
def after : Context → List Token
  | hole => []
  | call _ c | group c => c.after ++ [.closing]
  | sign _ c => c.after
  | left o c b => c.after ++ .operator o :: b.tokens
  | right _ _ c => c.after

/-- The instructions before those of what fills the hole. -/
def codeBefore : Context → Program
  | hole => []
  | call _ c | group c | sign _ c | left _ c _ => c.codeBefore
  | right _ a c => a.tree.program ++ c.codeBefore

/-- The instructions after those of what fills the hole. -/
def codeAfter : Context → Program
  | hole => []
  | call f c => c.codeAfter ++ [.call f]
  | group c => c.codeAfter
  | sign true c => c.codeAfter ++ [.negate]
  | sign false c => c.codeAfter
  | left o c b => c.codeAfter ++ (b.tree.program ++ [.binary o])
  | right o _ c => c.codeAfter ++ [.binary o]

/-- The levels around the hole: groups, arguments and signs. -/
def levels : Context → Nat
  | hole => 0
  | call _ c | group c | sign _ c => c.levels + 1
  | left _ c _ | right _ _ c => c.levels

/-! ### What is read off a filled context -/

theorem tokens_fill (c : Context) (p : Phrase) :
    (c.fill p).tokens = c.before ++ (p.tokens ++ c.after) := by
  induction c with
  | hole => simp [fill, before, after]
  | call f c ih => simp [fill, before, after, Phrase.tokens, ih]
  | group c ih => simp [fill, before, after, Phrase.tokens, ih]
  | sign b c ih => simp [fill, before, after, Phrase.tokens, ih]
  | left o c b ih => simp [fill, before, after, Phrase.tokens, ih]
  | right o a c ih => simp [fill, before, after, Phrase.tokens, ih]

/-- **The listing of what fills the hole stands in the listing of the whole**, with the same
    instructions around it whatever it is. -/
theorem program_fill (c : Context) (p : Phrase) :
    (c.fill p).tree.program = c.codeBefore ++ (p.tree.program ++ c.codeAfter) := by
  induction c with
  | hole => simp [fill, codeBefore, codeAfter]
  | call f c ih => simp [fill, codeBefore, codeAfter, Phrase.tree, Expr.program, ih]
  | group c ih => simp [fill, codeBefore, codeAfter, Phrase.tree, ih]
  | sign b c ih =>
    cases b <;> simp [fill, codeBefore, codeAfter, Phrase.tree, Expr.program, ih]
  | left o c b ih => simp [fill, codeBefore, codeAfter, Phrase.tree, Expr.program, ih]
  | right o a c ih => simp [fill, codeBefore, codeAfter, Phrase.tree, Expr.program, ih]

/-- **The nesting of the whole** is that around a flat operand, or that of what fills the hole,
    deeper by the levels around it. -/
theorem nesting_fill {q : Phrase} (hq : q.nesting = 0) (c : Context) (p : Phrase) :
    (c.fill p).nesting = max (c.fill q).nesting (c.levels + p.nesting) := by
  induction c with
  | hole => simp [fill, levels, hq]
  | call _ c ih | group c ih | sign _ c ih =>
    simp only [fill, levels, Phrase.nesting, ih]
    omega
  | left _ c _ ih | right _ _ c ih =>
    simp only [fill, levels, Phrase.nesting, ih]
    omega

/-! ### What may fill a context -/

variable {p q : Phrase} {c : Context}

/-- The whole holds together as tightly if what fills the hole does. -/
theorem rank_fill_le (h : q.rank ≤ p.rank) (c : Context) : (c.fill q).rank ≤ (c.fill p).rank := by
  cases c with
  | hole => exact h
  | call | group | sign | left | right => exact Nat.le_refl _

/-- **What fills a context may be exchanged** for what holds together as tightly. -/
theorem proper_fill (h : (c.fill q).Proper) (hp : p.Proper) (hrank : q.rank ≤ p.rank) :
    (c.fill p).Proper := by
  induction c with
  | hole => exact hp
  | call f c ih =>
    cases h with
    | call _ argument => exact .call f (ih argument)
  | group c ih =>
    cases h with
    | group inner => exact .group (ih inner)
  | sign b c ih =>
    cases h with
    | sign _ holds operand =>
      exact .sign b (Nat.le_trans holds (rank_fill_le hrank c)) (ih operand)
  | left o c b ih =>
    cases h with
    | binary _ holdsLeft holdsRight left right =>
      exact .binary o (Nat.le_trans holdsLeft (rank_fill_le hrank c)) holdsRight (ih left) right
  | right o a c ih =>
    cases h with
    | binary _ holdsLeft holdsRight left right =>
      exact .binary o holdsLeft (Nat.le_trans holdsRight (rank_fill_le hrank c)) left (ih right)

/-- What fills a proper context is proper. -/
theorem proper_of_fill (h : (c.fill p).Proper) : p.Proper := by
  induction c with
  | hole => exact h
  | call f c ih =>
    cases h with
    | call _ argument => exact ih argument
  | group c ih =>
    cases h with
    | group inner => exact ih inner
  | sign negative c ih =>
    cases h with
    | sign _ _ operand => exact ih operand
  | left o c b ih =>
    cases h with
    | binary _ _ _ left _ => exact ih left
  | right o a c ih =>
    cases h with
    | binary _ _ _ _ right => exact ih right

end Context

/-! ### Numbers fill contexts -/

/-- An element of two lists in a row is in the one or in the other. -/
theorem append_eq_append_cons {α : Type} {as bs past future : List α} {a : α}
    (h : as ++ bs = past ++ a :: future) :
    (∃ more, as = past ++ a :: more ∧ future = more ++ bs) ∨
      ∃ more, past = as ++ more ∧ bs = more ++ a :: future := by
  rcases List.append_eq_append_iff.1 h with ⟨more, hpast, hbs⟩ | ⟨more, has, hfuture⟩
  · exact .inr ⟨more, hpast, hbs⟩
  · cases more with
    | nil => exact .inr ⟨[], by simpa using has.symm, by simpa using hfuture.symm⟩
    | cons b more =>
      obtain ⟨rfl, rfl⟩ := List.cons.inj hfuture
      exact .inl ⟨more, has, rfl⟩

/-- An element that is not in the first list is in the second one. -/
theorem exists_of_not_mem_left {α : Type} (as : List α) {bs past future : List α} {a : α}
    (h : as ++ bs = past ++ a :: future) (ha : a ∉ as) :
    ∃ inside, past = as ++ inside ∧ bs = inside ++ a :: future := by
  rcases append_eq_append_cons h with ⟨more, rfl, -⟩ | hright
  · exact absurd (by simp) ha
  · exact hright

/-- An element that is not in the second list is in the first one. -/
theorem exists_of_not_mem_right {α : Type} {as bs past future : List α} {a : α}
    (h : as ++ bs = past ++ a :: future) (ha : a ∉ bs) :
    ∃ inside, as = past ++ a :: inside ∧ future = inside ++ bs := by
  rcases append_eq_append_cons h with hleft | ⟨more, -, rfl⟩
  · exact hleft
  · exact absurd (by simp) ha

/-- **Every number token of a phrase fills a context**, which has the tokens around it. -/
theorem Phrase.exists_context {p : Phrase} {past future : List Token} {s : String}
    (h : p.tokens = past ++ .number s :: future) :
    ∃ c : Context, p = c.fill (.number s) ∧ c.before = past ∧ c.after = future := by
  induction p generalizing past future with
  | number text =>
    rcases List.append_eq_singleton_iff.1 h.symm with ⟨rfl, hone⟩ | ⟨-, hnone⟩
    · obtain ⟨hs, rfl⟩ := List.cons.inj hone
      obtain rfl := Token.number.inj hs
      exact ⟨.hole, rfl, rfl, rfl⟩
    · cases hnone
  | name text =>
    rcases List.append_eq_singleton_iff.1 h.symm with ⟨rfl, hone⟩ | ⟨-, hnone⟩
    · cases hone
    · cases hnone
  | call f a ih =>
    obtain ⟨inside, rfl, hbody⟩ := exists_of_not_mem_left [Token.name f, .opening] h (by simp)
    obtain ⟨rest, ha, rfl⟩ := exists_of_not_mem_right hbody (by simp)
    obtain ⟨c, rfl, rfl, rfl⟩ := ih ha
    exact ⟨.call f c, rfl, rfl, rfl⟩
  | group a ih =>
    obtain ⟨inside, rfl, hbody⟩ := exists_of_not_mem_left [Token.opening] h (by simp)
    obtain ⟨rest, ha, rfl⟩ := exists_of_not_mem_right hbody (by simp)
    obtain ⟨c, rfl, rfl, rfl⟩ := ih ha
    exact ⟨.group c, rfl, rfl, rfl⟩
  | sign negative a ih =>
    obtain ⟨inside, rfl, ha⟩ :=
      exists_of_not_mem_left [Token.sign negative] h (by simp [Token.sign])
    obtain ⟨c, rfl, rfl, rfl⟩ := ih ha
    exact ⟨.sign negative c, rfl, rfl, rfl⟩
  | binary o a b iha ihb =>
    rcases append_eq_append_cons h with ⟨more, ha, rfl⟩ | ⟨more, rfl, hright⟩
    · obtain ⟨c, rfl, rfl, rfl⟩ := iha ha
      exact ⟨.left o c b, rfl, rfl, rfl⟩
    · obtain ⟨inside, rfl, hb⟩ := exists_of_not_mem_left [Token.operator o] hright (by simp)
      obtain ⟨c, rfl, rfl, rfl⟩ := ihb hb
      exact ⟨.right o a c, rfl, rfl, rfl⟩

/-! ### The levels around a hole -/

theorem Phrase.tokens_ne_nil (p : Phrase) : p.tokens ≠ [] := by
  cases p <;> simp [tokens]

/-- Behind the parenthesis that opens around a hole, one more level is open. -/
theorem Context.openLevels_enclosed {c : Context} {p : Phrase} {past rest : List Token}
    (hbody : openLevels (past ++ [.opening]) c.before (p.tokens ++ (c.after ++ .closing :: rest))
      = c.levels) :
    openLevels past (.opening :: c.before) (p.tokens ++ (c.after ++ [.closing] ++ rest))
      = c.levels + 1 := by
  rw [openLevels_cons_of_isOpen (isOpen_opening_of_cut (c.tokens_fill p) _ _), Nat.add_comm,
    List.append_assoc c.after, List.singleton_append, hbody]

/-- **The levels open at a hole** are those around it.  The induction carries what was read before
    the phrase and what follows it. -/
theorem Context.openLevels_before {c : Context} {p : Phrase} (h : (c.fill p).Proper)
    {past : List Token} (hdue : operandDue past = true) (rest : List Token) :
    openLevels past c.before (p.tokens ++ (c.after ++ rest)) = c.levels := by
  induction c generalizing past rest with
  | hole => rfl
  | call f c ih =>
    cases h with
    | call _ argument =>
      rw [before, openLevels_name]
      exact openLevels_enclosed (ih argument (operandDue_append_opening _) (.closing :: rest))
  | group c ih =>
    cases h with
    | group inner =>
      exact openLevels_enclosed (ih inner (operandDue_append_opening _) (.closing :: rest))
  | sign negative c ih =>
    cases h with
    | sign _ holds operand =>
      -- The operand of the sign is a chain of powers that reaches past the hole.
      have hopen : IsOpen past (.sign negative) c.before (p.tokens ++ (c.after ++ rest)) := by
        refine isOpen_sign.2 ⟨hdue, (c.fill p).tokens, operand.derives holds, ?_, ?_⟩
        · rw [c.tokens_fill]
          exact ⟨rest, by simp⟩
        · have hpos := List.length_pos_iff.2 p.tokens_ne_nil
          rw [c.tokens_fill, List.length_append, List.length_append]
          omega
      have hinside : openLevels (past ++ [.sign negative]) c.before _ = c.levels :=
        ih operand (operandDue_append_operator past _) rest
      rw [before, after, openLevels_cons_of_isOpen hopen, hinside, Nat.add_comm, levels]
  | left o c b ih =>
    cases h with
    | binary _ _ _ left _ =>
      rw [before, after, List.append_assoc]
      exact ih left hdue _
  | right o a c ih =>
    cases h with
    | binary _ holdsLeft _ left right =>
      have hprecedes := Phrase.precedes_operator holdsLeft
        (c.before ++ (p.tokens ++ (c.after ++ rest)))
      rw [before, after, openLevels_phrase_append left hdue _ hprecedes,
        openLevels_cons_of_not (not_isOpen_operator (a.operandDue_append past) o _ _)]
      exact ih right (operandDue_append_operator _ _) rest

end Reckoner
