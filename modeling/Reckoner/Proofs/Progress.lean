import Reckoner.Proofs.Activations

namespace Reckoner

/-!
# Progress of the rules

Every rule of the grammar goes forward in the source, returns, and leaves the count of levels as it
was.  What a rule does is told by what one step does: a step keeps the activations in order
(`Supply.sound_step`), and it never goes back, nor does it emit more than tokens have been taken for
(`Supply.advances_step`).  That each call returns is the matter of `Supply.comes_descend`.

* `Stacked.length_lt` — a level has four activations at most;
* `Descent.Sound` — the activations wait for each other, and the parser counts their levels;
* `Descent.Advances` — what has been taken, emitted and is still owed from one state to another;
* `Supply.offset_lt_of_atHead` — each turn of a loop goes forward;
* `rules_progress` — every call that a compilation reaches.
-/

/-- The levels among the activations that wait. -/
def levels (frames : List Frame) : Nat := frames.countP Frame.isLevel

/-- **Activations that wait for a rule**: each waits for the one above it, and the first rule is a
    sum. -/
inductive Stacked : List Frame → Category → Prop where
  | nil : Stacked [] .sum
  | chain {c : Category} {o? : Option Operator} {frames : List Frame}
      (looser : c.rank < Operator.pow.rank) (below : Stacked frames c) :
      Stacked (.chain c o? :: frames) c.link
  | powers {count : Nat} {frames : List Frame} (below : Stacked frames .power) :
      Stacked (.powers count :: frames) .operand
  | level {f : Frame} {frames : List Frame} (isLevel : f.isLevel = true)
      (below : Stacked frames .operand) : Stacked (f :: frames) f.awaited

namespace Stacked

variable {frames : List Frame} {f : Frame} {c : Category}

/-- **A level has four activations** at most. -/
theorem length_lt (h : Stacked frames c) : frames.length < 4 * levels frames + c.rank := by
  induction h with
  | nil => decide
  | @chain c o? frames looser below ih =>
    have hrank : c.link.rank = c.rank + 1 := by
      cases c with
      | sum | product => rfl
      | power | operand => exact absurd looser (by decide)
    have hlevels : levels (.chain c o? :: frames) = levels frames := rfl
    rw [List.length_cons]
    omega
  | @powers count frames below ih =>
    have hlevels : levels (.powers count :: frames) = levels frames := rfl
    rw [List.length_cons, hlevels]
    exact Nat.succ_lt_succ ih
  | @level f frames isLevel below ih =>
    -- An operand is the last of four, and a new level starts behind it.
    have hlevels : levels (f :: frames) = levels frames + 1 := List.countP_cons_of_pos isLevel
    have hrank : 0 < f.awaited.rank := by cases f.awaited <;> decide
    have hoperand : Category.operand.rank = 4 := rfl
    rw [List.length_cons]
    omega

end Stacked

/-- The rule that the innermost activation is one of. -/
def Activity.Of : Activity → Category → Prop
  | enter c', c => c' = c
  | chain c', c => c' = c ∧ c.rank < Operator.pow.rank
  | powers _, c => c = .power
  | returned, _ | failed _, _ => True

/-- **A sound state**: the activations wait for each other, the counter of the parser tells their
    levels, and there are not too many. -/
structure Descent.Sound {σ : Type} (m : Descent σ) : Prop where
  stacked : ∃ c, Stacked m.frames c ∧ m.activity.Of c
  depth : m.parser.depth = levels m.frames
  room : m.parser.depth ≤ maxNesting

namespace Supply

variable {σ : Type} {S : Supply σ} {m m' : Descent σ} {frames : List Frame} {f : Frame}
  {s : Parser σ} {t : Token} {c : Category}

theorem sound_openLevel (hf : f.isLevel = true) (h : Stacked frames .operand)
    (hdepth : s.depth = levels frames) (hroom : s.depth ≤ maxNesting) :
    (openLevel f frames s).Sound := by
  unfold openLevel
  split
  · next hless =>
    refine ⟨⟨_, h.level hf, rfl⟩, ?_, hless⟩
    show s.depth + 1 = (f :: frames).countP Frame.isLevel
    rw [List.countP_cons_of_pos hf, hdepth]
    rfl
  · exact ⟨⟨_, h, trivial⟩, hdepth, hroom⟩

theorem sound_startOperand (h : Stacked frames .operand) (hdepth : s.depth = levels frames)
    (hroom : s.depth ≤ maxNesting) : (S.startOperand frames s t).Sound := by
  have hhere {a : Activity} {p : Parser σ} (ha : a.Of .operand) (hp : p.depth = s.depth) :
      Descent.Sound ⟨a, frames, p⟩ :=
    ⟨⟨_, h, ha⟩, hp.trans hdepth, hp.trans_le hroom⟩
  unfold startOperand
  split
  · exact hhere trivial rfl
  · split
    · exact sound_openLevel rfl h hdepth hroom
    · exact hhere trivial rfl
    · exact hhere trivial rfl
  · exact sound_openLevel rfl h hdepth hroom
  · exact sound_openLevel rfl h hdepth hroom
  · exact sound_openLevel rfl h hdepth hroom
  · exact hhere trivial rfl

theorem sound_enter (h : Stacked frames c) (hdepth : s.depth = levels frames)
    (hroom : s.depth ≤ maxNesting) : (S.enter c frames s).Sound := by
  unfold enter
  split
  · split
    · exact ⟨⟨_, h.chain (by decide), rfl⟩, hdepth, hroom⟩
    · exact ⟨⟨_, h.chain (by decide), rfl⟩, hdepth, hroom⟩
    · exact ⟨⟨_, h.powers, rfl⟩, hdepth, hroom⟩
    · exact sound_startOperand h hdepth hroom
  · exact ⟨⟨_, h, trivial⟩, hdepth, hroom⟩
  · exact ⟨⟨_, h, trivial⟩, hdepth, hroom⟩

theorem sound_loop {accept? : Token → Option Frame} {leave : Program}
    (haccept : ∀ t f, accept? t = some f → f.isLevel = false ∧ Stacked (f :: frames) f.awaited)
    (h : Stacked frames c) (hdepth : s.depth = levels frames)
    (hroom : s.depth ≤ maxNesting) : (S.loop accept? leave frames s).Sound := by
  unfold loop
  split
  · next t ht =>
    split
    · next f hf =>
      obtain ⟨hlevel, hstacked⟩ := haccept t f hf
      refine ⟨⟨_, hstacked, rfl⟩, ?_, hroom⟩
      show s.depth = (f :: frames).countP Frame.isLevel
      rw [List.countP_cons_of_neg (by simp [hlevel])]
      exact hdepth
    · exact ⟨⟨_, h, trivial⟩, hdepth, hroom⟩
  · exact ⟨⟨_, h, trivial⟩, hdepth, hroom⟩
  · exact ⟨⟨_, h, trivial⟩, hdepth, hroom⟩

theorem sound_resume (h : Stacked (f :: frames) c) (hdepth : s.depth = levels (f :: frames))
    (hroom : s.depth ≤ maxNesting) : (S.resume frames s f).Sound := by
  cases h with
  | chain looser below => exact ⟨⟨_, below, rfl, looser⟩, hdepth, hroom⟩
  | powers below => exact ⟨⟨_, below, rfl⟩, hdepth, hroom⟩
  | level isLevel below =>
    have hlevels : levels (f :: frames) = levels frames + 1 := List.countP_cons_of_pos isLevel
    have hclosed {a : Activity} {p : Parser σ} (ha : a.Of .operand) (hp : p.depth = s.depth - 1) :
        Descent.Sound ⟨a, frames, p⟩ := by
      refine ⟨⟨_, below, ha⟩, ?_, ?_⟩ <;> dsimp only <;> omega
    cases f with
    | chain | powers => cases isLevel
    | sign negative => exact hclosed trivial rfl
    | parentheses function? =>
      unfold resume
      dsimp only
      split
      · exact hclosed trivial rfl
      · exact hclosed trivial rfl
      · exact hclosed trivial rfl

theorem sound_abandon {e : CompileError} (h : Stacked (f :: frames) c)
    (hdepth : s.depth = levels (f :: frames)) (hroom : s.depth ≤ maxNesting) :
    Descent.Sound ⟨.failed e, frames, if f.isLevel then s.shallower else s⟩ := by
  cases h with
  | chain looser below => exact ⟨⟨_, below, trivial⟩, hdepth, hroom⟩
  | powers below => exact ⟨⟨_, below, trivial⟩, hdepth, hroom⟩
  | level isLevel below =>
    have hlevels : levels (f :: frames) = levels frames + 1 := List.countP_cons_of_pos isLevel
    rw [if_pos isLevel]
    refine ⟨⟨_, below, trivial⟩, ?_, ?_⟩ <;> dsimp only <;> omega

/-- **A step keeps a state sound.** -/
theorem sound_step (h : m.Sound) (hstep : S.step? m = some m') : m'.Sound := by
  obtain ⟨a, frames, s⟩ := m
  obtain ⟨⟨c, hstacked, hof⟩, hdepth, hroom⟩ := h
  cases a with
  | enter c' =>
    cases hstep
    obtain rfl : c' = c := hof
    exact sound_enter hstacked hdepth hroom
  | chain c' =>
    cases hstep
    obtain ⟨rfl, hlooser⟩ : c' = c ∧ _ := hof
    refine sound_loop (fun t f hf => ?_) hstacked hdepth hroom
    obtain ⟨o, -, rfl⟩ := Option.map_eq_some_iff.1 hf
    exact ⟨rfl, hstacked.chain hlooser⟩
  | powers count =>
    cases hstep
    obtain rfl : c = .power := hof
    refine sound_loop (fun t f hf => ?_) hstacked hdepth hroom
    obtain ⟨_, -, rfl⟩ := Option.map_eq_some_iff.1 hf
    exact ⟨rfl, hstacked.powers⟩
  | returned =>
    cases frames with
    | nil => cases hstep
    | cons f frames =>
      cases hstep
      exact sound_resume hstacked hdepth hroom
  | failed e =>
    cases frames with
    | nil => cases hstep
    | cons f frames =>
      cases hstep
      exact sound_abandon hstacked hdepth hroom

theorem Runs.sound {base : List Frame} (h : S.Runs base m m') (hm : m.Sound) : m'.Sound := by
  induction h with
  | refl => exact hm
  | head step above later ih => exact ih (sound_step hm step)

end Supply

/-! ### What is read and what is emitted -/

/-- **From one parser to a later one**: tokens that have been taken, and instructions that have been
    emitted.  Each token has moved the parser forward. -/
structure Parser.Reads (s s' : Parser Cursor) (taken : List Token) (code : Program) : Prop where
  tokens : s.input.tokens.tokens = taken ++ s'.input.tokens.tokens
  code : s'.code = s.code ++ code
  offset : s.input.offset + taken.length ≤ s'.input.offset

namespace Parser.Reads

open Supply (cursor)

variable {s s' s'' : Parser Cursor} {taken taken' : List Token} {code code' : Program} {t : Token}

theorem refl (s : Parser Cursor) : s.Reads s [] [] := ⟨rfl, by simp, Nat.le_refl _⟩

theorem trans (h : s.Reads s' taken code) (h' : s'.Reads s'' taken' code') :
    s.Reads s'' (taken ++ taken') (code ++ code') := by
  refine ⟨?_, ?_, ?_⟩
  · rw [h.tokens, h'.tokens, List.append_assoc]
  · rw [h'.code, h.code, List.append_assoc]
  · rw [List.length_append, ← Nat.add_assoc]
    exact (Nat.add_le_add_right h.offset _).trans h'.offset

theorem emit (h : s.Reads s' taken code) (more : Program) :
    s.Reads (s'.emit more) taken (code ++ more) := by
  refine ⟨h.tokens, ?_, h.offset⟩
  rw [← List.append_assoc, ← h.code]

theorem look (h : s.Reads s' taken code) : s.Reads s'.looked taken code := ⟨h.1, h.2, h.3⟩

theorem deeper (h : s.Reads s' taken code) : s.Reads s'.deeper taken code := ⟨h.1, h.2, h.3⟩

theorem shallower (h : s.Reads s' taken code) : s.Reads s'.shallower taken code := ⟨h.1, h.2, h.3⟩

/-- Taking a token that has been seen. -/
theorem take (h : s.Reads s' taken code) (ht : cursor.peek s'.input = .token t) :
    s.Reads (s'.looked.taken cursor) (taken ++ [t]) code := by
  have hnext : s'.input.next.1 = .token t := ht
  refine ⟨?_, h.code, ?_⟩
  · rw [h.tokens, Cursor.tokens_of_token hnext, List.append_assoc]
    rfl
  · have hforward := Cursor.offset_lt_next (c := s'.input) (by rw [hnext]; rfl)
    rw [List.length_append, ← Nat.add_assoc]
    exact (Nat.succ_le_succ h.offset).trans hforward

end Parser.Reads

/-- How many instructions are still owed for tokens that have been taken. -/
def Frame.owed : Frame → Nat
  | powers count => count
  | f => f.code.length

/-- How many instructions the activations that wait still owe. -/
def owedBy : List Frame → Nat
  | [] => 0
  | f :: frames => f.owed + owedBy frames

namespace Activity

/-- The operators of a chain of powers are owed until the chain ends. -/
def owed : Activity → Nat
  | powers count => count
  | _ => 0

@[simp] theorem owed_enter (c : Category) : (enter c).owed = 0 := rfl

@[simp] theorem owed_returned : returned.owed = 0 := rfl

@[simp] theorem owed_failed (e : CompileError) : (failed e).owed = 0 := rfl

/-- Whether the activation has an operand behind it. -/
def settled : Activity → Bool
  | enter _ | failed _ => false
  | chain _ | powers _ | returned => true

end Activity

namespace Descent

/-- How many instructions are still owed in a state. -/
def owed {σ : Type} (m : Descent σ) : Nat := m.activity.owed + owedBy m.frames

/-- **From one state to a later one.**  What has been emitted and is still owed was owed before, or
    there is a token for it; and behind an operand something has been emitted. -/
def Advances (m m' : Descent Cursor) : Prop :=
  ∃ taken code, m.parser.Reads m'.parser taken code ∧
    code.length + m'.owed ≤ m.owed + taken.length ∧
    (m'.activity.settled = true → m.activity.settled = true ∨ code ≠ [])

namespace Advances

variable {m m' m'' : Descent Cursor}

theorem refl (m : Descent Cursor) : m.Advances m :=
  ⟨[], [], .refl _, by simp, .inl⟩

theorem trans (h : m.Advances m') (h' : m'.Advances m'') : m.Advances m'' := by
  obtain ⟨taken, code, hreads, howed, hsettled⟩ := h
  obtain ⟨taken', code', hreads', howed', hsettled'⟩ := h'
  refine ⟨_, _, hreads.trans hreads', ?_, fun h'' => ?_⟩
  · rw [List.length_append, List.length_append]
    omega
  · rcases hsettled' h'' with hmiddle | hcode'
    · rcases hsettled hmiddle with hfirst | hcode
      · exact .inl hfirst
      · exact .inr (by simp [hcode])
    · exact .inr (by simp [hcode'])

theorem offset_le (h : m.Advances m') : m.parser.input.offset ≤ m'.parser.input.offset := by
  obtain ⟨taken, code, hreads, -, -⟩ := h
  exact (Nat.le_add_right _ _).trans hreads.offset

end Advances

end Descent

namespace Supply

variable {m m' : Descent Cursor} {frames : List Frame} {f : Frame} {c : Category}
  {s s' : Parser Cursor} {t : Token} {taken : List Token} {code : Program} {a : Activity}

/-- A rule that is called or fails has nothing behind it. -/
theorem advances_unsettled (h : s.Reads s' taken []) {a' : Activity} {frames' : List Frame}
    (ha : a'.settled = false)
    (howed : (⟨a', frames', s'⟩ : Descent Cursor).owed
      ≤ (⟨a, frames, s⟩ : Descent Cursor).owed + taken.length) :
    Descent.Advances ⟨a, frames, s⟩ ⟨a', frames', s'⟩ := by
  refine ⟨taken, [], h, ?_, fun hsettled => ?_⟩
  · rw [List.length_nil, Nat.zero_add]
    exact howed
  · rw [ha] at hsettled
    cases hsettled

theorem advances_openLevel (h : s.Reads s' taken []) (hf : f.owed ≤ taken.length) :
    Descent.Advances ⟨.enter c, frames, s⟩ (openLevel f frames s') := by
  unfold openLevel
  split
  · refine advances_unsettled h.deeper rfl ?_
    simp only [Descent.owed, Activity.owed_enter, owedBy]
    omega
  · exact advances_unsettled h rfl (Nat.le_add_right _ _)

theorem advances_emitted {x : Instruction} (h : s.Reads s' taken []) (ht : 0 < taken.length) :
    Descent.Advances ⟨.enter c, frames, s⟩ ⟨.returned, frames, s'.emit [x]⟩ := by
  refine ⟨taken, _, h.emit [x], ?_, fun _ => .inr (by simp)⟩
  simp only [Descent.owed, Activity.owed_enter, Activity.owed_returned, List.nil_append,
    List.length_singleton]
  omega

theorem advances_startOperand (h : s.Reads s' [t] []) :
    Descent.Advances ⟨.enter c, frames, s⟩ (cursor.startOperand frames s' t) := by
  unfold startOperand
  split
  · exact advances_emitted h Nat.one_pos
  · split
    · next hopening => exact advances_openLevel (h.take hopening) (Nat.le_succ 1)
    · exact advances_unsettled h.look rfl (Nat.le_add_right _ _)
    · exact advances_emitted h.look Nat.one_pos
  · exact advances_openLevel h (by decide)
  · exact advances_openLevel h (by decide)
  · exact advances_openLevel h (by decide)
  · exact advances_unsettled h rfl (Nat.le_add_right _ _)

theorem advances_enter : Descent.Advances ⟨.enter c, frames, s⟩ (cursor.enter c frames s) := by
  have hread := Parser.Reads.refl s
  have hcall {f : Frame} (hf : f.owed = 0) :
      Descent.Advances ⟨.enter c, frames, s⟩ ⟨.enter f.awaited, f :: frames, s.looked⟩ :=
    advances_unsettled hread.look rfl (by simp [Descent.owed, owedBy, hf])
  unfold enter
  split
  · next t ht =>
    split
    · exact hcall (f := .chain .sum none) rfl
    · exact hcall (f := .chain .product none) rfl
    · exact hcall (f := .powers 0) rfl
    · exact advances_startOperand (hread.take ht)
  · exact advances_unsettled hread.look rfl (Nat.le_refl _)
  · exact advances_unsettled hread.look rfl (Nat.le_refl _)

/-- A loop takes an operator for each frame, and emits at its end what it has owed. -/
theorem advances_loop {accept? : Token → Option Frame} {leave : Program}
    (haccept : ∀ t f, accept? t = some f → f.owed ≤ a.owed + 1) (ha : a.settled = true)
    (hleave : leave.length ≤ a.owed) :
    Descent.Advances ⟨a, frames, s⟩ (cursor.loop accept? leave frames s) := by
  have hread := Parser.Reads.refl s
  have hleft : Descent.Advances ⟨a, frames, s⟩ ⟨.returned, frames, s.looked.emit leave⟩ := by
    refine ⟨[], leave, hread.look.emit leave, ?_, fun _ => .inl ha⟩
    simp only [Descent.owed, Activity.owed_returned, List.length_nil]
    omega
  unfold loop
  split
  · next t ht =>
    split
    · next f hf =>
      have hframe := haccept t f hf
      refine advances_unsettled (hread.take ht) rfl ?_
      simp only [Descent.owed, Activity.owed_enter, owedBy, List.nil_append,
        List.length_singleton]
      omega
    · exact hleft
  · exact hleft
  · refine advances_unsettled hread.look rfl ?_
    simp only [Descent.owed, Activity.owed_failed, List.length_nil]
    omega

theorem advances_resume :
    Descent.Advances ⟨.returned, f :: frames, s⟩ (cursor.resume frames s f) := by
  have hread := Parser.Reads.refl s
  -- What the frame has owed is emitted, or it is owed by the activation that goes on.
  have hpaid {a : Activity} {p : Parser Cursor} {taken : List Token} {code : Program}
      (hp : s.Reads p taken code) (hf : code.length + a.owed = f.owed) :
      Descent.Advances ⟨.returned, f :: frames, s⟩ ⟨a, frames, p⟩ := by
    refine ⟨taken, _, hp, ?_, fun _ => .inl rfl⟩
    simp only [Descent.owed, Activity.owed_returned, owedBy]
    omega
  have hfailed {e : CompileError} {p : Parser Cursor} (hp : s.Reads p [] []) :
      Descent.Advances ⟨.returned, f :: frames, s⟩ ⟨.failed e, frames, p⟩ := by
    refine advances_unsettled hp rfl ?_
    simp only [Descent.owed, Activity.owed_returned, Activity.owed_failed, owedBy]
    omega
  cases f with
  | chain c o? => exact hpaid (hread.emit _) rfl
  | powers count => exact hpaid hread (Nat.zero_add count)
  | sign negative => exact hpaid (hread.shallower.emit _) rfl
  | parentheses function? =>
    unfold resume
    dsimp only
    split
    · next hclosing => exact hpaid ((hread.take hclosing).shallower.emit _) rfl
    · exact hfailed hread.look.shallower
    · exact hfailed hread.look.shallower

theorem advances_abandon {e : CompileError} :
    Descent.Advances ⟨.failed e, f :: frames, s⟩
      ⟨.failed e, frames, if f.isLevel then s.shallower else s⟩ := by
  have hread := Parser.Reads.refl s
  have hclosed : s.Reads (if f.isLevel then s.shallower else s) [] [] := by
    split
    · exact hread.shallower
    · exact hread
  refine advances_unsettled hclosed rfl ?_
  simp only [Descent.owed, Activity.owed_failed, owedBy]
  omega

/-- **A step goes forward.** -/
theorem advances_step (hstep : cursor.step? m = some m') : m.Advances m' := by
  obtain ⟨a, frames, s⟩ := m
  cases a with
  | enter c =>
    cases hstep
    exact advances_enter
  | chain c =>
    cases hstep
    refine advances_loop (fun t f hf => ?_) rfl (Nat.zero_le _)
    obtain ⟨o, -, rfl⟩ := Option.map_eq_some_iff.1 hf
    exact Nat.le_refl 1
  | powers count =>
    cases hstep
    refine advances_loop (fun t f hf => ?_) rfl ?_
    · obtain ⟨_, -, rfl⟩ := Option.map_eq_some_iff.1 hf
      exact Nat.le_refl (count + 1)
    · rw [List.length_replicate]
      exact Nat.le_refl count
  | returned =>
    cases frames with
    | nil => cases hstep
    | cons f frames =>
      cases hstep
      exact advances_resume
  | failed e =>
    cases frames with
    | nil => cases hstep
    | cons f frames =>
      cases hstep
      exact advances_abandon

/-- **A run goes forward.** -/
theorem Runs.advances {base : List Frame} (h : cursor.Runs base m m') : m.Advances m' := by
  induction h with
  | refl m => exact .refl m
  | head step above later ih => exact (advances_step step).trans ih

end Supply

/-! ### Loops -/

/-- An activation on top of some frames is at the head of its loop. -/
inductive Descent.AtHead {σ : Type} (frames : List Frame) : Descent σ → Prop where
  | chain (c : Category) (s : Parser σ) : AtHead frames ⟨.chain c, frames, s⟩
  | powers (count : Nat) (s : Parser σ) : AtHead frames ⟨.powers count, frames, s⟩

namespace Supply

variable {σ : Type} {S : Supply σ} {m m' m'' : Descent σ} {frames : List Frame} {f : Frame}
  {s : Parser σ} {a : Activity}

/-- **A rule that has returned is done**: the next step uncovers what it stood on. -/
theorem Runs.eq_of_returned (h : S.Runs frames ⟨a, frames, s⟩ m)
    (ha : a = .returned ∨ ∃ e, a = .failed e) : m = ⟨a, frames, s⟩ := by
  cases h with
  | refl => rfl
  | head hstep above later =>
    exfalso
    rcases ha with rfl | ⟨e, rfl⟩
    · cases frames with
      | nil => cases hstep
      | cons f frames =>
        cases hstep
        rw [frames_resume] at above
        exact absurd above.length_le (by simp)
    · cases frames with
      | nil => cases hstep
      | cons f frames =>
        cases hstep
        exact absurd above.length_le (by simp)

/-- At its head a loop takes a token and calls a rule, or the rule of the loop returns. -/
theorem loop_cases (accept? : Token → Option Frame) (leave : Program) (frames : List Frame)
    (s : Parser σ) :
    (∃ t f, S.peek s.input = .token t ∧
      S.loop accept? leave frames s = ⟨.enter f.awaited, f :: frames, s.looked.taken S⟩) ∨
    ∃ a s', S.loop accept? leave frames s = ⟨a, frames, s'⟩ ∧
      (a = .returned ∨ ∃ e, a = .failed e) := by
  unfold loop
  split
  · next t ht =>
    split
    · next f hf => exact .inl ⟨t, f, ht, rfl⟩
    · exact .inr ⟨_, _, rfl, .inl rfl⟩
  · exact .inr ⟨_, _, rfl, .inl rfl⟩
  · exact .inr ⟨_, _, rfl, .inr ⟨_, rfl⟩⟩

/-- **Each turn of a loop goes forward.** -/
theorem offset_lt_of_atHead {m m' m'' : Descent Cursor} (h : m.AtHead frames)
    (hstep : cursor.step? m = some m') (hruns : cursor.Runs frames m' m'')
    (h'' : m''.AtHead frames) : m.parser.input.offset < m''.parser.input.offset := by
  obtain ⟨a, s, accept?, leave, rfl, hloop⟩ : ∃ a s accept? leave, m = ⟨a, frames, s⟩ ∧
      m' = cursor.loop accept? leave frames s := by
    cases h with
    | chain c s =>
      cases hstep
      exact ⟨_, s, _, _, rfl, rfl⟩
    | powers count s =>
      cases hstep
      exact ⟨_, s, _, _, rfl, rfl⟩
  -- If the rule returns here, its frames are uncovered before another loop is at its head.
  rcases loop_cases accept? leave frames s with ⟨t, f, ht, hcall⟩ | ⟨a', s', hreturn, ha'⟩
  · have hlater := hruns.advances.offset_le
    have htaken := ((Parser.Reads.refl s).take ht).offset
    rw [hloop, hcall] at hlater
    exact htaken.trans hlater
  · rw [hloop, hreturn] at hruns
    rw [hruns.eq_of_returned ha'] at h''
    rcases ha' with rfl | ⟨e, rfl⟩ <;> cases h''

end Supply

/-! ### The calls of a compilation -/

/-- **The states of a compilation.**  The first rule is called when a look has shown a token. -/
def Reached (source : String) (m : Descent Cursor) : Prop :=
  (∃ t, Supply.cursor.peek (.ofSource source) = .token t) ∧
    Supply.cursor.Runs [] ⟨.enter .sum, [], (Parser.start (.ofSource source)).looked⟩ m

theorem Reached.sound {source : String} {m : Descent Cursor} (h : Reached source m) : m.Sound :=
  h.2.sound ⟨⟨_, .nil, rfl⟩, rfl, Nat.zero_le _⟩

theorem Reached.runs {source : String} {m m' : Descent Cursor} {frames : List Frame}
    (h : Reached source m) (hruns : Supply.cursor.Runs frames m m') : Reached source m' :=
  ⟨h.1, h.2.trans (hruns.mono List.nil_suffix)⟩

/-- **Every rule goes forward, returns and restores the nesting.**  The procedure comes to what the
    source compiles to.  At every state that it reaches, at most `maxNesting` levels are open, and
    the activations of rules are no more than four for each level and four around them, whatever the
    length of the source.  Every call that it reaches
    * returns, on top of the activations that wait for it, with what `Supply.descend` comes to;
    * leaves the counter of levels as it was, with and without an error;
    * leaves the instructions as they were and adds to their end, at most one for each token that
      it takes, and at least one if there is no error;
    * stands further in the source then, and each turn of its loop has taken it further. -/
theorem rules_progress (source : String) :
    (Supply.cursor.parse (.ofSource source)).compilation = compile source ∧
    (∀ m, Reached source m →
      m.parser.depth ≤ maxNesting ∧ m.frames.length + 1 ≤ 4 * (maxNesting + 1)) ∧
    ∀ c frames s, Reached source ⟨.enter c, frames, s⟩ →
      ∃ (ended : Activity) (s' : Parser Cursor) (taken : List Token) (code : Program),
        (ended = .returned ∨ ∃ e, ended = .failed e) ∧
        Supply.cursor.Runs frames ⟨.enter c, frames, s⟩ ⟨ended, frames, s'⟩ ∧
        (Supply.cursor.descend c s).Sat (fun p => ended = .returned ∧ s' = p)
          (fun e p => ended = .failed e ∧ s' = p) ∧
        s'.depth = s.depth ∧
        (∀ m, Supply.cursor.Runs frames ⟨.enter c, frames, s⟩ m → m.parser.depth ≤ maxNesting) ∧
        s.input.tokens.tokens = taken ++ s'.input.tokens.tokens ∧
        s'.code = s.code ++ code ∧ code.length ≤ taken.length ∧
        (ended = .returned → code ≠ [] ∧ s.input.offset < s'.input.offset) ∧
        ∀ m₁ m₂ m₃, Supply.cursor.Runs frames ⟨.enter c, frames, s⟩ m₁ → m₁.AtHead frames →
          Supply.cursor.step? m₁ = some m₂ → Supply.cursor.Runs frames m₂ m₃ →
          m₃.AtHead frames → m₁.parser.input.offset < m₃.parser.input.offset := by
  refine ⟨?_, fun m hm => ?_, fun c frames s hs => ?_⟩
  · rw [compile_eq_compileTokens, Supply.compilation_parse, Supply.readAll_cursor]
    rfl
  · obtain ⟨⟨c, hstacked, -⟩, hdepth, hroom⟩ := hm.sound
    have hlength := hstacked.length_lt
    have hrank : c.rank ≤ 4 := by cases c <;> decide
    exact ⟨hroom, by omega⟩
  · obtain ⟨ended, s', hended, hruns, hdescend⟩ : ∃ ended s',
        (ended = .returned ∨ ∃ e, ended = .failed e) ∧
        Supply.cursor.Runs frames ⟨.enter c, frames, s⟩ ⟨ended, frames, s'⟩ ∧
        (Supply.cursor.descend c s).Sat (fun p => ended = .returned ∧ s' = p)
          (fun e p => ended = .failed e ∧ s' = p) := by
      have hcomes := Supply.comes_descend (S := Supply.cursor) c frames s
      generalize Supply.cursor.descend c s = o at hcomes ⊢
      cases o with
      | ok s' fewer => exact ⟨.returned, s', .inl rfl, hcomes, rfl, rfl⟩
      | error e s' => exact ⟨.failed e, s', .inr ⟨e, rfl⟩, hcomes, rfl, rfl⟩
    obtain ⟨taken, code, hreads, howed, hsettled⟩ := hruns.advances
    have hcode : code.length ≤ taken.length := by
      rcases hended with rfl | ⟨e, rfl⟩ <;>
        simp only [Descent.owed, Activity.owed_enter, Activity.owed_returned,
          Activity.owed_failed] at howed <;>
        omega
    refine ⟨ended, s', taken, code, hended, hruns, hdescend, ?_,
      fun m hm => (hs.runs hm).sound.room, hreads.tokens, hreads.code,
      hcode, fun hreturned => ?_, fun m₁ m₂ m₃ _ h₁ hstep h₂₃ h₃ => ?_⟩
    · -- Both before the call and after it, the counter tells the levels of the same frames.
      have hafter := hruns.sound hs.sound
      exact hafter.depth.trans hs.sound.depth.symm
    · subst hreturned
      obtain hnone | hne := hsettled rfl
      · cases hnone
      refine ⟨hne, ?_⟩
      have hpositive := List.length_pos_iff.2 hne
      have hoffset := hreads.offset
      dsimp only at hoffset
      omega
    · exact Supply.offset_lt_of_atHead h₁ hstep h₂₃ h₃

/-- In `-(1)` a sum is called in two levels, below six activations that wait for it. -/
theorem rules_progress_nested :
    ∃ frames s, Reached "-(1)" ⟨.enter .sum, frames, s⟩ ∧ frames.length = 6 ∧ s.depth = 2 ∧
      ∃ ended s', Supply.cursor.Runs frames ⟨.enter .sum, frames, s⟩ ⟨ended, frames, s'⟩ ∧
        s'.depth = 2 := by
  let frames : List Frame := [.parentheses none, .powers 0, .sign true, .powers 0,
    .chain .product none, .chain .sum none]
  let calls : List Call := [.peek, .peek, .peek, .peek, .peek, .next, .peek, .peek, .next]
  let s : Parser Cursor := ⟨⟨2, ['1', ')']⟩, calls, [], 2⟩
  have hreached : Reached "-(1)" ⟨.enter .sum, frames, s⟩ := by
    refine ⟨⟨.operator .sub, by decide⟩, ?_⟩
    -- The sum, the product and the power, the sign, and again a power and the parenthesis.
    refine .head rfl List.nil_suffix (.head rfl List.nil_suffix (.head rfl List.nil_suffix ?_))
    refine .head rfl List.nil_suffix (.head rfl List.nil_suffix (.head rfl List.nil_suffix ?_))
    exact .refl _
  obtain ⟨ended, s', -, -, -, hruns, -, hdepth, -⟩ := (rules_progress "-(1)").2.2 _ _ _ hreached
  exact ⟨frames, s, hreached, rfl, rfl, ended, s', hruns, hdepth⟩
end Reckoner
