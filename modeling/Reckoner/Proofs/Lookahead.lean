import Reckoner.Proofs.Context
import Reckoner.Proofs.DescentRun

namespace Reckoner

/-!
# Looking ahead

The rules of the grammar look at most tokens several times before they take them.  Nothing is lost
or taken twice that way: on the characters of a source they go through its tokens one by one
(`compile_eq_parse`).

* `Supply.Asks` — the calls that a parser makes: a look that meets no fault, or a look at a token
  and then the call that takes it (`Supply.keeps_asks`);
* `TakenInOrder` — what such calls come to on a cursor.
-/

namespace Supply

variable {σ : Type} {S : Supply σ} {i : σ}

/-! ### The calls of a parser -/

/-- **The calls of a parser from one place to another**: a look that meets no fault, or a look at a
    token and then the call that takes it. -/
inductive Asks (S : Supply σ) : σ → List Call → σ → Prop where
  | nil (i : σ) : Asks S i [] i
  | look {i j : σ} {calls : List Call} (sound : ∀ e, S.peek i ≠ .fault e)
      (later : Asks S i calls j) : Asks S i (.peek :: calls) j
  | take {i j : σ} {t : Token} {calls : List Call} (token : S.peek i = .token t)
      (later : Asks S (S.next i).2 calls j) : Asks S i (.peek :: .next :: calls) j

/-- The calls of a parser that has met an error.  A fault has been met by the last look. -/
def AskedBefore (S : Supply σ) (i : σ) (e : CompileError) (s : Parser σ) : Prop :=
  match e with
  | .lexical e => S.peek s.input = .fault e ∧ ∃ calls, s.calls = calls ++ [.peek] ∧
      S.Asks i calls s.input
  | .missingOperand | .unexpectedToken _ | .unclosed | .trailingToken _ | .tooDeep =>
    S.Asks i s.calls s.input

theorem Asks.append {j k : σ} {calls more : List Call} (h : S.Asks i calls j)
    (h' : S.Asks j more k) : S.Asks i (calls ++ more) k := by
  induction h with
  | nil => exact h'
  | look sound _ ih => exact .look sound (ih h')
  | take token _ ih => exact .take token (ih h')

/-- **Every step of a parser asks like this.** -/
theorem keeps_asks (S : Supply σ) (i : σ) :
    S.Keeps (fun s => S.Asks i s.calls s.input) (S.AskedBefore i) where
  look h hsound := h.append (.look hsound (.nil _))
  take h ht := by
    show S.Asks i (_ ++ [.peek] ++ [.next]) _
    rw [List.append_assoc]
    exact h.append (.take ht (.nil _))
  emit _ h := h
  deeper h _ := h
  shallower h := h
  fault h he := ⟨he, _, rfl, h⟩
  refuse {s e} h he := by
    cases e with
    | lexical e => exact absurd rfl (he e)
    | missingOperand | unexpectedToken | unclosed | trailingToken | tooDeep => exact h
  shallower_error h := h

end Supply

/-- **Tokens are taken where they have been seen**: the reads of a run answer the tokens `taken`, in
    order, and right before each read a look at the same place has given the same answer. -/
structure TakenInOrder (run : List Answered) (taken : List Token) : Prop where
  tokens : (run.filter fun a => a.call = .next).map Answered.reading = taken.map Reading.token
  seen : ∀ past a later, run = past ++ a :: later → a.call = .next → ∃ before look,
    past = before ++ [look] ∧ look.call = .peek ∧ look.start = a.start ∧ look.reading = a.reading

/-- No call of a run meets a fault. -/
def MeetsNoFault (run : List Answered) : Prop := ∀ a ∈ run, ∀ e, a.reading ≠ .fault e

/-- **The last call of a run is a look that meets a fault**, and no call before it does. -/
def MeetsLast (run : List Answered) (e : LexError) : Prop :=
  ∃ before look, run = before ++ [look] ∧ look.call = .peek ∧ look.reading = .fault e ∧
    MeetsNoFault before

namespace TakenInOrder

variable {run : List Answered} {taken : List Token} {look : Answered}

/-- One more look. -/
theorem look_cons (h : TakenInOrder run taken) (hlook : look.call = .peek) :
    TakenInOrder (look :: run) taken where
  tokens := by
    rw [List.filter_cons_of_neg (by simp [hlook])]
    exact h.tokens
  seen past a later hrun ha := by
    cases past with
    | nil =>
      obtain ⟨rfl, -⟩ := List.cons.inj hrun
      rw [hlook] at ha
      cases ha
    | cons x past =>
      obtain ⟨rfl, hrest⟩ := List.cons.inj hrun
      obtain ⟨before, shown, rfl, hshown⟩ := h.seen past a later hrest ha
      exact ⟨look :: before, shown, rfl, hshown⟩

/-- One more token, which has been seen. -/
theorem take_cons (h : TakenInOrder run taken) {taking : Answered} {t : Token}
    (hlook : look.call = .peek) (htaking : taking.call = .next) (hstart : look.start = taking.start)
    (hlooked : look.reading = .token t) (htaken : taking.reading = .token t) :
    TakenInOrder (look :: taking :: run) (t :: taken) where
  tokens := by
    rw [List.filter_cons_of_neg (by simp [hlook]), List.filter_cons_of_pos (by simp [htaking]),
      List.map_cons, List.map_cons, htaken, h.tokens]
  seen past a later hrun ha := by
    rcases past with _ | ⟨x, _ | ⟨y, past⟩⟩
    · obtain ⟨rfl, -⟩ := List.cons.inj hrun
      rw [hlook] at ha
      cases ha
    · obtain ⟨rfl, hrest⟩ := List.cons.inj hrun
      obtain ⟨rfl, -⟩ := List.cons.inj hrest
      exact ⟨[], look, rfl, hlook, hstart, hlooked.trans htaken.symm⟩
    · obtain ⟨rfl, hrest⟩ := List.cons.inj hrun
      obtain ⟨rfl, hmore⟩ := List.cons.inj hrest
      obtain ⟨before, shown, rfl, hshown⟩ := h.seen past a later hmore ha
      exact ⟨look :: taking :: before, shown, rfl, hshown⟩

/-- One more look at the end. -/
theorem concat_look (h : TakenInOrder run taken) (hlook : look.call = .peek) :
    TakenInOrder (run ++ [look]) taken where
  tokens := by
    rw [List.filter_append, List.filter_cons_of_neg (by simp [hlook]), List.filter_nil,
      List.append_nil]
    exact h.tokens
  seen past a later hrun ha := by
    have hne : a ∉ [look] := by
      intro hmem
      obtain rfl := List.mem_singleton.1 hmem
      rw [hlook] at ha
      cases ha
    obtain ⟨inside, hinside, -⟩ := exists_of_not_mem_right hrun hne
    exact h.seen past a inside hinside ha

end TakenInOrder

namespace Supply.Asks

variable {c c' : Cursor} {calls : List Call}

/-- What a parser takes from a cursor, and what it leaves. -/
theorem takenInOrder (h : cursor.Asks c calls c') :
    ∃ taken, TakenInOrder (c.run calls) taken ∧ c.tokens.tokens = taken ++ c'.tokens.tokens ∧
      c.tokens.fault? = c'.tokens.fault? := by
  induction h with
  | nil c =>
    refine ⟨[], ⟨rfl, ?_⟩, rfl, rfl⟩
    intro past a later hrun
    cases past <;> cases hrun
  | look sound later ih =>
    obtain ⟨taken, htaken, hleft, hfault⟩ := ih
    exact ⟨taken, htaken.look_cons rfl, hleft, hfault⟩
  | @take c c' t calls token later ih =>
    obtain ⟨taken, htaken, hleft, hfault⟩ := ih
    have hnext : c.next.1 = .token t := token
    have hlater : c.next.2.tokens.tokens = taken ++ c'.tokens.tokens := hleft
    rw [Cursor.tokens_of_token hnext, hlater]
    exact ⟨t :: taken, htaken.take_cons rfl rfl rfl hnext hnext, rfl, hfault⟩

/-- The run goes on where the calls lead. -/
theorem run_append (h : cursor.Asks c calls c') (more : List Call) :
    c.run (calls ++ more) = c.run calls ++ c'.run more := by
  induction h with
  | nil => rfl
  | look _ _ ih => exact congrArg (_ :: ·) ih
  | take _ _ ih => exact congrArg (_ :: _ :: ·) ih

theorem meetsNoFault (h : cursor.Asks c calls c') : MeetsNoFault (c.run calls) := by
  induction h with
  | nil c => exact List.forall_mem_nil _
  | look sound _ ih => exact List.forall_mem_cons.2 ⟨sound, ih⟩
  | @take c c' t calls token _ ih =>
    have hsound : ∀ e, cursor.peek c ≠ .fault e := by simp [token]
    exact List.forall_mem_cons.2 ⟨hsound, List.forall_mem_cons.2 ⟨hsound, ih⟩⟩

end Supply.Asks

/-- **The calls of a parser on a text**: what they take and what they leave, and whether they meet a
    fault. -/
theorem Supply.run_parse (c : Cursor) :
    ∃ taken left, c.tokens.tokens = taken ++ left ∧
      TakenInOrder (c.run (cursor.parse c).parser.calls) taken ∧
      ((cursor.parse c).compilation.rejection? = none → left = []) ∧
      (∀ e, (cursor.parse c).compilation.rejection? = some (.lexical e) →
        left = [] ∧ c.tokens.fault? = some e ∧
          MeetsLast (c.run (cursor.parse c).parser.calls) e) ∧
      ((∀ e, (cursor.parse c).compilation.rejection? ≠ some (.lexical e)) →
        MeetsNoFault (c.run (cursor.parse c).parser.calls)) := by
  have hasks := (cursor.keeps_asks c).parse (.nil c)
  cases houtcome : cursor.parse c with
  | ok s _ =>
    -- The last look has met the end, so no token is left.
    rw [houtcome] at hasks
    obtain ⟨hcalls, hfinished⟩ := hasks
    obtain ⟨taken, htaken, hleft, -⟩ := hcalls.takenInOrder
    have hend : s.input.next.1 = .finished := hfinished
    refine ⟨taken, _, hleft, htaken, fun _ => ?_, ?_, fun _ => hcalls.meetsNoFault⟩
    · rw [Cursor.tokens_of_finished hend]
    · intro e he
      cases he
  | error e s =>
    rw [houtcome] at hasks
    cases e with
    | lexical e =>
      obtain ⟨hpeek, calls, hcalls, hasked⟩ := hasks
      obtain ⟨taken, htaken, hleft, hfault⟩ := hasked.takenInOrder
      have hend : s.input.next.1 = .fault e := hpeek
      -- The last look has met a fault, which ends the tokens as the end does.
      have hrun : c.run s.calls = c.run calls ++ [⟨.peek, s.input, .fault e, s.input⟩] := by
        rw [hcalls, hasked.run_append, ← hend]
        rfl
      rw [Cursor.tokens_of_fault hend] at hleft hfault
      refine ⟨taken, [], hleft, ?_, fun _ => rfl, ?_, fun hnone => absurd rfl (hnone e)⟩
      · show TakenInOrder (c.run s.calls) taken
        rw [hrun]
        exact htaken.concat_look rfl
      · intro e' he
        obtain rfl : e = e' := CompileError.lexical.inj (Option.some.inj he)
        exact ⟨rfl, hfault, _, _, hrun, rfl, rfl, hasked.meetsNoFault⟩
    | missingOperand | unexpectedToken | unclosed | trailingToken | tooDeep =>
      obtain ⟨taken, htaken, hleft, -⟩ := Asks.takenInOrder hasks
      refine ⟨taken, _, hleft, htaken, ?_, ?_, fun _ => Asks.meetsNoFault hasks⟩
      · intro hnone
        cases hnone
      · intro e he
        cases he

/-- A number is looked at five times before it is taken, by each rule from the whole text down to the
    operand.  Four rules look at what is behind it. -/
example : (Supply.cursor.parse (.ofSource "2")).parser.calls
    = [.peek, .peek, .peek, .peek, .peek, .next, .peek, .peek, .peek, .peek] := by cbv

/-- **Compiling from characters is compiling from tokens.**  The rules of the grammar, run on the
    characters of a source, come to the compilation of the source, and so they do on its tokens,
    read beforehand up to the end or the first fault.
    * On the characters, each token is taken once, in order, and right where it has been seen;
      taking it does not fail.  All of them are taken if the source is accepted.
    * If the source is rejected for a fault, this is the one behind all its tokens, and the last
      call is the look that meets it.  Otherwise no call meets a fault.
    * Hence sources with the same tokens and the same end compile alike. -/
theorem compile_eq_parse (source : String) :
    let parsed := Supply.cursor.parse (Cursor.ofSource source)
    let run := (Cursor.ofSource source).run parsed.parser.calls
    parsed.compilation = compile source ∧
    (Supply.stream.parse ⟨sourceTokens source, sourceFault? source⟩).compilation = compile source ∧
    (∃ taken left, sourceTokens source = taken ++ left ∧ TakenInOrder run taken ∧
      ((compile source).rejection? = none → left = []) ∧
      (∀ e, (compile source).rejection? = some (.lexical e) →
        left = [] ∧ sourceFault? source = some e ∧ MeetsLast run e) ∧
      ((∀ e, (compile source).rejection? ≠ some (.lexical e)) → MeetsNoFault run)) ∧
    ∀ other, sourceTokens other = sourceTokens source → sourceFault? other = sourceFault? source →
      compile other = compile source := by
  intro parsed run
  have htext : parsed.compilation = compile source := by
    rw [compile_eq_compileTokens, Supply.compilation_parse, Supply.readAll_cursor]
    rfl
  refine ⟨htext, ?_, ?_, ?_⟩
  · rw [compile_eq_compileTokens, Supply.compilation_parse, Supply.readAll_stream]
  · rw [← htext]
    exact Supply.run_parse (.ofSource source)
  · intro other htokens hfault
    rw [compile_eq_compileTokens, compile_eq_compileTokens, htokens, hfault]

end Reckoner
