import Reckoner.Proofs.NumberTokens
import Reckoner.Proofs.StackDepth

namespace Reckoner

/-!
# What a program can fail for

Every instruction that is ever emitted finds its operands on the stack, also where the source is
rejected later.  The program of an accepted source leaves one value and reads its numbers, so all
that can fail is a name (`emitted_safe`).

* `Written ts i` — where the tokens write the instruction: numbers and names are tokens, and a
  function is a name with a parenthesis that opens after it;
* `unresolved_of_run` — a run that fails does so at a name that the source uses in this way and
  that stands for nothing (`RuntimeError.Unresolved`).
-/

/-- The tokens use a name as a constant: no parenthesis opens after it. -/
def UsesConstant (ts : List Token) (name : String) : Prop :=
  ∃ before after, ts = before ++ .name name :: after ∧ after.head? ≠ some .opening

/-- The tokens use a name as a function: a parenthesis opens after it. -/
def UsesFunction (ts : List Token) (name : String) : Prop :=
  ∃ before after, ts = before ++ .name name :: .opening :: after

/-- **A name without a meaning.**  The errors that come from a name in the tokens, used as the error
    says. -/
inductive RuntimeError.Unresolved (ts : List Token) : RuntimeError → Prop where
  | constant {name : String} (uses : UsesConstant ts name)
      (unknown : Builtin.constant? name = none) : Unresolved ts (.unknownConstant name)
  | function {name : String} (uses : UsesFunction ts name)
      (unknown : Builtin.function? name = none) : Unresolved ts (.unknownFunction name)

/-! ### Instructions are written -/

/-- The tokens write the number or the name of an instruction. -/
def Written (ts : List Token) : Instruction → Prop
  | .number text => .number text ∈ ts
  | .constant name => UsesConstant ts name
  | .call name => UsesFunction ts name
  | .negate | .binary _ => True

/-- What is written stays so after other tokens. -/
theorem Written.prepend {ts : List Token} {i : Instruction} (h : Written ts i) (us : List Token) :
    Written (us ++ ts) i := by
  cases i with
  | number text => exact List.mem_append_right us h
  | constant name =>
    obtain ⟨before, after, rfl, hafter⟩ := h
    exact ⟨us ++ before, after, (List.append_assoc _ _ _).symm, hafter⟩
  | call name =>
    obtain ⟨before, after, rfl⟩ := h
    exact ⟨us ++ before, after, (List.append_assoc _ _ _).symm⟩
  | negate | binary => trivial

/-- **The instructions of a phrase are written by its tokens.**  The tokens after the phrase matter,
    for a name at its end is a constant as long as no parenthesis opens there. -/
theorem Phrase.written (p : Phrase) (rest : List Token) (hrest : rest.head? ≠ some .opening) :
    ∀ i ∈ p.tree.program, Written (p.tokens ++ rest) i := by
  induction p generalizing rest with
  | number text =>
    intro i hi
    obtain rfl : i = .number text := by simpa [tree, Expr.program] using hi
    exact List.mem_cons_self
  | name text =>
    -- This is where the tokens after the phrase matter.
    intro i hi
    obtain rfl : i = .constant text := by simpa [tree, Expr.program] using hi
    exact ⟨[], rest, rfl, hrest⟩
  | call f a ih =>
    intro i hi
    have htokens : (call f a).tokens ++ rest
        = [.name f, .opening] ++ (a.tokens ++ .closing :: rest) := by
      simp [tokens]
    rw [htokens]
    rcases List.mem_append.1 hi with hi | hi
    · exact (ih _ (by simp) i hi).prepend _
    · obtain rfl : i = .call f := by simpa using hi
      exact ⟨[], a.tokens ++ .closing :: rest, rfl⟩
  | group a ih =>
    intro i hi
    have htokens : (group a).tokens ++ rest = [.opening] ++ (a.tokens ++ .closing :: rest) := by
      simp [tokens]
    rw [htokens]
    exact (ih _ (by simp) i hi).prepend _
  | sign negative a ih =>
    intro i hi
    rw [tokens, ← List.singleton_append, List.append_assoc]
    cases negative with
    | false => exact (ih rest hrest i hi).prepend _
    | true =>
      rcases List.mem_append.1 hi with hi | hi
      · exact (ih rest hrest i hi).prepend _
      · obtain rfl : i = .negate := by simpa using hi
        trivial
  | binary o a b iha ihb =>
    intro i hi
    rcases List.mem_append.1 hi with hi | hi
    · rcases List.mem_append.1 hi with hi | hi
      · have hleft := iha (.operator o :: (b.tokens ++ rest)) (by simp) i hi
        simpa [tokens] using hleft
      · have hright := (ihb rest hrest i hi).prepend (a.tokens ++ [.operator o])
        simpa [tokens] using hright
    · obtain rfl : i = .binary o := by simpa using hi
      trivial

variable {source : String}

/-- The instructions of an accepted source are written by its tokens. -/
theorem written_of_accepted (h : (compile source).rejection? = none) :
    ∀ i ∈ (compile source).emitted, Written (sourceTokens source) i := by
  obtain ⟨-, p, hp, htokens, -⟩ := exists_phrase_of_accepted h
  have hwritten := p.written [] (by simp)
  rwa [List.append_nil, htokens, ← emitted_eq_program h ⟨p, hp, htokens, rfl⟩] at hwritten

/-- The numbers of an accepted source are numerals. -/
theorem numeral_of_mem_emitted (h : (compile source).rejection? = none) {text : String}
    (hmem : .number text ∈ (compile source).emitted) : (Numeral.value? text).isSome = true :=
  numeral_of_mem_sourceTokens (written_of_accepted h _ hmem)

/-! ### Failing runs -/

/-- Each instruction that is emitted finds its operands on the stack that the ones before it
    leave. -/
theorem pops_le_of_emitted {before after : Program} {i : Instruction}
    (h : (compile source).emitted = before ++ i :: after) :
    ∃ n, before.depth? 0 = some n ∧ i.pops ≤ n ∧
      ∀ s, (Program.run [] before).outcome = .ok s → s.length = n := by
  obtain ⟨m, hm, -⟩ := compile_depth source
  rw [h] at hm
  obtain ⟨n, hn, hpops⟩ := Program.exists_depth_of_append_cons hm
  refine ⟨n, hn, hpops, fun s hs => ?_⟩
  have hcount : before.depth? 0 = some s.length := Program.depth?_of_run hs
  rw [hn] at hcount
  exact (Option.some.inj hcount).symm

/-- **A run of an accepted source that fails** does so for a name. -/
theorem unresolved_of_run (h : (compile source).rejection? = none) {e : RuntimeError}
    (hrun : (Program.run [] (compile source).emitted).outcome = .error e) :
    e.Unresolved (sourceTokens source) := by
  obtain ⟨before, i, after, s, hcut, hbefore, hi⟩ := Program.fault_of_run hrun
  obtain ⟨n, -, hpops, hlen⟩ := pops_le_of_emitted hcut
  have hmem : i ∈ (compile source).emitted := by simp [hcut]
  have hwritten := written_of_accepted h i hmem
  rcases i.run_cases s with ⟨s', hok, -⟩ | ⟨e', hfails, hcause⟩
  · rw [hok] at hi
    cases hi
  · rw [hfails] at hi
    obtain rfl := Except.error.inj hi
    have hcause := hcause (hlen s hbefore ▸ hpops)
    cases i with
    | number text =>
      -- The token of the number is a literal, so its numeral has a value.
      have hsome := numeral_of_mem_emitted h hmem
      rw [hcause.1] at hsome
      cases hsome
    | constant name =>
      obtain ⟨hnone, rfl⟩ := hcause
      exact .constant hwritten hnone
    | call name =>
      obtain ⟨hnone, rfl⟩ := hcause
      exact .function hwritten hnone
    | negate | binary => exact absurd hcause id

/-- The program of an accepted source leaves one value, as counted and as run. -/
theorem depth?_of_accepted (h : (compile source).rejection? = none) :
    (compile source).emitted.depth? 0 = some 1 ∧
      ∀ s, (Program.run [] (compile source).emitted).outcome = .ok s → s.length = 1 := by
  obtain ⟨m, hm, hone⟩ := compile_depth source
  rw [hone h] at hm
  refine ⟨hm, fun s hs => ?_⟩
  have hcount : (compile source).emitted.depth? 0 = some s.length := Program.depth?_of_run hs
  rw [hm] at hcount
  exact (Option.some.inj hcount).symm

/-- An execution of an accepted source that fails does so for a name, since one value is left. -/
theorem unresolved_of_execute (h : (compile source).rejection? = none) {e : RuntimeError}
    (hexec : (compile source).emitted.execute.outcome = .error e) :
    e.Unresolved (sourceTokens source) := by
  have hbind : (Program.run [] (compile source).emitted).outcome.bind Program.single = .error e :=
    hexec
  rcases hrun : (Program.run [] (compile source).emitted).outcome with e' | s
  · rw [hrun] at hbind
    obtain rfl := Except.error.inj hbind
    exact unresolved_of_run h hrun
  · -- The run got through, so one value is left, and that is the result.
    obtain ⟨v, rfl⟩ := List.length_eq_one_iff.1 ((depth?_of_accepted h).2 s hrun)
    rw [hrun] at hbind
    cases hbind

/-- A source that fails when it runs has been accepted. -/
theorem unresolved_of_eval {e : RuntimeError} (h : eval source = .error (.runtime e)) :
    e.Unresolved (sourceTokens source) := by
  cases hrejection : (compile source).rejection? with
  | some r =>
    rw [eval, Compilation.program?, hrejection] at h
    cases h
  | none =>
    rw [eval_of_accepted hrejection, Program.value] at h
    rcases hexec : (compile source).emitted.execute.outcome with e' | v
    · rw [hexec] at h
      obtain rfl := EvalError.runtime.inj (Except.error.inj h)
      exact unresolved_of_execute hrejection hexec
    · rw [hexec] at h
      cases h

/-- **Safety.**  Whether a source is accepted or rejected, each instruction that it emits finds its
    operands: so many values are on the stack after the ones before it.  If it is accepted, exactly
    one value is left, its numbers are numerals, and its execution fails for a name only.  Hence a
    source fails, once it runs, for a name that it uses as a constant or as a function. -/
theorem emitted_safe (source : String) :
    (∀ before i after, (compile source).emitted = before ++ i :: after →
      ∃ n, before.depth? 0 = some n ∧ i.pops ≤ n ∧
        ∀ s, (Program.run [] before).outcome = .ok s → s.length = n) ∧
    ((compile source).rejection? = none →
      (compile source).emitted.depth? 0 = some 1 ∧
      (∀ s, (Program.run [] (compile source).emitted).outcome = .ok s → s.length = 1) ∧
      (∀ text, .number text ∈ (compile source).emitted → (Numeral.value? text).isSome = true) ∧
      ∀ e, (compile source).emitted.execute.outcome = .error e →
        e.Unresolved (sourceTokens source)) ∧
    ∀ e, eval source = .error (.runtime e) → e.Unresolved (sourceTokens source) := by
  refine ⟨fun _ _ _ => pops_le_of_emitted, fun h => ?_, fun _ => unresolved_of_eval⟩
  obtain ⟨hdepth, hlen⟩ := depth?_of_accepted h
  exact ⟨hdepth, hlen, fun _ => numeral_of_mem_emitted h, fun _ => unresolved_of_execute h⟩

/-- In `-f(e)` the call finds its operand and one value would be left, but `f` is no function. -/
theorem emitted_safe_unknown_function :
    (compile "-f(e)").emitted = [.constant "e"] ++ .call "f" :: [.negate] ∧
      (∃ n, Program.depth? 0 [.constant "e"] = some n ∧ 1 ≤ n) ∧
      (compile "-f(e)").rejection? = none ∧ (compile "-f(e)").emitted.depth? 0 = some 1 ∧
      eval "-f(e)" = .error (.runtime (.unknownFunction "f")) ∧
      (RuntimeError.unknownFunction "f").Unresolved (sourceTokens "-f(e)") := by
  have hemitted : (compile "-f(e)").emitted = [.constant "e"] ++ .call "f" :: [.negate] := by cbv
  have haccepted : (compile "-f(e)").rejection? = none := by cbv
  have hfails : eval "-f(e)" = .error (.runtime (.unknownFunction "f")) := by
    rw [eval_of_accepted haccepted, hemitted]
    rfl
  obtain ⟨hfinds, hwhole, hnames⟩ := emitted_safe "-f(e)"
  obtain ⟨n, hn, hpops, -⟩ := hfinds _ _ _ hemitted
  exact ⟨hemitted, ⟨n, hn, hpops⟩, haccepted, (hwhole haccepted).1, hfails, hnames _ hfails⟩

end Reckoner
