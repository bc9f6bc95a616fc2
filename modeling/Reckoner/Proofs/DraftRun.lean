import Reckoner.Compilation

namespace Reckoner

/-!
# Runs of a draft

`Draft.readAll` reads a list of tokens and stops at the first that is refused.  A compilation is
such a run and the end of the text after it (`Draft.compileTokens_append`), and it does not matter
whether the tokens are read from the characters one by one or all beforehand
(`compile_eq_compileTokens`).
-/

/-- The tokens of a source up to its end or its first fault. -/
def sourceTokens (source : String) : List Token := (Cursor.ofSource source).tokens.tokens

/-- The fault that ends the tokens of a source, if there is one. -/
def sourceFault? (source : String) : Option LexError := (Cursor.ofSource source).tokens.fault?

namespace Draft

/-- Go on after a step, unless it was refused. -/
def Step.andThen : Step → (Draft → Step) → Step
  | (code, .ok d), next => (code ++ (next d).1, (next d).2)
  | (code, .error e), _ => (code, .error e)

/-- Read a list of tokens up to the first that is refused. -/
def readAll (d : Draft) : List Token → Step
  | [] => ([], .ok d)
  | t :: ts => Step.andThen (d.read t) fun d' => readAll d' ts

@[simp] theorem Step.andThen_ok (code : Program) (d : Draft) (next : Draft → Step) :
    Step.andThen (code, .ok d) next = (code ++ (next d).1, (next d).2) := rfl

@[simp] theorem Step.andThen_error (code : Program) (e : CompileError) (next : Draft → Step) :
    Step.andThen (code, .error e) next = (code, .error e) := rfl

/-- After a step that was not refused, the next one decides. -/
theorem Step.snd_andThen {s : Step} {d : Draft} (h : s.2 = .ok d) (next : Draft → Step) :
    (Step.andThen s next).2 = (next d).2 := by
  obtain ⟨code, e | d'⟩ := s
  · cases h
  · obtain rfl := Except.ok.inj h
    rfl

/-- Steps in a row are not refused only if neither is. -/
theorem Step.ok_of_andThen {s : Step} {next : Draft → Step} {d' : Draft}
    (h : (Step.andThen s next).2 = .ok d') : ∃ d, s.2 = .ok d ∧ (next d).2 = .ok d' := by
  obtain ⟨code, e | d⟩ := s
  · cases h
  · exact ⟨d, rfl, h⟩

theorem Step.andThen_assoc (s : Step) (f g : Draft → Step) :
    Step.andThen (Step.andThen s f) g = Step.andThen s fun d => Step.andThen (f d) g := by
  obtain ⟨code, e | d⟩ := s
  · rfl
  · -- The second step may be refused too.
    simp only [Step.andThen_ok]
    rcases hf : f d with ⟨code', e | d'⟩
    · rfl
    · simp

@[simp] theorem readAll_nil (d : Draft) : d.readAll [] = ([], .ok d) := rfl

theorem readAll_cons (d : Draft) (t : Token) (ts : List Token) :
    d.readAll (t :: ts) = Step.andThen (d.read t) fun d' => d'.readAll ts := rfl

@[simp] theorem readAll_singleton (d : Draft) (t : Token) : d.readAll [t] = d.read t := by
  rw [readAll_cons]
  rcases d.read t with ⟨code, e | d'⟩
  · rfl
  · simp

/-- Reading two lists in a row is reading the one and then the other. -/
theorem readAll_append (d : Draft) (ts us : List Token) :
    d.readAll (ts ++ us) = Step.andThen (d.readAll ts) fun d' => d'.readAll us := by
  induction ts generalizing d with
  | nil => simp
  | cons t ts ih =>
    rw [List.cons_append, readAll_cons, readAll_cons, Step.andThen_assoc]
    congr 1
    funext d'
    exact ih d'

/-- One token more after a run. -/
theorem readAll_concat {d d' : Draft} {ts : List Token} (h : (d.readAll ts).2 = .ok d')
    (t : Token) : (d.readAll (ts ++ [t])).2 = (d'.read t).2 := by
  rw [readAll_append, Step.snd_andThen h, readAll_singleton]

/-- What starts a run that was not refused has not been refused either. -/
theorem exists_readAll_of_append {d d' : Draft} {ts us : List Token}
    (h : (d.readAll (ts ++ us)).2 = .ok d') : ∃ d₁, (d.readAll ts).2 = .ok d₁ := by
  rw [readAll_append] at h
  obtain ⟨d₁, hd₁, -⟩ := Step.ok_of_andThen h
  exact ⟨d₁, hd₁⟩

/-- **A run is refused at one of its tokens**, and all tokens before it are taken. -/
theorem readAll_refused {d : Draft} {ts : List Token} {e : CompileError}
    (hrefused : (d.readAll ts).2 = .error e) :
    ∃ read t rest d', ts = read ++ t :: rest ∧ (d.readAll read).2 = .ok d' ∧
      (d'.read t).2 = .error e := by
  induction ts generalizing d with
  | nil => cases hrefused
  | cons t ts ih =>
    rw [readAll_cons] at hrefused
    rcases ht : d.read t with ⟨code, e' | d₁⟩
    · rw [ht] at hrefused
      exact ⟨[], t, ts, d, rfl, rfl, by rw [ht]; exact hrefused⟩
    · rw [ht] at hrefused
      obtain ⟨read, u, rest, d', rfl, hread, hu⟩ := ih hrefused
      refine ⟨t :: read, u, rest, d', rfl, ?_, hu⟩
      rw [readAll_cons, ht]
      exact hread

/-- What a step that was not refused comes to, once the text after it is compiled. -/
def Step.compiled (s : Step) (rest : Draft → Compilation) : Compilation :=
  match s with
  | (code, .ok d) => (rest d).after code
  | (code, .error e) => ⟨code, some e⟩

/-- The end of the text after a run. -/
theorem Step.rejection_compiled {s : Step} {d : Draft} (h : s.2 = .ok d)
    (rest : Draft → Compilation) :
    (s.compiled rest).rejection? = (rest d).rejection? := by
  obtain ⟨code, e | d'⟩ := s
  · cases h
  · obtain rfl := Except.ok.inj h
    rfl

/-- What is accepted has not been refused before. -/
theorem Step.exists_of_compiled {s : Step} {rest : Draft → Compilation}
    (h : (s.compiled rest).rejection? = none) :
    ∃ d, s.2 = .ok d ∧ (rest d).rejection? = none := by
  obtain ⟨code, e | d⟩ := s
  · cases h
  · exact ⟨d, rfl, h⟩

/-- **Compiling goes through a run.**  The tokens read first only leave their instructions and a
    draft behind. -/
theorem compileTokens_append (fault? : Option LexError) (d : Draft) (ts us : List Token) :
    d.compileTokens fault? (ts ++ us)
      = Step.compiled (d.readAll ts) fun d' => d'.compileTokens fault? us := by
  induction ts generalizing d with
  | nil => simp [Step.compiled, Compilation.after]
  | cons t ts ih =>
    rw [List.cons_append, compileTokens, readAll_cons]
    rcases d.read t with ⟨code, e | d'⟩
    · rfl
    · simp only [Step.andThen_ok, ih d']
      rcases d'.readAll ts with ⟨code', e | d''⟩
      · rfl
      · simp [Step.compiled, Compilation.after]

/-- **Reading as it goes is reading beforehand.**  From any place in a source, the tokens met one
    by one are those of `Cursor.tokens`. -/
theorem compile_eq_compileTokens (d : Draft) (c : Cursor) :
    d.compile c = d.compileTokens c.tokens.fault? c.tokens.tokens := by
  fun_induction Draft.compile d c with
  | case1 d c r t h _ code d' hread ih =>
    -- A token that is taken; the rest of the text is shorter.
    rw [Cursor.tokens_of_token h]
    simp only [compileTokens, hread, ih, r]
  | case2 d c r t h _ code e hread =>
    -- A token that is refused; the tokens after it are never read.
    rw [Cursor.tokens_of_token h]
    simp only [compileTokens, hread]
  | case3 d c r h =>
    rw [Cursor.tokens_of_finished h, compileTokens]
  | case4 d c r e h =>
    rw [Cursor.tokens_of_fault h, compileTokens]

end Draft

/-- A compilation is a run over the tokens of the source and their end. -/
theorem compile_eq_compileTokens (source : String) :
    compile source = Draft.empty.compileTokens (sourceFault? source) (sourceTokens source) :=
  Draft.compile_eq_compileTokens Draft.empty (Cursor.ofSource source)

/-- The run over the tokens of a source, with what their end comes to. -/
theorem compile_eq_compiled (source : String) :
    compile source = Draft.Step.compiled (Draft.empty.readAll (sourceTokens source))
      fun d => d.compileTokens (sourceFault? source) [] := by
  rw [compile_eq_compileTokens, ← Draft.compileTokens_append, List.append_nil]

end Reckoner
