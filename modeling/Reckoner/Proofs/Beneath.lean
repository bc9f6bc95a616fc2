import Reckoner.Proofs.Safety

namespace Reckoner

/-!
# What lies beneath

The instructions of a program take their operands off the top of the stack and never look further
down.  So whatever a program does, it does on top of any other stack as well (`run_beneath`).

* `Instruction.runInPlace` — the machine on one stack that it changes as it goes; where an
  instruction fails, the stack is left as it was (`Instruction.runInPlace_eq`);
* `Instruction.run_append_of_ok`, `Instruction.run_append_of_error` — one instruction with other
  values beneath its operands;
* `Program.FailsAt` — where a run fails, and with which stack.

Only a lack of operands is no failure any more if there are values beneath.
-/

/-! ### The machine in place -/

namespace Stack

/-- Take the top value off the stack, if there is one. -/
def takeTop : StateM Stack (Option Float) := fun s =>
  match s with
  | [] => (none, [])
  | v :: s => (some v, s)

/-- Take the two top values off the stack, the lower one as the left operand.  A stack that holds
    too few values is left alone. -/
def takePair : StateM Stack (Option (Float × Float)) := do
  if (← get).length < 2 then return none
  let some right ← takeTop | return none
  let some left ← takeTop | return none
  return some (left, right)

theorem takePair_eq (s : Stack) :
    takePair s = match s.popPair? with
      | some (operands, s') => (some operands, s')
      | none => (none, s) := by
  rcases s with _ | ⟨right, _ | ⟨left, s⟩⟩
  · rfl
  · rfl
  · rfl

end Stack

/-- A machine that changes a stack, and may fail on the way. -/
abbrev InPlace := ExceptT RuntimeError (StateM Stack)

theorem InPlace.run_bind {α β : Type} (x : InPlace α) (next : α → InPlace β) (s : Stack) :
    (x >>= next).run s = match x.run s with
      | (.ok a, s') => (next a).run s'
      | (.error e, s') => (.error e, s') := by
  show (match x.run s with | (r, s') => ExceptT.bindCont next r s') = _
  rcases x.run s with ⟨_ | a, s'⟩ <;> rfl

namespace Instruction

/-- Run one instruction in place. -/
def runInPlace : Instruction → InPlace Unit
  | number text => do
    let some v := Numeral.value? text | throw (.invalidNumber text)
    modify (Stack.push · v)
  | constant name => do
    let some v := Builtin.constant? name | throw (.unknownConstant name)
    modify (Stack.push · v)
  | call name => do
    let some f := Builtin.function? name | throw (.unknownFunction name)
    let some v ← Stack.takeTop | throw .stackUnderflow
    modify (Stack.push · (f v))
  | negate => do
    let some v ← Stack.takeTop | throw .stackUnderflow
    modify (Stack.push · (-v))
  | binary o => do
    let some (left, right) ← Stack.takePair | throw .stackUnderflow
    modify (Stack.push · (o.apply left right))

/-- **Where an instruction fails, the stack is left as it was**, and otherwise the machine in place
    has the stack that the instruction leaves. -/
theorem runInPlace_eq (s : Stack) (i : Instruction) :
    i.runInPlace.run s = match i.run s with
      | .ok s' => (.ok (), s')
      | .error e => (.error e, s) := by
  cases i with
  | number text =>
    rw [run, runInPlace]
    cases Numeral.value? text <;> rfl
  | constant name =>
    rw [run, runInPlace]
    cases Builtin.constant? name <;> rfl
  | call name =>
    rw [run, runInPlace]
    cases Builtin.function? name with
    | none => rfl
    | some f => cases s <;> rfl
  | negate => cases s <;> rfl
  | binary o => rcases s with _ | ⟨right, _ | ⟨left, s⟩⟩ <;> rfl

/-! ### One instruction on top of other values -/

variable {s s' : Stack} {i : Instruction} {e : RuntimeError}

/-- **An instruction that finds its operands** finds the same ones if there are values beneath. -/
theorem run_append_of_ok (h : i.run s = .ok s') (beneath : Stack) :
    i.run (s ++ beneath) = .ok (s' ++ beneath) := by
  cases i with
  | number text =>
    rw [run] at h ⊢
    cases hvalue : Numeral.value? text with
    | none => simp [hvalue] at h
    | some v =>
      rw [hvalue] at h
      obtain rfl := Except.ok.inj h
      rfl
  | constant name =>
    rw [run] at h ⊢
    cases hvalue : Builtin.constant? name with
    | none => simp [hvalue] at h
    | some v =>
      rw [hvalue] at h
      obtain rfl := Except.ok.inj h
      rfl
  | call name =>
    rw [run] at h ⊢
    cases hfunction : Builtin.function? name with
    | none => simp [hfunction] at h
    | some f =>
      rw [hfunction] at h
      cases s with
      | nil => cases h
      | cons v s =>
        obtain rfl := Except.ok.inj h
        rfl
  | negate =>
    cases s with
    | nil => cases h
    | cons v s =>
      obtain rfl := Except.ok.inj h
      rfl
  | binary o =>
    rcases s with _ | ⟨right, _ | ⟨left, s⟩⟩
    · cases h
    · cases h
    · obtain rfl := Except.ok.inj h
      rfl

/-- Without a lack of operands, a failure is the instruction's own. -/
theorem fails_of_run (h : i.run s = .error e) (hne : e ≠ .stackUnderflow) : i.Fails e := by
  cases i with
  | number text =>
    rw [run] at h
    cases hvalue : Numeral.value? text with
    | none =>
      rw [hvalue] at h
      exact ⟨hvalue, (Except.error.inj h).symm⟩
    | some v => simp [hvalue] at h
  | constant name =>
    rw [run] at h
    cases hvalue : Builtin.constant? name with
    | none =>
      rw [hvalue] at h
      exact ⟨hvalue, (Except.error.inj h).symm⟩
    | some v => simp [hvalue] at h
  | call name =>
    rw [run] at h
    cases hfunction : Builtin.function? name with
    | none =>
      rw [hfunction] at h
      exact ⟨hfunction, (Except.error.inj h).symm⟩
    | some f =>
      rw [hfunction] at h
      cases s with
      | nil => exact absurd (Except.error.inj h).symm hne
      | cons v s => cases h
  | negate =>
    cases s with
    | nil => exact absurd (Except.error.inj h).symm hne
    | cons v s => cases h
  | binary o =>
    rcases s with _ | ⟨right, _ | ⟨left, s⟩⟩
    · exact absurd (Except.error.inj h).symm hne
    · exact absurd (Except.error.inj h).symm hne
    · cases h

/-- A failure of its own does not depend on the stack: names are looked up before the argument is
    taken. -/
theorem run_of_fails (h : i.Fails e) (s : Stack) : i.run s = .error e := by
  cases i with
  | number text | constant name | call name =>
    obtain ⟨hnone, rfl⟩ := h
    simp [run, hnone]
  | negate | binary => exact absurd h id

/-- **An instruction that fails for its number or its name** fails for it with any values
    beneath. -/
theorem run_append_of_error (h : i.run s = .error e) (hne : e ≠ .stackUnderflow)
    (beneath : Stack) : i.run (s ++ beneath) = .error e :=
  run_of_fails (fails_of_run h hne) _

/-- A lack of operands is made good by what lies beneath. -/
example : negate.run [] = .error .stackUnderflow ∧ negate.run ([] ++ [1]) = .ok [-1] := ⟨rfl, rfl⟩

end Instruction

/-! ### Programs on top of other values -/

namespace Program

variable {s s' left : Stack} {p before : Program} {i : Instruction} {e : RuntimeError}

/-- Run a program in place. -/
def runInPlace (p : Program) : InPlace Unit := p.forM Instruction.runInPlace

theorem runInPlace_cons (s : Stack) (i : Instruction) (p : Program) :
    (runInPlace (i :: p)).run s = match i.run s with
      | .ok s' => (runInPlace p).run s'
      | .error e => (.error e, s) := by
  show ((i.runInPlace >>= fun _ => runInPlace p) : InPlace Unit).run s = _
  rw [InPlace.run_bind, Instruction.runInPlace_eq]
  cases i.run s <;> rfl

/-- **A run that fails**: the instructions before it leave a stack on which this one fails. -/
structure FailsAt (s : Stack) (before : Program) (i : Instruction) (e : RuntimeError)
    (left : Stack) : Prop where
  reached : (run s before).outcome = .ok left
  fails : i.run left = .error e

/-- A run in place that gets through leaves what the run leaves. -/
theorem runInPlace_of_ok (h : (run s p).outcome = .ok s') :
    (runInPlace p).run s = (.ok (), s') := by
  induction p generalizing s with
  | nil =>
    obtain rfl := Except.ok.inj h
    rfl
  | cons i p ih =>
    rw [run_cons] at h
    rw [runInPlace_cons]
    cases hi : i.run s with
    | error e =>
      rw [hi] at h
      cases h
    | ok s₁ =>
      rw [hi] at h
      exact ih h

namespace FailsAt

variable {after : Program}

theorem outcome (h : FailsAt s before i e left) (after : Program) :
    (run s (before ++ i :: after)).outcome = .error e := by
  rw [run_append, h.reached]
  show (run left (i :: after)).outcome = _
  rw [run_cons, h.fails]
  rfl

/-- **A run in place that fails** leaves the stack as it was before the instruction that fails. -/
theorem runInPlace (h : FailsAt s before i e left) (after : Program) :
    (Program.runInPlace (before ++ i :: after)).run s = (.error e, left) := by
  induction before generalizing s with
  | nil =>
    obtain rfl := Except.ok.inj h.reached
    rw [List.nil_append, runInPlace_cons, h.fails]
  | cons j before ih =>
    have hreached := h.reached
    rw [run_cons] at hreached
    rw [List.cons_append, runInPlace_cons]
    cases hj : j.run s with
    | error e' =>
      rw [hj] at hreached
      cases hreached
    | ok s₁ =>
      rw [hj] at hreached
      exact ih ⟨hreached, h.fails⟩

end FailsAt

/-- **A program that gets through** does so on top of any other values, and leaves them alone. -/
theorem run_append_beneath (h : (run s p).outcome = .ok s') (beneath : Stack) :
    (run (s ++ beneath) p).outcome = .ok (s' ++ beneath) := by
  induction p generalizing s with
  | nil =>
    obtain rfl := Except.ok.inj h
    rfl
  | cons i p ih =>
    rw [run_cons] at h ⊢
    cases hi : i.run s with
    | error e =>
      rw [hi] at h
      cases h
    | ok s₁ =>
      rw [hi] at h
      rw [Instruction.run_append_of_ok hi]
      exact ih h

/-- **A program that fails**, but not for a lack of operands, fails at the same instruction. -/
theorem FailsAt.append (h : FailsAt s before i e left) (hne : e ≠ .stackUnderflow)
    (beneath : Stack) : FailsAt (s ++ beneath) before i e (left ++ beneath) :=
  ⟨run_append_beneath h.reached beneath, Instruction.run_append_of_error h.fails hne beneath⟩

theorem exists_failsAt (h : (run s p).outcome = .error e) :
    ∃ before i after left, p = before ++ i :: after ∧ FailsAt s before i e left := by
  obtain ⟨before, i, after, left, hp, hreached, hfails⟩ := fault_of_run h
  exact ⟨before, i, after, left, hp, hreached, hfails⟩

end Program

/-- **The program of an accepted source** puts its value on top of any stack, or fails with its
    error. -/
theorem run_emitted {source : String} (h : (compile source).rejection? = none)
    (beneath : Stack) :
    (∃ v, eval source = .ok v ∧
        (Program.run beneath (compile source).emitted).outcome = .ok (beneath.push v)) ∨
      ∃ e, eval source = .error (.runtime e) ∧
        (Program.run beneath (compile source).emitted).outcome = .error e := by
  have heval : eval source = (compile source).emitted.execute.outcome.mapError .runtime :=
    eval_of_accepted h
  rw [Program.execute] at heval
  dsimp only at heval
  cases hrun : (Program.run [] (compile source).emitted).outcome with
  | ok s =>
    -- One value is left on the empty stack, so one value is left on top of any other.
    obtain ⟨v, rfl⟩ := List.length_eq_one_iff.1 ((depth?_of_accepted h).2 s hrun)
    rw [hrun] at heval
    exact .inl ⟨v, heval, Program.run_append_beneath hrun beneath⟩
  | error e =>
    rw [hrun] at heval
    obtain ⟨before, i, after, left, hp, hfails⟩ := Program.exists_failsAt hrun
    -- It is a name that fails, not a lack of operands.
    have hne : e ≠ .stackUnderflow := by
      rintro rfl
      cases unresolved_of_run h hrun
    refine .inr ⟨e, heval, ?_⟩
    rw [hp]
    exact (hfails.append hne beneath).outcome after

/-- **Whatever a program does, it does on top of other values**, and leaves them alone.
    * A run that gets through does so with any values beneath its stack.
    * A run that fails, but not for a lack of operands, fails with any values beneath, at the same
      instruction and with the same error.
    * In place, an instruction that fails leaves the stack exactly as it was.
    * Hence the program of an accepted source puts its value, and nothing else, on top of any stack,
      or it fails with the error of the source. -/
theorem run_beneath :
    (∀ (s s' : Stack) (p : Program), (Program.run s p).outcome = .ok s' → ∀ beneath,
      (Program.run (s ++ beneath) p).outcome = .ok (s' ++ beneath) ∧
        p.runInPlace.run (s ++ beneath) = (.ok (), s' ++ beneath)) ∧
    (∀ (s : Stack) (p : Program) (e : RuntimeError), (Program.run s p).outcome = .error e →
      e ≠ .stackUnderflow → ∃ before i after left, p = before ++ i :: after ∧
        Program.FailsAt s before i e left ∧ ∀ beneath,
          Program.FailsAt (s ++ beneath) before i e (left ++ beneath) ∧
            (Program.run (s ++ beneath) p).outcome = .error e ∧
            p.runInPlace.run (s ++ beneath) = (.error e, left ++ beneath)) ∧
    (∀ (s s' : Stack) (i : Instruction),
      (i.runInPlace.run s = (.ok (), s') ↔ i.run s = .ok s') ∧
        ∀ e, i.runInPlace.run s = (.error e, s') ↔ i.run s = .error e ∧ s' = s) ∧
    ∀ source, (compile source).rejection? = none → ∀ beneath : Stack,
      (∃ v, eval source = .ok v ∧
          (Program.run beneath (compile source).emitted).outcome = .ok (beneath.push v)) ∨
        ∃ e, eval source = .error (.runtime e) ∧
          (Program.run beneath (compile source).emitted).outcome = .error e := by
  refine ⟨?_, ?_, ?_, fun source h beneath => run_emitted h beneath⟩
  · intro s s' p h beneath
    have hrun := Program.run_append_beneath h beneath
    exact ⟨hrun, Program.runInPlace_of_ok hrun⟩
  · intro s p e h hne
    obtain ⟨before, i, after, left, rfl, hfails⟩ := Program.exists_failsAt h
    refine ⟨before, i, after, left, rfl, hfails, fun beneath => ?_⟩
    have habove := hfails.append hne beneath
    exact ⟨habove, habove.outcome after, habove.runInPlace after⟩
  · intro s s' i
    rw [Instruction.runInPlace_eq]
    cases i.run s with
    | ok t =>
      refine ⟨⟨fun h => ?_, fun h => ?_⟩, fun e => ⟨fun h => ?_, fun h => ?_⟩⟩
      · rw [(Prod.mk.inj h).2]
      · rw [Except.ok.inj h]
      · cases (Prod.mk.inj h).1
      · cases h.1
    | error e' =>
      refine ⟨⟨fun h => ?_, fun h => ?_⟩, fun e => ⟨fun h => ?_, fun h => ?_⟩⟩
      · cases (Prod.mk.inj h).1
      · cases h
      · exact ⟨congrArg _ (Except.error.inj (Prod.mk.inj h).1), (Prod.mk.inj h).2.symm⟩
      · rw [Except.error.inj h.1, h.2]

/-- The argument of an unknown function waits on top of another value, and stays there when the
    function fails; and a negation leaves that value alone. -/
theorem run_beneath_unknown_function :
    (∃ v, (Program.run ([] ++ [1]) [.constant "e", .negate]).outcome = .ok ([v] ++ [1])) ∧
      (Program.run ([] ++ [1]) [.constant "e", .call "f"]).outcome
        = .error (.unknownFunction "f") ∧
      ((Instruction.call "f").runInPlace.run [2, 1] = (.error (.unknownFunction "f"), [2, 1])) ∧
      (compile "f(e)").rejection? = none ∧ eval "f(e)" = .error (.runtime (.unknownFunction "f")) ∧
      (Program.run [1] (compile "f(e)").emitted).outcome = .error (.unknownFunction "f") := by
  obtain ⟨hok, herror, hplace, hsource⟩ := run_beneath
  have hnegated := (hok [] _ [.constant "e", .negate] rfl [1]).1
  obtain ⟨before, i, after, left, -, -, hfails⟩ :=
    herror [] [.constant "e", .call "f"] (.unknownFunction "f") rfl (by simp)
  have haccepted : (compile "f(e)").rejection? = none := by cbv
  have hemitted : (compile "f(e)").emitted = [.constant "e", .call "f"] := by cbv
  have hfailing : eval "f(e)" = .error (.runtime (.unknownFunction "f")) := by
    rw [eval_of_accepted haccepted, hemitted]
    rfl
  refine ⟨⟨_, hnegated⟩, (hfails [1]).2.1, ((hplace _ _ _).2 _).2 ⟨rfl, rfl⟩, haccepted, hfailing,
    ?_⟩
  rcases hsource _ haccepted [1] with ⟨v, hv, -⟩ | ⟨e, he, hrun⟩
  · rw [hfailing] at hv
    cases hv
  · rw [hfailing] at he
    obtain rfl := EvalError.runtime.inj (Except.error.inj he)
    exact hrun

end Reckoner
