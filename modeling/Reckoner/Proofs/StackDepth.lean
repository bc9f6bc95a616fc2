import Reckoner.Proofs.Evaluation

namespace Reckoner

/-!
# The depth of the stack

How many values are on the stack, counted on the instructions alone.  An instruction takes
`Instruction.pops` values and leaves one, and `Program.depth?` follows a program until some
instruction finds too few.

* `Instruction.run_fault` — what one instruction fails with can be told from the depth
  (`Instruction.fault?`), and if it runs, so can the depth after it;
* `Program.depth?_of_run` — a run that gets through leaves as many values as counted;
* `Program.fault_of_run` — a run that does not get through fails at one of its instructions, which
  if it finds its operands fails for its number or its name (`Instruction.Fails`);
* `compile_depth` — whatever the source, the count gets through what is emitted; if the source is
  accepted, one value is left.

A draft knows the depth without counting: besides the operand that has just been read, one value
waits for each operator that waits (`Draft.depth`).  This is what one token preserves
(`Draft.keeps_read`).
-/

/-- How many values an instruction takes off the stack. -/
def Instruction.pops : Instruction → Nat
  | number _ | constant _ => 0
  | call _ | negate => 1
  | binary _ => 2

/-- The depth of the stack after a program, none if an instruction finds too few values. -/
def Program.depth? (n : Nat) : Program → Option Nat
  | [] => some n
  | i :: p => if i.pops ≤ n then depth? (n - i.pops + 1) p else none

/-- What an instruction fails with if so many values are counted, none if it runs.  An unknown
    function is a fault even where its argument is missing. -/
def Instruction.fault? (depth : Int) : Instruction → Option RuntimeError
  | number text => if (Numeral.value? text).isNone then some (.invalidNumber text) else none
  | constant name => if (Builtin.constant? name).isNone then some (.unknownConstant name) else none
  | call name =>
    if (Builtin.function? name).isNone then some (.unknownFunction name)
    else if depth < 1 then some .stackUnderflow
    else none
  | negate => if depth < 1 then some .stackUnderflow else none
  | binary _ => if depth < 2 then some .stackUnderflow else none

/-- What an instruction can fail for, if it finds its operands: its number or its name. -/
def Instruction.Fails : Instruction → RuntimeError → Prop
  | number text, e => Numeral.value? text = none ∧ e = .invalidNumber text
  | constant name, e => Builtin.constant? name = none ∧ e = .unknownConstant name
  | call name, e => Builtin.function? name = none ∧ e = .unknownFunction name
  | negate, _ | binary _, _ => False

/-! ### Depth and runs -/

namespace Instruction

variable {i : Instruction} {n : Nat} {e : RuntimeError}

/-- Without a fault, the operands are there. -/
theorem pops_le_of_fault?_eq_none (h : i.fault? n = none) : i.pops ≤ n := by
  cases i with
  | number text | constant name => exact Nat.zero_le n
  | call name | negate | binary o =>
    rw [fault?] at h
    split_ifs at h
    rw [pops]
    omega

/-- If the operands are there, the fault is the instruction's own. -/
theorem fails_of_fault? (h : i.fault? n = some e) (hpops : i.pops ≤ n) : i.Fails e := by
  cases i with
  | number text | constant name =>
    rw [fault?] at h
    split_ifs at h with hnone
    exact ⟨Option.isNone_iff_eq_none.1 hnone, (Option.some.inj h).symm⟩
  | call name =>
    rw [fault?] at h
    split_ifs at h with hnone hshort
    · exact ⟨Option.isNone_iff_eq_none.1 hnone, (Option.some.inj h).symm⟩
    · rw [pops] at hpops
      omega
  | negate | binary o =>
    rw [fault?] at h
    split_ifs at h with hshort
    rw [pops] at hpops
    omega

/-- **One instruction** fails as counted, or it takes its operands and leaves one value. -/
theorem run_fault (s : Stack) (i : Instruction) :
    (∃ e, i.fault? s.length = some e ∧ i.run s = .error e) ∨
      (i.fault? s.length = none ∧
        ∃ s', i.run s = .ok s' ∧ (s'.length : Int) = s.length + (1 - i.pops)) := by
  cases i with
  | number text =>
    rw [fault?, run]
    cases Numeral.value? text with
    | none => exact .inl ⟨_, rfl, rfl⟩
    | some v => exact .inr ⟨rfl, s.push v, rfl, rfl⟩
  | constant name =>
    rw [fault?, run]
    cases Builtin.constant? name with
    | none => exact .inl ⟨_, rfl, rfl⟩
    | some v => exact .inr ⟨rfl, s.push v, rfl, rfl⟩
  | call name =>
    rw [fault?, run]
    cases Builtin.function? name with
    | none => exact .inl ⟨_, rfl, rfl⟩
    | some f =>
      cases s with
      | nil => exact .inl ⟨_, rfl, rfl⟩
      | cons v s =>
        have hdepth : ¬((v :: s).length : Int) < 1 := by simp
        refine .inr ⟨?_, Stack.push s (f v), rfl, by simp [Stack.push, pops]⟩
        rw [if_neg hdepth]
        rfl
  | negate =>
    cases s with
    | nil => exact .inl ⟨_, rfl, rfl⟩
    | cons v s =>
      have hdepth : ¬((v :: s).length : Int) < 1 := by simp
      refine .inr ⟨?_, Stack.push s (-v), rfl, by simp [Stack.push, pops]⟩
      rw [fault?, if_neg hdepth]
  | binary o =>
    rcases s with _ | ⟨w, _ | ⟨v, s⟩⟩
    · exact .inl ⟨_, rfl, rfl⟩
    · exact .inl ⟨_, rfl, rfl⟩
    · have hdepth : ¬((w :: v :: s).length : Int) < 2 := by
        rw [List.length_cons, List.length_cons]
        omega
      refine .inr ⟨?_, Stack.push s (o.apply v w), rfl, ?_⟩
      · rw [fault?, if_neg hdepth]
      · rw [Stack.push, List.length_cons, List.length_cons, List.length_cons, pops]
        omega

theorem run_of_fault? {s : Stack} (h : i.fault? s.length = some e) : i.run s = .error e := by
  rcases i.run_fault s with ⟨e', he', hrun⟩ | ⟨hnone, -⟩
  · obtain rfl : e = e' := Option.some.inj (h.symm.trans he')
    exact hrun
  · rw [h] at hnone
    cases hnone

theorem exists_run_of_fault?_eq_none {s : Stack} (h : i.fault? s.length = none) :
    ∃ s', i.run s = .ok s' ∧ (s'.length : Int) = s.length + (1 - i.pops) := by
  rcases i.run_fault s with ⟨e, he, -⟩ | ⟨-, hrun⟩
  · rw [h] at he
    cases he
  · exact hrun

/-- **One instruction.**  It takes its operands and leaves one value, or it fails, and then it has
    not found its operands or fails for its number or its name. -/
theorem run_cases (s : Stack) (i : Instruction) :
    (∃ s', i.run s = .ok s' ∧ i.pops ≤ s.length ∧ s'.length = s.length - i.pops + 1) ∨
      ∃ e, i.run s = .error e ∧ (i.pops ≤ s.length → i.Fails e) := by
  rcases i.run_fault s with ⟨e, hfault, hrun⟩ | ⟨hnone, s', hrun, hlen⟩
  · exact .inr ⟨e, hrun, fails_of_fault? hfault⟩
  · have hpops := pops_le_of_fault?_eq_none hnone
    exact .inl ⟨s', hrun, hpops, by omega⟩

end Instruction

namespace Program

theorem depth?_append (n : Nat) (p q : Program) :
    depth? n (p ++ q) = (depth? n p).bind fun m => depth? m q := by
  induction p generalizing n with
  | nil => rfl
  | cons i p ih =>
    rw [List.cons_append, depth?, depth?]
    by_cases hi : i.pops ≤ n
    · rw [if_pos hi, if_pos hi]
      exact ih _
    · rw [if_neg hi, if_neg hi]
      rfl

/-- If the count gets through a program, it gets to each instruction, which finds its operands. -/
theorem exists_depth_of_append_cons {n m : Nat} {before after : Program} {i : Instruction}
    (h : depth? n (before ++ i :: after) = some m) :
    ∃ k, depth? n before = some k ∧ i.pops ≤ k := by
  rw [depth?_append] at h
  obtain ⟨k, hk, hrest⟩ := Option.bind_eq_some_iff.1 h
  refine ⟨k, hk, ?_⟩
  rw [depth?] at hrest
  split at hrest
  · assumption
  · cases hrest

/-- **A run leaves as many values as counted.** -/
theorem depth?_of_run {s s' : Stack} {p : Program} (h : (run s p).outcome = .ok s') :
    depth? s.length p = some s'.length := by
  induction p generalizing s with
  | nil =>
    obtain rfl := Except.ok.inj h
    rfl
  | cons i p ih =>
    rw [run_cons] at h
    rcases i.run_cases s with ⟨s₁, hi, hpops, hlen⟩ | ⟨e, hi, -⟩
    · rw [hi] at h
      rw [depth?, if_pos hpops, ← hlen]
      exact ih h
    · rw [hi] at h
      cases h

/-- **A run that fails** fails at an instruction, with the stack that the ones before it leave. -/
theorem fault_of_run {s : Stack} {p : Program} {e : RuntimeError}
    (h : (run s p).outcome = .error e) :
    ∃ before i after s', p = before ++ i :: after ∧ (run s before).outcome = .ok s' ∧
      i.run s' = .error e := by
  induction p generalizing s with
  | nil => cases h
  | cons i p ih =>
    rw [run_cons] at h
    rcases hi : i.run s with e' | s₁
    · rw [hi] at h
      obtain rfl := Except.error.inj h
      exact ⟨[], i, p, s, rfl, rfl, hi⟩
    · rw [hi] at h
      obtain ⟨before, j, after, s', rfl, hbefore, hj⟩ := ih h
      refine ⟨i :: before, j, after, s', rfl, ?_, hj⟩
      rw [run_cons, hi]
      exact hbefore

end Program

/-! ### Depth while a source is read -/

/-- Whether a value waits on the stack for its partner. -/
def Pending.keepsOperand : Pending → Bool
  | operator _ => true
  | sign _ | group | argument _ => false

namespace Draft

/-- The values that wait on the stack, one for each operator that waits. -/
def waiting (pending : List Pending) : Nat := pending.countP Pending.keepsOperand

/-- The depth of the stack after the instructions that have led to a draft. -/
def depth (d : Draft) : Nat :=
  match d.expecting with
  | .operand | .argument _ => waiting d.pending
  | .continuation => waiting d.pending + 1

theorem waiting_operator (o : Operator) (pending : List Pending) :
    waiting (.operator o :: pending) = waiting pending + 1 :=
  List.countP_cons_of_pos rfl

theorem waiting_level {level : Pending} (h : level.isLevel = true) (pending : List Pending) :
    waiting (level :: pending) = waiting pending := by
  cases level with
  | operator o => cases h
  | sign | group | argument => simp [waiting, Pending.keepsOperand]

/-- What is released takes the value on top and the one that has waited for it, if one has. -/
theorem depth?_code (x : Pending) (pending : List Pending) :
    Program.depth? (waiting (x :: pending) + 1) x.code = some (waiting pending + 1) := by
  cases x with
  | operator o => simp [waiting_operator, Pending.code, Program.depth?, Instruction.pops]
  | sign negative =>
    rw [waiting_level rfl]
    cases negative with
    | true => simp [Pending.code, Program.depth?, Instruction.pops]
    | false => rfl
  | group => rw [waiting_level rfl]; rfl
  | argument f =>
    rw [waiting_level rfl]
    simp [Pending.code, Program.depth?, Instruction.pops]

/-- Releasing leaves the value on top, and below it one for each operator that still waits. -/
theorem depth?_released (rank : Nat) (pending : List Pending) :
    Program.depth? (waiting pending + 1) (released rank pending)
      = some (waiting (remaining rank pending) + 1) := by
  induction pending with
  | nil => rfl
  | cons x pending ih =>
    by_cases hx : rank ≤ x.rank
    · rw [released_cons hx, remaining_cons hx, Program.depth?_append, depth?_code]
      exact ih
    · have hloose : LooserThan rank (x :: pending) := looserThan_cons (Nat.lt_of_not_le hx)
      rw [released_of_looserThan hloose, remaining_of_looserThan hloose]
      rfl

/-- The instructions of a step keep the depth in step with the draft.  A step that is refused has
    emitted some instructions too, which find their operands. -/
def Step.Keeps (n : Nat) (s : Step) : Prop :=
  ∃ m, Program.depth? n s.1 = some m ∧ ∀ d, s.2 = .ok d → d.depth = m

/-- A level that opens needs no value and leaves none. -/
theorem keeps_openLevel {level : Pending} (h : level.isLevel = true) {pending : List Pending} :
    Step.Keeps (waiting pending) ([], openLevel level pending) := by
  refine ⟨waiting pending, rfl, fun d hd => ?_⟩
  obtain ⟨-, rfl⟩ := openLevel_ok hd
  exact waiting_level h pending

/-- A token where an operand is due. -/
theorem keeps_startOperand (pending : List Pending) (t : Token) :
    Step.Keeps (waiting pending) (startOperand pending t) := by
  cases t with
  | number text =>
    refine ⟨waiting pending + 1, rfl, fun d hd => ?_⟩
    obtain rfl := Except.ok.inj hd
    rfl
  | name text =>
    refine ⟨waiting pending, rfl, fun d hd => ?_⟩
    obtain rfl := Except.ok.inj hd
    rfl
  | opening => exact keeps_openLevel rfl
  | closing => exact ⟨waiting pending, rfl, fun d hd => by cases hd⟩
  | operator o =>
    cases o with
    | add | sub => exact keeps_openLevel rfl
    | mul | div | pow => exact ⟨waiting pending, rfl, fun d hd => by cases hd⟩

/-- A token after a complete operand, which is on top. -/
theorem keeps_continueOperand (pending : List Pending) (t : Token) :
    Step.Keeps (waiting pending + 1) (continueOperand pending t) := by
  by_cases ht : ∃ o, t = .operator o
  · obtain ⟨o, rfl⟩ := ht
    by_cases ho : o = .pow
    · subst ho
      refine ⟨waiting pending + 1, rfl, fun d hd => ?_⟩
      obtain rfl := Except.ok.inj hd
      exact waiting_operator _ pending
    · rw [continueOperand_operator ho]
      refine ⟨_, depth?_released o.rank pending, fun d hd => ?_⟩
      obtain rfl := Except.ok.inj hd
      exact waiting_operator o _
  · -- Any other token releases all that is inside the innermost level, even if it is refused.
    have hwhole := depth?_released Operator.leastRank pending
    by_cases hlevel : t = .closing ∧ remaining Operator.leastRank pending ≠ []
    · obtain ⟨rfl, hne⟩ := hlevel
      obtain ⟨level, outer, hrest⟩ := List.exists_cons_of_ne_nil hne
      rw [continueOperand_closing hrest]
      refine ⟨waiting outer + 1, ?_, fun d hd => ?_⟩
      · rw [Program.depth?_append, hwhole, hrest]
        exact depth?_code level outer
      · obtain rfl := Except.ok.inj hd
        rfl
    · rw [continueOperand_refused pending (fun o ho => ht ⟨o, ho⟩) fun hc =>
        Decidable.byContradiction fun hne => hlevel ⟨hc, hne⟩]
      exact ⟨_, hwhole, fun d hd => by cases hd⟩

/-- After an operand its value is on top, at the latest when the instruction is there that a name
    still owes. -/
theorem depth?_code_expecting (d : Draft) (hd : d.expecting ≠ .operand) :
    Program.depth? d.depth d.expecting.code = some (waiting d.pending + 1) := by
  obtain ⟨pending, ex⟩ := d
  cases ex with
  | operand => exact absurd rfl hd
  | continuation | argument => rfl

/-- **One token keeps the depth in step with the draft.** -/
theorem keeps_read (d : Draft) (t : Token) : Step.Keeps d.depth (d.read t) := by
  by_cases hd : d.expecting = .operand
  · obtain ⟨pending, ex⟩ := d
    obtain rfl : ex = .operand := hd
    exact keeps_startOperand pending t
  · by_cases ht : t = .opening
    · subst ht
      obtain ⟨pending, ex⟩ := d
      cases ex with
      | operand => exact absurd rfl hd
      | continuation => exact keeps_continueOperand pending .opening
      | argument f => exact keeps_openLevel rfl
    · rw [read_of_ne_operand hd ht]
      obtain ⟨m, hm, hnext⟩ := keeps_continueOperand d.pending t
      refine ⟨m, ?_, hnext⟩
      rw [Program.depth?_append, d.depth?_code_expecting hd]
      exact hm

/-- The end of the text.  If it is accepted, nothing waits, and one value is left. -/
theorem depth?_finish (d : Draft) :
    ∃ m, Program.depth? d.depth d.finish.emitted = some m ∧
      (d.finish.rejection? = none → m = 1) := by
  by_cases hd : d.expecting = .operand
  · refine ⟨d.depth, ?_, fun h => absurd hd (remaining_of_accepted h).1⟩
    unfold finish
    rw [hd]
    rfl
  · have hwhole := depth?_released Operator.leastRank d.pending
    refine ⟨waiting (remaining Operator.leastRank d.pending) + 1, ?_, fun h => ?_⟩
    · rw [finish_of_ne_operand hd, Program.depth?_append, d.depth?_code_expecting hd]
      exact hwhole
    · rw [(remaining_of_accepted h).2]
      rfl

/-- **A whole run keeps the count**, whatever the text and wherever it is refused. -/
theorem depth?_compileTokens (fault? : Option LexError) (d : Draft) (ts : List Token) :
    ∃ m, Program.depth? d.depth (d.compileTokens fault? ts).emitted = some m ∧
      ((d.compileTokens fault? ts).rejection? = none → m = 1) := by
  induction ts generalizing d with
  | nil =>
    cases fault? with
    | none => exact d.depth?_finish
    | some e => exact ⟨_, rfl, fun h => by cases h⟩
  | cons t ts ih =>
    obtain ⟨m, hm, hnext⟩ := keeps_read d t
    rw [compileTokens]
    rcases hread : d.read t with ⟨code, e | d'⟩
    · -- What a refused token has emitted stays part of the answer.
      rw [hread] at hm
      exact ⟨m, hm, fun h => by cases h⟩
    · rw [hread] at hm hnext
      obtain ⟨k, hk, hlast⟩ := ih d'
      refine ⟨k, ?_, hlast⟩
      show Program.depth? d.depth (code ++ (d'.compileTokens fault? ts).emitted) = some k
      rw [Program.depth?_append, hm, ← hnext d' rfl]
      exact hk

end Draft

/-- **What is emitted finds its operands**, for accepted and for rejected sources, and an accepted
    source leaves one value. -/
theorem compile_depth (source : String) :
    ∃ m, (compile source).emitted.depth? 0 = some m ∧
      ((compile source).rejection? = none → m = 1) := by
  rw [compile_eq_compileTokens]
  exact Draft.depth?_compileTokens (sourceFault? source) Draft.empty (sourceTokens source)

end Reckoner
