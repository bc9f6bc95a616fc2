import Reckoner.Log
import Reckoner.Proofs.StackDepth

namespace Reckoner

/-!
# Which programs fail, and where

Whether a program has a result, and if it has none why and at which instruction, can be counted on
its instructions (`execute_decided`).  Numbers and constants add a value to the stack, operators
join two; a number fails for its text, a name for itself, and everything else for the count.

* `Program.run_take` — up to the first fault, the count is the depth of the stack;
* `Program.run_depths` — the values themselves decide nothing: on stacks of one depth, a program
  goes the same way.
-/

namespace Instruction

/-- Whether an instruction adds a value and takes none. -/
def pushes : Instruction → Bool
  | number _ | constant _ => true
  | call _ | negate | binary _ => false

/-- Whether an instruction makes one value of two. -/
def joins : Instruction → Bool
  | binary _ => true
  | number _ | constant _ | call _ | negate => false

/-- That values are left over is no fault of an instruction. -/
theorem fault?_ne_leftover {depth : Int} {x : Instruction} {e : RuntimeError}
    (h : x.fault? depth = some e) (left : Nat) : e ≠ .leftover left := by
  rintro rfl
  cases x with
  | number text | constant name | call name | negate | binary o =>
    rw [fault?] at h
    split_ifs at h <;> cases h

end Instruction

namespace Program

/-! ### Counting -/

/-- How many values are counted before the instruction at an index. -/
def depthAt (p : Program) (i : Nat) : Int :=
  ((p.take i).countP Instruction.pushes : Int) - ((p.take i).countP Instruction.joins : Int)

/-- What the instruction at an index fails with, for the count there. -/
def faultAt? (p : Program) (i : Nat) : Option RuntimeError :=
  p[i]?.bind (Instruction.fault? (p.depthAt i))

/-- The first fault of a program. -/
def FirstFault (p : Program) (i : Nat) (e : RuntimeError) : Prop :=
  p.faultAt? i = some e ∧ ∀ j < i, p.faultAt? j = none

/-- The instructions before an index, each with the count after it. -/
def trail (p : Program) (i : Nat) : List (Instruction × Nat) :=
  (p.take i).mapIdx fun j x => (x, (p.depthAt (j + 1)).toNat)

variable {p : Program} {i : Nat} {x : Instruction}

theorem take_succ_of_getElem? (h : p[i]? = some x) : p.take (i + 1) = p.take i ++ [x] := by
  rw [List.take_add_one, h, Option.toList_some]

/-- One instruction more changes the count by what it leaves less what it takes. -/
theorem depthAt_succ (h : p[i]? = some x) : p.depthAt (i + 1) = p.depthAt i + (1 - x.pops) := by
  unfold depthAt
  rw [take_succ_of_getElem? h, List.countP_append, List.countP_append]
  cases x <;> simp [Instruction.pushes, Instruction.joins, Instruction.pops] <;> omega

theorem trail_succ (h : p[i]? = some x) :
    p.trail (i + 1) = p.trail i ++ [(x, (p.depthAt (i + 1)).toNat)] := by
  obtain ⟨hi, -⟩ := List.getElem?_eq_some_iff.1 h
  unfold trail
  rw [take_succ_of_getElem? h, List.mapIdx_append, List.length_take_of_le (Nat.le_of_lt hi)]
  simp

theorem faultAt?_of_getElem? (h : p[i]? = some x) : p.faultAt? i = x.fault? (p.depthAt i) := by
  rw [faultAt?, h, Option.bind_some]

/-- A program has a first fault, or no fault at all. -/
theorem firstFault_or_none (p : Program) :
    (∃ i e, p.FirstFault i e) ∨ ∀ i, p.faultAt? i = none := by
  by_cases h : ∃ i, p.faultAt? i ≠ none
  · classical
    obtain ⟨e, he⟩ := Option.ne_none_iff_exists'.1 (Nat.find_spec h)
    refine .inl ⟨Nat.find h, e, he, fun j hj => ?_⟩
    exact not_not.1 (Nat.find_min h hj)
  · exact .inr fun i => not_not.1 fun hi => h ⟨i, hi⟩

/-! ### Runs as counted -/

/-- A run that gets through the first part of a program goes on with the second. -/
theorem run_append_of_ok {s s' : Stack} {p q : Program} {steps : List (Instruction × Nat)}
    (h : run s p = ⟨steps, .ok s'⟩) :
    run s (p ++ q) = ⟨steps ++ (run s' q).steps, (run s' q).outcome⟩ := by
  induction p generalizing s steps with
  | nil =>
    obtain ⟨rfl, hs⟩ := Execution.mk.inj h
    obtain rfl := Except.ok.inj hs
    rfl
  | cons x p ih =>
    rw [List.cons_append]
    rw [run] at h ⊢
    cases hx : x.run s with
    | error e =>
      rw [hx] at h
      cases h
    | ok t =>
      rw [hx] at h
      obtain ⟨rfl, hp⟩ := Execution.mk.inj h
      have hrest : run t p = ⟨(run t p).steps, .ok s'⟩ := by rw [← hp]
      dsimp only
      rw [ih hrest, List.cons_append]

/-- **Up to the first fault**, every instruction runs, and the count is the depth of the stack. -/
theorem run_take (hi : i ≤ p.length) (h : ∀ j < i, p.faultAt? j = none) :
    ∃ s, run [] (p.take i) = ⟨p.trail i, .ok s⟩ ∧ (s.length : Int) = p.depthAt i := by
  induction i with
  | zero => exact ⟨[], rfl, rfl⟩
  | succ i ih =>
    obtain ⟨s, hrun, hlen⟩ := ih (by omega) fun j hj => h j (by omega)
    have hx : p[i]? = some p[i] := List.getElem?_eq_getElem hi
    have hsound := h i (Nat.lt_succ_self i)
    rw [faultAt?_of_getElem? hx, ← hlen] at hsound
    obtain ⟨s', hstep, hlen'⟩ := Instruction.exists_run_of_fault?_eq_none hsound
    have hdepth : (s'.length : Int) = p.depthAt (i + 1) := by
      rw [hlen', hlen, depthAt_succ hx]
    refine ⟨s', ?_, hdepth⟩
    rw [take_succ_of_getElem? hx, run_append_of_ok hrun, trail_succ hx, ← hdepth]
    simp [run, hstep]

/-- Up to the first fault, no count is negative. -/
theorem depthAt_nonneg (hi : i ≤ p.length) (h : ∀ j < i, p.faultAt? j = none) :
    0 ≤ p.depthAt i := by
  obtain ⟨s, -, hlen⟩ := run_take hi h
  omega

/-- **A first fault ends the run.** -/
theorem run_of_firstFault {e : RuntimeError} (h : p.FirstFault i e) :
    run [] p = ⟨p.trail i, .error e⟩ := by
  obtain ⟨hfault, hsound⟩ := h
  obtain ⟨x, hx, hxfault⟩ := Option.bind_eq_some_iff.1 hfault
  obtain ⟨hi, -⟩ := List.getElem?_eq_some_iff.1 hx
  obtain ⟨s, hrun, hlen⟩ := run_take (Nat.le_of_lt hi) hsound
  have hcut : p.take i ++ x :: p.drop (i + 1) = p := by
    rw [List.append_cons, ← take_succ_of_getElem? hx, List.take_append_drop]
  rw [← hlen] at hxfault
  have hrest : run s (x :: p.drop (i + 1)) = ⟨[], .error e⟩ := by
    rw [run, Instruction.run_of_fault? hxfault]
  have hwhole := run_append_of_ok (q := x :: p.drop (i + 1)) hrun
  rw [hcut, hrest, List.append_nil] at hwhole
  exact hwhole

/-- **Without a fault the run gets through**, and the whole count is what it leaves. -/
theorem run_of_no_fault (h : ∀ i, p.faultAt? i = none) :
    ∃ s, run [] p = ⟨p.trail p.length, .ok s⟩ ∧ (s.length : Int) = p.depthAt p.length := by
  obtain ⟨s, hrun, hlen⟩ := run_take (Nat.le_refl p.length) fun j _ => h j
  rw [List.take_length] at hrun
  exact ⟨s, hrun, hlen⟩

/-- **Values decide nothing.**  From stacks of one depth, a program takes the same steps through the
    same depths and fails with the same error or with none. -/
theorem run_depths {s s' : Stack} (h : s.length = s'.length) (p : Program) :
    (run s p).steps = (run s' p).steps ∧
      (run s p).outcome.map List.length = (run s' p).outcome.map List.length := by
  induction p generalizing s s' with
  | nil => exact ⟨rfl, congrArg Except.ok h⟩
  | cons x p ih =>
    unfold run
    -- The fault depends on the depth alone, so the two stacks fail alike or go on alike.
    cases hfault : x.fault? s.length with
    | some e =>
      have hstep := Instruction.run_of_fault? hfault
      rw [h] at hfault
      rw [hstep, Instruction.run_of_fault? hfault]
      exact ⟨rfl, rfl⟩
    | none =>
      obtain ⟨t, hstep, hlen⟩ := Instruction.exists_run_of_fault?_eq_none hfault
      rw [h] at hfault
      obtain ⟨t', hstep', hlen'⟩ := Instruction.exists_run_of_fault?_eq_none hfault
      have hdepth : t.length = t'.length := by omega
      obtain ⟨hsteps, houtcome⟩ := ih hdepth
      rw [hstep, hstep']
      dsimp only
      rw [hsteps, hdepth]
      exact ⟨rfl, houtcome⟩

end Program

/-! ### Failures and records -/

/-- The records of instructions that ran. -/
def Record.ofSteps (steps : List (Instruction × Nat)) : List Record :=
  steps.map fun (x, depth) => .executed x depth

/-- If no values are left over, an execution has its steps on record and nothing else. -/
theorem Execution.log_of_ne_leftover {steps : List (Instruction × Nat)}
    {outcome : Except RuntimeError Float} (h : ∀ left, outcome ≠ .error (.leftover left)) :
    (Execution.mk steps outcome).log = Record.ofSteps steps := by
  unfold Execution.log
  split
  · next left houtcome => exact absurd houtcome (h left)
  · exact List.append_nil _

namespace Program

/-- What a stack has, if it is not one value. -/
theorem single_of_ne_one {s : Stack} (h : s.length ≠ 1) :
    single s = .error (.leftover s.length) := by
  unfold single
  split
  · exact absurd rfl h
  · rfl

/-- **Failures are counted, not computed.**  A program with a first fault fails with it, and the
    instructions before it, but no other, are on record, each with the count after it.  Without a
    fault all instructions are, and the count over the whole program decides: if it is one, the
    program has a value, and if not, it is reported.  In the counts that are reported nothing is
    lost, for they are not negative.  And the values on a stack have no part in what happens. -/
theorem execute_decided (p : Program) :
    ((∃ i e, p.FirstFault i e) ∨ ∀ i, p.faultAt? i = none) ∧
    (∀ i e, p.FirstFault i e →
      p.execute.outcome = .error e ∧ p.execute.log = Record.ofSteps (p.trail i) ∧
        ∀ j ≤ i, 0 ≤ p.depthAt j) ∧
    ((∀ i, p.faultAt? i = none) →
      (∀ j ≤ p.length, 0 ≤ p.depthAt j) ∧
      (p.depthAt p.length ≠ 1 →
        p.execute.outcome = .error (.leftover (p.depthAt p.length).toNat) ∧
        p.execute.log
          = Record.ofSteps (p.trail p.length) ++ [.leftover (p.depthAt p.length).toNat]) ∧
      (p.depthAt p.length = 1 →
        ∃ v, p.execute.outcome = .ok v ∧ p.execute.log = Record.ofSteps (p.trail p.length))) ∧
    ∀ s s' : Stack, s.length = s'.length →
      (run s p).steps = (run s' p).steps ∧
        (run s p).outcome.map List.length = (run s' p).outcome.map List.length := by
  refine ⟨p.firstFault_or_none, ?_, ?_, fun s s' h => run_depths h p⟩
  · intro i e h
    have hi : i ≤ p.length := by
      obtain ⟨x, hx, -⟩ := Option.bind_eq_some_iff.1 h.1
      exact Nat.le_of_lt (List.getElem?_eq_some_iff.1 hx).1
    have hrun := run_of_firstFault h
    have hexecute : p.execute = ⟨p.trail i, .error e⟩ := by
      rw [execute, hrun]
      rfl
    have hne : ∀ left, (.error e : Except RuntimeError Float) ≠ .error (.leftover left) := by
      obtain ⟨x, -, hx⟩ := Option.bind_eq_some_iff.1 h.1
      intro left he
      exact Instruction.fault?_ne_leftover hx left (Except.error.inj he)
    rw [hexecute]
    exact ⟨rfl, Execution.log_of_ne_leftover hne,
      fun j hj => depthAt_nonneg (by omega) fun k hk => h.2 k (by omega)⟩
  · intro h
    obtain ⟨s, hrun, hlen⟩ := run_of_no_fault h
    have hexecute : p.execute = ⟨p.trail p.length, single s⟩ := by
      rw [execute, hrun]
      rfl
    refine ⟨fun j hj => depthAt_nonneg hj fun k _ => h k, ?_, ?_⟩
    · intro hne
      rw [hexecute, ← hlen, Int.toNat_natCast, single_of_ne_one (by omega)]
      exact ⟨rfl, rfl⟩
    · intro hone
      obtain ⟨v, rfl⟩ : ∃ v, s = [v] := List.length_eq_one_iff.1 (by omega)
      rw [hexecute]
      exact ⟨v, rfl, Execution.log_of_ne_leftover fun left he => by cases he⟩

/-- A call of an unknown function with no argument, after an addition that lacks an operand: the
    addition comes first.  Without any instruction nothing fails, but there is no value. -/
theorem execute_decided_addition_first :
    FirstFault [.number "1", .binary .add, .call "foo"] 1 .stackUnderflow ∧
      (execute [.number "1", .binary .add, .call "foo"]).outcome = .error .stackUnderflow ∧
      (execute [.number "1", .binary .add, .call "foo"]).log = [.executed (.number "1") 1] ∧
      FirstFault [.call "foo"] 0 (.unknownFunction "foo") ∧
      (execute [.call "foo"]).outcome = .error (.unknownFunction "foo") ∧
      (execute []).outcome = .error (.leftover 0) ∧ (execute []).log = [.leftover 0] := by
  have hadd : FirstFault [.number "1", .binary .add, .call "foo"] 1 .stackUnderflow := by
    unfold FirstFault
    decide +kernel
  have hcall : FirstFault [.call "foo"] 0 (.unknownFunction "foo") := by
    unfold FirstFault
    decide +kernel
  obtain ⟨houtcome, hlog, -⟩ := (execute_decided _).2.1 _ _ hadd
  obtain ⟨hunknown, -⟩ := (execute_decided _).2.1 _ _ hcall
  obtain ⟨-, hempty, -⟩ := (execute_decided []).2.2.1 fun _ => rfl
  exact ⟨hadd, houtcome, hlog, hcall, hunknown, hempty (by decide)⟩

end Program

end Reckoner
