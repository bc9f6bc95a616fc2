import Mathlib.Data.List.Forall2
import Reckoner.Proofs.StackDepth

namespace Reckoner

/-!
# Programs are decoded

Any list of instructions can be run, also one that no source compiles to.  Run on trees instead of
values, it builds the trees whose listings it is made of (`Program.ofTrees_build`), so it is the
listing of a tree exactly if one tree is built.

* `Program.exists_tree` — a program that finds its operands and leaves one value is a listing;
* `Instruction.build_of_run` — what one instruction keeps: below the values on the stack stand the
  trees that they are the values of;
* `execute_eq_ok_iff` — the machine has a result exactly for the listings of the trees that resolve,
  and the result is the value of the tree.
-/

/-- The listings of a stack of trees, the bottom one first. -/
def Program.ofTrees (trees : List Expr) : Program := trees.reverse.flatMap Expr.program

@[simp] theorem Program.ofTrees_nil : Program.ofTrees [] = [] := rfl

@[simp] theorem Program.ofTrees_cons (e : Expr) (trees : List Expr) :
    Program.ofTrees (e :: trees) = Program.ofTrees trees ++ e.program := by
  simp [Program.ofTrees]

/-! ### Building keeps the listing -/

/-- An instruction that builds puts itself at the end of what is listed. -/
theorem Instruction.ofTrees_build {i : Instruction} {trees trees' : List Expr}
    (h : i.build trees = some trees') :
    Program.ofTrees trees' = Program.ofTrees trees ++ [i] := by
  cases i with
  | number text | constant name =>
    obtain rfl := Option.some.inj h
    simp [Expr.program]
  | call f | negate =>
    rcases trees with _ | ⟨a, trees⟩
    · cases h
    · obtain rfl := Option.some.inj h
      simp [Expr.program]
  | binary o =>
    rcases trees with _ | ⟨b, _ | ⟨a, trees⟩⟩
    · cases h
    · cases h
    · obtain rfl := Option.some.inj h
      simp [Expr.program]

/-- **A program that builds is listed**, above what was there before. -/
theorem Program.ofTrees_build {p : Program} {trees trees' : List Expr}
    (h : Program.build trees p = some trees') :
    Program.ofTrees trees' = Program.ofTrees trees ++ p := by
  induction p generalizing trees with
  | nil =>
    obtain rfl := Option.some.inj h
    simp
  | cons i p ih =>
    rw [Program.build] at h
    obtain ⟨between, hi, hp⟩ := Option.bind_eq_some_iff.1 h
    rw [ih hp, Instruction.ofTrees_build hi, List.append_assoc, List.singleton_append]

/-- An instruction that finds its operands builds. -/
theorem Instruction.exists_build {i : Instruction} {trees : List Expr}
    (h : i.pops ≤ trees.length) :
    ∃ trees', i.build trees = some trees' ∧ trees'.length = trees.length - i.pops + 1 := by
  cases i with
  | number text => exact ⟨_, rfl, rfl⟩
  | constant name => exact ⟨_, rfl, rfl⟩
  | call f | negate =>
    rcases trees with _ | ⟨a, trees⟩
    · exact absurd h (by simp [pops])
    · exact ⟨_, rfl, rfl⟩
  | binary o =>
    rcases trees with _ | ⟨b, _ | ⟨a, trees⟩⟩
    · exact absurd h (by simp [pops])
    · exact absurd h (by simp [pops])
    · exact ⟨_, rfl, rfl⟩

/-- A program whose count gets through builds as many trees as are counted. -/
theorem Program.exists_build {p : Program} {trees : List Expr} {m : Nat}
    (h : depth? trees.length p = some m) :
    ∃ trees', Program.build trees p = some trees' ∧ trees'.length = m := by
  induction p generalizing trees with
  | nil => exact ⟨trees, rfl, Option.some.inj h⟩
  | cons i p ih =>
    rw [depth?] at h
    split at h
    · next hpops =>
      obtain ⟨between, hi, hlen⟩ := Instruction.exists_build hpops
      have hcount : depth? between.length p = some m := by rwa [hlen]
      obtain ⟨trees', hp, hm⟩ := ih hcount
      exact ⟨trees', by rw [Program.build, hi]; exact hp, hm⟩
    · cases h

/-- **A program that leaves one value is the listing of a tree**, by its counts alone. -/
theorem Program.exists_tree {p : Program} (h : p.depth? 0 = some 1) :
    ∃ e : Expr, e.program = p := by
  have hcount : depth? ([] : List Expr).length p = some 1 := h
  obtain ⟨trees, hbuild, hlen⟩ := Program.exists_build hcount
  obtain ⟨e, rfl⟩ := List.length_eq_one_iff.1 hlen
  have hlisting := Program.ofTrees_build hbuild
  exact ⟨e, by simpa using hlisting⟩

/-! ### What stands behind the values -/

namespace Expr

/-- Every number in the tree is a numeral and every name stands for something. -/
def Resolves : Expr → Prop
  | number s => (Numeral.value? s).isSome = true
  | constant s => (Builtin.constant? s).isSome = true
  | call f a => (Builtin.function? f).isSome = true ∧ a.Resolves
  | negation a => a.Resolves
  | binary _ a b => a.Resolves ∧ b.Resolves

/-- A tree that resolves has a value. -/
theorem Resolves.exists_value {e : Expr} (h : e.Resolves) : ∃ v, e.value = .ok v := by
  induction e with
  | number s =>
    obtain ⟨v, hv⟩ := Option.isSome_iff_exists.1 h
    exact ⟨v, by rw [value, hv]⟩
  | constant s =>
    obtain ⟨v, hv⟩ := Option.isSome_iff_exists.1 h
    exact ⟨v, by rw [value, hv]⟩
  | call f a ih =>
    obtain ⟨g, hg⟩ := Option.isSome_iff_exists.1 h.1
    obtain ⟨v, hv⟩ := ih h.2
    exact ⟨g v, by rw [value, hv, hg]⟩
  | negation a ih =>
    obtain ⟨v, hv⟩ := ih h
    exact ⟨-v, by rw [value, hv]⟩
  | binary o a b iha ihb =>
    obtain ⟨v, hv⟩ := iha h.1
    obtain ⟨w, hw⟩ := ihb h.2
    exact ⟨o.apply v w, by rw [value, hv, hw]⟩

/-- The tree resolves and has this value. -/
def Stands (e : Expr) (v : Float) : Prop := e.Resolves ∧ e.value = .ok v

end Expr

/-- **One instruction keeps a tree behind every value.**  If it runs on the values, it builds on the
    trees, and what it leaves on the stack is the value of what it builds. -/
theorem Instruction.build_of_run {i : Instruction} {s s' : Stack} {trees : List Expr}
    (hs : List.Forall₂ Expr.Stands trees s) (h : i.run s = .ok s') :
    ∃ trees', i.build trees = some trees' ∧ List.Forall₂ Expr.Stands trees' s' := by
  cases i with
  | number text =>
    rw [run] at h
    cases hv : Numeral.value? text with
    | none => simp [hv] at h
    | some v =>
      obtain rfl : s.push v = s' := by simpa [hv] using h
      exact ⟨_, rfl, .cons ⟨by simp [Expr.Resolves, hv], by simp [Expr.value, hv]⟩ hs⟩
  | constant name =>
    rw [run] at h
    cases hv : Builtin.constant? name with
    | none => simp [hv] at h
    | some v =>
      obtain rfl : s.push v = s' := by simpa [hv] using h
      exact ⟨_, rfl, .cons ⟨by simp [Expr.Resolves, hv], by simp [Expr.value, hv]⟩ hs⟩
  | call name =>
    rw [run] at h
    cases hf : Builtin.function? name with
    | none => simp [hf] at h
    | some f =>
      cases hs with
      | nil => simp [hf, Stack.pop?] at h
      | @cons a v trees s ha hs =>
        obtain rfl : Stack.push s (f v) = s' := by simpa [hf, Stack.pop?] using h
        exact ⟨_, rfl, .cons ⟨⟨by simp [hf], ha.1⟩, by simp [Expr.value, ha.2, hf]⟩ hs⟩
  | negate =>
    cases hs with
    | nil => cases h
    | @cons a v trees s ha hs =>
      obtain rfl : Stack.push s (-v) = s' := Except.ok.inj h
      exact ⟨_, rfl, .cons ⟨ha.1, by simp [Expr.value, ha.2]⟩ hs⟩
  | binary o =>
    -- The operand that was pushed last is the right one.
    rcases hs with _ | ⟨hb, _ | ⟨ha, hs⟩⟩
    · cases h
    · cases h
    · obtain rfl := Except.ok.inj h
      exact ⟨_, rfl, .cons ⟨⟨ha.1, hb.1⟩, by simp [Expr.value, ha.2, hb.2]⟩ hs⟩

/-- **A run keeps a tree behind every value.** -/
theorem Program.build_of_run {p : Program} {s s' : Stack} {trees : List Expr}
    (hs : List.Forall₂ Expr.Stands trees s) (h : (run s p).outcome = .ok s') :
    ∃ trees', Program.build trees p = some trees' ∧ List.Forall₂ Expr.Stands trees' s' := by
  induction p generalizing s trees with
  | nil =>
    obtain rfl := Except.ok.inj h
    exact ⟨trees, rfl, hs⟩
  | cons i p ih =>
    rw [run_cons] at h
    rcases hi : i.run s with e | between
    · rw [hi] at h
      cases h
    · rw [hi] at h
      obtain ⟨built, hbuild, hstands⟩ := Instruction.build_of_run hs hi
      obtain ⟨trees', hp, hs'⟩ := ih hstands h
      exact ⟨trees', by rw [Program.build, hbuild]; exact hp, hs'⟩

/-- An execution that has a result has run a listing. -/
theorem Program.exists_stands_of_execute {p : Program} {v : Float}
    (h : p.execute.outcome = .ok v) : ∃ e : Expr, e.program = p ∧ e.Stands v := by
  have hbind : (run [] p).outcome.bind single = .ok v := h
  rcases hrun : (run [] p).outcome with e | s
  · rw [hrun] at hbind
    cases hbind
  · rw [hrun] at hbind
    obtain ⟨trees, hbuild, hstands⟩ := Program.build_of_run .nil hrun
    -- One value is left, and so one tree is.
    obtain rfl : s = [v] := by
      have hsingle : single s = .ok v := hbind
      unfold single at hsingle
      split at hsingle
      · rw [Except.ok.inj hsingle]
      · cases hsingle
    obtain ⟨e, rfl, he⟩ : ∃ e, trees = [e] ∧ e.Stands v := by
      cases hstands with
      | cons he hnil =>
        cases hnil
        exact ⟨_, rfl, he⟩
    have hlisting := Program.ofTrees_build hbuild
    exact ⟨e, by simpa using hlisting, he⟩

/-- **The machine decides the well-formed programs.**  Any list of instructions has a result exactly
    if it is the postorder listing of a tree whose numbers are numerals and whose names stand for
    something, and the result is the value of the tree.  Every such listing has a result, and no
    list is the listing of two trees. -/
theorem execute_eq_ok_iff (p : Program) :
    (∀ v, p.execute.outcome = .ok v ↔
      ∃ e : Expr, e.program = p ∧ e.Resolves ∧ e.value = .ok v) ∧
    (∀ e : Expr, e.program = p → e.Resolves → ∃ v, p.execute.outcome = .ok v) ∧
    ∀ e f : Expr, e.program = p → f.program = p → e = f := by
  refine ⟨fun v => ⟨Program.exists_stands_of_execute, ?_⟩, ?_, ?_⟩
  · rintro ⟨e, rfl, -, hv⟩
    rw [Program.execute_program, hv]
  · rintro e rfl he
    rw [Program.execute_program]
    exact he.exists_value
  · intro e f he hf
    exact Expr.program_injective (he.trans hf.symm)

end Reckoner
