import Mathlib
import Reckoner.Proofs.Acceptance

namespace Reckoner

/-!
# The emitted program is a postorder listing

No tree is built while a source is read, and yet the instructions that come out are the postorder
listing of one tree, the only one that the source has (`emitted_eq_postorder`).

* `Expr.program_injective` — a listing determines its tree: run on trees instead of values, it
  builds the tree again (`Program.build_program`);
* `emitted_eq_program` — an accepted source emits the listing of each of its trees, which therefore
  are one (`existsUnique_reads`);
* `Phrase.program_powers` — a chain of powers may keep all its operators to the end: right-grouped,
  it is listed as its operands followed by one `^` for each further operand.
-/

/-! ### A listing determines its tree -/

/-- Run an instruction on trees: it takes its operands off the stack and puts its node there. -/
def Instruction.build (stack : List Expr) : Instruction → Option (List Expr)
  | number s => some (.number s :: stack)
  | constant s => some (.constant s :: stack)
  | call f =>
    match stack with
    | a :: rest => some (.call f a :: rest)
    | [] => none
  | negate =>
    match stack with
    | a :: rest => some (.negation a :: rest)
    | [] => none
  | binary o =>
    match stack with
    | b :: a :: rest => some (.binary o a b :: rest)
    | _ => none

/-- Run a program on trees instead of values. -/
def Program.build (stack : List Expr) : Program → Option (List Expr)
  | [] => some stack
  | i :: p => (i.build stack).bind fun stack' => build stack' p

theorem Program.build_append (stack : List Expr) (p q : Program) :
    Program.build stack (p ++ q) = (Program.build stack p).bind fun stack' => build stack' q := by
  induction p generalizing stack with
  | nil => rfl
  | cons i p ih =>
    rw [List.cons_append, Program.build, Program.build]
    cases i.build stack with
    | none => rfl
    | some stack' => exact ih stack'

/-- A listing builds its tree on top of what is there. -/
theorem Program.build_program (stack : List Expr) (e : Expr) :
    Program.build stack e.program = some (e :: stack) := by
  induction e generalizing stack with
  | number s => rfl
  | constant s => rfl
  | call f a ih =>
    rw [Expr.program, Program.build_append, ih]
    rfl
  | negation a ih =>
    rw [Expr.program, Program.build_append, ih]
    rfl
  | binary o a b iha ihb =>
    rw [Expr.program, Program.build_append, Program.build_append, iha]
    -- The right operand is built on top of the left one.
    show ((Program.build (a :: stack) b.program).bind fun stack' =>
      Program.build stack' [.binary o]) = _
    rw [ihb]
    rfl

/-- **A listing determines its tree.** -/
theorem Expr.program_injective {e f : Expr} (h : e.program = f.program) : e = f := by
  have hbuild : some [e] = some [f] := by
    rw [← Program.build_program [] e, ← Program.build_program [] f, h]
  simpa using hbuild

/-! ### Chains of powers -/

namespace Phrase

/-- A chain of powers, grouped from the right. -/
def powers : Phrase → List Phrase → Phrase
  | a, [] => a
  | a, b :: bs => .binary .pow a (powers b bs)

/-- The tokens of a chain are those of its operands, each further one after a `^`. -/
theorem tokens_powers (a : Phrase) (bs : List Phrase) :
    (a.powers bs).tokens = a.tokens ++ bs.flatMap fun b => .operator .pow :: b.tokens := by
  induction bs generalizing a with
  | nil => simp [powers]
  | cons b bs ih => simp [powers, tokens, ih b]

/-- **The operators of a chain may come last.**  Grouped from the right, each `^` follows its right
    operand, and so all of them follow the last operand. -/
theorem program_powers (a : Phrase) (bs : List Phrase) :
    (a.powers bs).tree.program
      = a.tree.program ++ bs.flatMap (fun b => b.tree.program)
        ++ List.replicate bs.length (.binary .pow) := by
  induction bs generalizing a with
  | nil => simp [powers]
  | cons b bs ih =>
    show a.tree.program ++ (b.powers bs).tree.program ++ [.binary .pow] = _
    rw [ih b, List.length_cons, List.replicate_succ']
    simp

end Phrase

/-! ### The program of a source -/

variable {source : String} {e : Expr}

/-- An accepted source emits the postorder listing of its tree. -/
theorem emitted_eq_program (h : (compile source).rejection? = none)
    (he : Reads (sourceTokens source) e) : (compile source).emitted = e.program := by
  obtain ⟨p, hp, htokens, rfl⟩ := he
  have hfault := (exists_phrase_of_accepted h).1
  have hn := nesting_le_of_accepted h hp htokens
  rw [compile_of_phrase hfault hp htokens hn]

/-- An accepted source has a tree, and only one. -/
theorem existsUnique_reads (h : (compile source).rejection? = none) :
    ∃! e, Reads (sourceTokens source) e := by
  obtain ⟨-, p, hp, htokens, -⟩ := exists_phrase_of_accepted h
  have hreads : Reads (sourceTokens source) p.tree := ⟨p, hp, htokens, rfl⟩
  refine ⟨p.tree, hreads, fun e he => ?_⟩
  -- Two trees of one source have the same listing, the one that is emitted.
  have hsame : e.program = p.tree.program := by
    rw [← emitted_eq_program h he, ← emitted_eq_program h hreads]
  exact Expr.program_injective hsame

/-- An accepted source is not empty, and neither is its program. -/
theorem emitted_ne_nil (h : (compile source).rejection? = none) :
    (compile source).emitted ≠ [] := by
  obtain ⟨e, he, -⟩ := existsUnique_reads h
  rw [emitted_eq_program h he]
  exact e.program_ne_nil

/-- **The program of a source.**  An accepted source has exactly one tree, and the instructions it
    emits are the postorder listing of this tree.  In the listing of a chain of powers, of any
    length and with any phrases for operands, all operators of the chain come after its last
    operand. -/
theorem emitted_eq_postorder (h : (compile source).rejection? = none) :
    (∃! e, Reads (sourceTokens source) e) ∧
    (∀ e, Reads (sourceTokens source) e → (compile source).emitted = e.program) ∧
    ∀ (first : Phrase) (others : List Phrase),
      (first.powers others).tokens
          = first.tokens ++ others.flatMap (fun b => .operator .pow :: b.tokens) ∧
      (first.powers others).tree.program
          = first.tree.program ++ others.flatMap (fun b => b.tree.program)
            ++ List.replicate others.length (.binary .pow) :=
  ⟨existsUnique_reads h, fun _ he => emitted_eq_program h he,
    fun first others => ⟨first.tokens_powers others, first.program_powers others⟩⟩

/-- A sign in an exponent takes the rest of the chain: `2^-3^2` has one tree, and its listing is
    emitted. -/
theorem emitted_eq_postorder_sign_in_exponent :
    (compile "2^-3^2").rejection? = none ∧
      (∃! e, Reads (sourceTokens "2^-3^2") e) ∧
      (compile "2^-3^2").emitted
        = (Expr.binary .pow (.number "2")
            (.negation (.binary .pow (.number "3") (.number "2")))).program := by
  have haccepted : (compile "2^-3^2").rejection? = none := by cbv
  have htokens : sourceTokens "2^-3^2" = [.number "2", .operator .pow, .operator .sub,
      .number "3", .operator .pow, .number "2"] := by cbv
  have hproper : (Phrase.binary .pow (.number "2")
      (.sign true (.binary .pow (.number "3") (.number "2")))).Proper :=
    .binary .pow (by decide) (by decide) (.number "2")
      (.sign true (by decide) (.binary .pow (by decide) (by decide) (.number "3") (.number "2")))
  obtain ⟨hunique, hlisting, -⟩ := emitted_eq_postorder haccepted
  exact ⟨haccepted, hunique, hlisting _ ⟨_, hproper, htokens.symm, rfl⟩⟩

end Reckoner
