import Reckoner.Proofs.Calls
import Reckoner.Proofs.Grammar

namespace Reckoner

/-!
# Recursive descent

The grammar as a procedure: one rule for each category, which calls the rules below it and, inside
parentheses, itself.  A rule looks at the next token before it takes it, often more than once, and
keeps nothing of what it has seen.  How many levels are open around it is counted.

The procedure works on any `Supply` of tokens.  The characters of a source are one
(`Supply.cursor`), and so are tokens that have all been read beforehand (`Supply.stream`).

* `Outcome` — what a rule comes to; after a success, less is left of the supply;
* `Supply.descend` — the rules, and the procedure for a whole text (`Supply.parse`);
* `Outcome.Sat` — what holds of an outcome, with a lemma for each thing that a rule does;
* `Supply.Keeps.parse` — what looking, taking, emitting and nesting keep, the procedure keeps.
-/

/-! ### Supplies of tokens -/

/-- Tokens that are asked for one after the other.  A token leaves less than there was. -/
structure Supply (σ : Type) where
  next : σ → Reading × σ
  size : σ → Nat
  next_smaller : ∀ {i : σ} {t : Token}, (next i).1 = .token t → size (next i).2 < size i

/-- Tokens that have been read beforehand, and the fault at their end, if there is one. -/
structure TokenStream where
  tokens : List Token
  fault? : Option LexError
  deriving DecidableEq, Repr

/-- The next token, or what ends the tokens, over and over. -/
def TokenStream.next : TokenStream → Reading × TokenStream
  | ⟨t :: ts, fault?⟩ => (.token t, ⟨ts, fault?⟩)
  | ⟨[], fault?⟩ => (Scan.ending fault?, ⟨[], fault?⟩)

theorem TokenStream.next_shorter {i : TokenStream} {t : Token} (h : i.next.1 = .token t) :
    i.next.2.tokens.length < i.tokens.length := by
  rcases i with ⟨_ | ⟨u, ts⟩, _ | e⟩
  · cases h
  · cases h
  · exact Nat.lt_succ_self _
  · exact Nat.lt_succ_self _

namespace Supply

/-- The characters of a source. -/
def cursor : Supply Cursor := ⟨Cursor.next, fun c => c.rest.length, Cursor.next_shorter⟩

/-- Tokens that have been read beforehand. -/
def stream : Supply TokenStream :=
  ⟨TokenStream.next, fun i => i.tokens.length, TokenStream.next_shorter⟩

/-- What the next call will answer. -/
def peek {σ : Type} (S : Supply σ) (i : σ) : Reading := (S.next i).1

/-- All that a supply answers, up to the end or the first fault. -/
def readAll {σ : Type} (S : Supply σ) (i : σ) : TokenStream :=
  match h : S.peek i with
  | .token t =>
    have : S.size (S.next i).2 < S.size i := S.next_smaller h
    let later := S.readAll (S.next i).2
    { later with tokens := t :: later.tokens }
  | .finished => ⟨[], none⟩
  | .fault e => ⟨[], some e⟩
termination_by S.size i

end Supply

/-! ### Parsers and outcomes -/

/-- A parser between two steps: what is left to ask, the calls made so far, the instructions emitted
    so far, and the number of levels open around it. -/
structure Parser (σ : Type) where
  input : σ
  calls : List Call
  code : Program
  depth : Nat

namespace Parser

variable {σ : Type}

/-- Before the first step. -/
def start (i : σ) : Parser σ := ⟨i, [], [], 0⟩

abbrev looked (s : Parser σ) : Parser σ := { s with calls := s.calls ++ [.peek] }

abbrev taken (S : Supply σ) (s : Parser σ) : Parser σ :=
  { s with input := (S.next s.input).2, calls := s.calls ++ [.next] }

abbrev emit (s : Parser σ) (code : Program) : Parser σ := { s with code := s.code ++ code }

abbrev deeper (s : Parser σ) : Parser σ := { s with depth := s.depth + 1 }

abbrev shallower (s : Parser σ) : Parser σ := { s with depth := s.depth - 1 }

end Parser

/-- **What a rule comes to**: the parser goes on, with less than `bound` left to ask, or it has met
    an error. -/
inductive Outcome {σ : Type} (S : Supply σ) (bound : Nat) where
  | ok (s : Parser σ) (fewer : S.size s.input < bound)
  | error (e : CompileError) (s : Parser σ)

namespace Outcome

variable {σ : Type} {S : Supply σ} {m n : Nat}

/-- Go on after a success. -/
def bind (o : Outcome S n) (next : (s : Parser σ) → S.size s.input < n → Outcome S m) :
    Outcome S m :=
  match o with
  | ok s fewer => next s fewer
  | error e s => error e s

def weaken (h : n ≤ m) : Outcome S n → Outcome S m
  | ok s fewer => ok s (Nat.lt_of_lt_of_le fewer h)
  | error e s => error e s

/-- Emit instructions after a success. -/
def emit (code : Program) : Outcome S n → Outcome S n
  | ok s fewer => ok (s.emit code) fewer
  | error e s => error e s

/-- Close a level, after a success and after an error. -/
def shallower : Outcome S n → Outcome S n
  | ok s fewer => ok s.shallower fewer
  | error e s => error e s.shallower

/-- The parser at the end. -/
def parser : Outcome S n → Parser σ
  | ok s _ | error _ s => s

/-- What was emitted, and the error if there is one. -/
def compilation : Outcome S n → Compilation
  | ok s _ => ⟨s.code, none⟩
  | error e s => ⟨s.code, some e⟩

end Outcome

/-! ### The rules -/

/-- Accept one token and no other. -/
def Token.only? (t u : Token) : Option Unit := if u = t then some () else none

/-- Accept the operators of a chain. -/
def Category.operator? (c : Category) : Token → Option Operator
  | .operator o => if o.chain = c then some o else none
  | .opening | .closing | .number _ | .name _ => none

theorem Token.only?_eq_some {t u : Token} {a : Unit} : t.only? u = some a ↔ u = t := by
  simp [only?]

theorem Category.operator?_eq_some {c : Category} {t : Token} {o : Operator} :
    c.operator? t = some o ↔ t = .operator o ∧ o.chain = c := by
  cases t with
  | operator o' =>
    simp only [operator?, Option.ite_none_right_eq_some, Option.some.injEq, Token.operator.injEq]
    constructor
    · rintro ⟨hc, rfl⟩
      exact ⟨rfl, hc⟩
    · rintro ⟨rfl, hc⟩
      exact ⟨hc, rfl⟩
  | opening | closing | number | name => simp [operator?]

namespace Supply

variable {σ : Type} (S : Supply σ) {n : Nat}

/-- Look at the next token, which there has to be. -/
def require (s : Parser σ) (next : (t : Token) → S.peek s.input = .token t → Outcome S n) :
    Outcome S n :=
  match h : S.peek s.input with
  | .token t => next t h
  | .finished => .error .missingOperand s.looked
  | .fault e => .error (.lexical e) s.looked

/-- Take the token that a look has shown.  The answer is not used, unless it is a fault. -/
def advance (s : Parser σ) {t : Token} (h : S.peek s.input = .token t) :
    Outcome S (S.size s.input) :=
  match (S.next s.input).1 with
  | .token _ | .finished => .ok (s.taken S) (S.next_smaller h)
  | .fault e => .error (.lexical e) (s.taken S)

/-- Look at the next token, and take it if it is accepted. -/
def eat {α : Type} (accept? : Token → Option α) (s : Parser σ)
    (next : α → (s' : Parser σ) → S.size s'.input < S.size s.input → Outcome S n)
    (other : Outcome S n) : Outcome S n :=
  match h : S.peek s.input with
  | .token t =>
    match accept? t with
    | some a => (S.advance s.looked h).bind (next a)
    | none => other
  | .finished => other
  | .fault e => .error (.lexical e) s.looked

/-- A rule inside one more level, if there may be one. -/
def nested (s : Parser σ)
    (rule : (s' : Parser σ) → S.size s'.input = S.size s.input → Outcome S n) : Outcome S n :=
  if s.depth < maxNesting then (rule s.deeper rfl).shallower else .error .tooDeep s

/-- A rule in parentheses, behind the one that opens. -/
def enclosed (s : Parser σ)
    (rule : (s' : Parser σ) → S.size s'.input = S.size s.input → Outcome S (S.size s'.input)) :
    Outcome S (S.size s.input) :=
  S.nested s fun s₁ h₁ => (rule s₁ h₁).bind fun s₂ h₂ =>
    S.eat Token.closing.only? s₂ (fun _ s₃ h₃ => .ok s₃ (by omega)) (.error .unclosed s₂.looked)

mutual

/-- The rule of a category:

        Sum     := Product (('+' | '-') Product)*
        Product := Power (('*' | '/') Power)*
        Power   := Operand ('^' Operand)*
        Operand := NUMBER | NAME | NAME '(' Sum ')' | '(' Sum ')' | ('+' | '-') Power -/
def descend : Category → (s : Parser σ) → Outcome S (S.size s.input)
  | .sum, s =>
    S.require s fun _ _ => (descend .product s.looked).bind fun s₁ h₁ =>
      (leftAssociative .sum s₁).weaken h₁
  | .product, s =>
    S.require s fun _ _ => (descend .power s.looked).bind fun s₁ h₁ =>
      (leftAssociative .product s₁).weaken h₁
  | .power, s =>
    S.require s fun _ _ => (descend .operand s.looked).bind fun s₁ h₁ => (powers 0 s₁).weaken h₁
  | .operand, s =>
    S.require s fun t h => (S.advance s.looked h).bind fun s₁ h₁ =>
      match t with
      | .number text => .ok (s₁.emit [.number text]) h₁
      | .name text =>
        S.eat Token.opening.only? s₁
          (fun _ s₂ h₂ => ((S.enclosed s₂ fun s₃ h₃ => descend .sum s₃).emit [.call text]).weaken
            (by dsimp only at *; omega))
          (.ok (s₁.looked.emit [.constant text]) h₁)
      | .opening => (S.enclosed s₁ fun s₂ h₂ => descend .sum s₂).weaken (by dsimp only at *; omega)
      | .operator .sub =>
        (S.nested s₁ fun s₂ h₂ => (descend .power s₂).weaken (by dsimp only at *; omega)).emit
          [.negate]
      | .operator .add =>
        S.nested s₁ fun s₂ h₂ => (descend .power s₂).weaken (by dsimp only at *; omega)
      | t => .error (.unexpectedToken t) s₁
termination_by c s => (S.size s.input, 5 - c.rank)
decreasing_by
  all_goals first
    | exact .right _ (by decide)
    | exact .left _ _ (by dsimp only at *; omega)

/-- A chain that groups from the left: each operator is emitted behind its right operand. -/
def leftAssociative (c : Category) (s : Parser σ) : Outcome S (S.size s.input + 1) :=
  S.eat c.operator? s
    (fun o s₁ h₁ => (descend c.link s₁).bind fun s₂ h₂ =>
      (leftAssociative c (s₂.emit [.binary o])).weaken (by dsimp only at *; omega))
    (.ok s.looked (Nat.lt_succ_self _))
termination_by (S.size s.input, 0)
decreasing_by all_goals exact .left _ _ (by omega)

/-- A chain of powers: the operators are counted, and all emitted at its end. -/
def powers (count : Nat) (s : Parser σ) : Outcome S (S.size s.input + 1) :=
  S.eat (Token.operator .pow).only? s
    (fun _ s₁ h₁ => (descend .operand s₁).bind fun s₂ h₂ =>
      (powers (count + 1) s₂).weaken (by omega))
    (.ok (s.looked.emit (List.replicate count (.binary .pow))) (Nat.lt_succ_self _))
termination_by (S.size s.input, 0)
decreasing_by all_goals exact .left _ _ (by omega)

end

/-- A whole text is a sum with nothing behind it. -/
def parse (i : σ) : Outcome S (S.size i + 1) :=
  S.require (.start i) fun _ _ => (S.descend .sum (Parser.start i).looked).bind fun s h =>
    match S.peek s.input with
    | .token t => .error (.trailingToken t) s.looked
    | .finished => .ok s.looked (Nat.lt_succ_of_lt h)
    | .fault e => .error (.lexical e) s.looked

end Supply

/-! ### What holds of an outcome -/

namespace Outcome

variable {σ : Type} {S : Supply σ} {m n : Nat} {Q Q' : Parser σ → Prop}
  {E E' : CompileError → Parser σ → Prop} {o : Outcome S n}

/-- **What holds of the parser** after a success, and of the error and the parser after an error. -/
def Sat (Q : Parser σ → Prop) (E : CompileError → Parser σ → Prop) : Outcome S n → Prop
  | ok s _ => Q s
  | error e s => E e s

theorem Sat.bind {next : (s : Parser σ) → S.size s.input < n → Outcome S m} (h : o.Sat Q E)
    (hnext : ∀ s fewer, Q s → (next s fewer).Sat Q' E) : (o.bind next).Sat Q' E := by
  cases o with
  | ok s fewer => exact hnext s fewer h
  | error e s => exact h

theorem Sat.mono (h : o.Sat Q E) (hQ : ∀ s, Q s → Q' s) (hE : ∀ e s, E e s → E' e s) :
    o.Sat Q' E' := by
  cases o with
  | ok s _ => exact hQ s h
  | error e s => exact hE e s h

theorem Sat.weaken (h : o.Sat Q E) (hle : n ≤ m) : (o.weaken hle).Sat Q E := by
  cases o <;> exact h

theorem Sat.emit {code : Program} (h : o.Sat (fun s => Q (s.emit code)) E) :
    (o.emit code).Sat Q E := by
  cases o <;> exact h

theorem Sat.shallower (h : o.Sat (fun s => Q s.shallower) fun e s => E e s.shallower) :
    o.shallower.Sat Q E := by
  cases o <;> exact h

end Outcome

namespace Supply

variable {σ : Type} {S : Supply σ} {n : Nat} {Q : Parser σ → Prop}
  {E : CompileError → Parser σ → Prop} {s : Parser σ} {t : Token}

/-- **Taking a token that has been seen does not fail.** -/
theorem advance_eq_ok (h : S.peek s.input = .token t) :
    S.advance s h = .ok (s.taken S) (S.next_smaller h) := by
  have hnext : (S.next s.input).1 = .token t := h
  unfold advance
  split
  · rfl
  · rfl
  · next hfault =>
    rw [hnext] at hfault
    cases hfault

theorem sat_require {next : (t : Token) → S.peek s.input = .token t → Outcome S n}
    (hfinished : S.peek s.input = .finished → E .missingOperand s.looked)
    (hfault : ∀ e, S.peek s.input = .fault e → E (.lexical e) s.looked)
    (hnext : ∀ t h, (next t h).Sat Q E) : (S.require s next).Sat Q E := by
  unfold require
  split
  · next t h => exact hnext t h
  · next h => exact hfinished h
  · next e h => exact hfault e h

theorem sat_eat {α : Type} {accept? : Token → Option α} {other : Outcome S n}
    {next : α → (s' : Parser σ) → S.size s'.input < S.size s.input → Outcome S n}
    (hfault : ∀ e, S.peek s.input = .fault e → E (.lexical e) s.looked)
    (hnext : ∀ t a (h : S.peek s.input = .token t), accept? t = some a →
      (next a (s.looked.taken S) (S.next_smaller h)).Sat Q E)
    (hother : (∀ e, S.peek s.input ≠ .fault e) →
      (∀ t, S.peek s.input = .token t → accept? t = none) → other.Sat Q E) :
    (S.eat accept? s next other).Sat Q E := by
  unfold eat
  split
  · next t h =>
    split
    · next a ha =>
      rw [advance_eq_ok]
      exact hnext t a h ha
    · next hnone =>
      refine hother (by simp [h]) fun u hu => ?_
      obtain rfl := Reading.token.inj (h.symm.trans hu)
      exact hnone
  · next h => exact hother (by simp [h]) (by simp [h])
  · next e h => exact hfault e h

/-- What is next if one token is accepted and it has not been taken. -/
theorem peek_ne_of_only? (h : ∀ u, S.peek s.input = .token u → t.only? u = none) :
    S.peek s.input ≠ .token t := by
  intro ht
  have hnone := h t ht
  simp [Token.only?] at hnone

theorem sat_nested {rule : (s' : Parser σ) → S.size s'.input = S.size s.input → Outcome S n}
    (hfull : maxNesting ≤ s.depth → E .tooDeep s)
    (hrule : s.depth < maxNesting →
      (rule s.deeper rfl).Sat (fun s' => Q s'.shallower) fun e s' => E e s'.shallower) :
    (S.nested s rule).Sat Q E := by
  unfold nested
  split
  · next hroom => exact (hrule hroom).shallower
  · next hnone => exact hfull (Nat.le_of_not_lt hnone)

/-! ### What every rule keeps -/

/-- **What each step keeps**, as long as there is no error, and what it leaves with an error. -/
structure Keeps (S : Supply σ) (I : Parser σ → Prop) (E : CompileError → Parser σ → Prop) :
    Prop where
  look {s : Parser σ} : I s → (∀ e, S.peek s.input ≠ .fault e) → I s.looked
  take {s : Parser σ} {t : Token} : I s → S.peek s.input = .token t → I (s.looked.taken S)
  emit {s : Parser σ} (code : Program) : I s → I (s.emit code)
  deeper {s : Parser σ} : I s → s.depth < maxNesting → I s.deeper
  shallower {s : Parser σ} : I s → I s.shallower
  fault {s : Parser σ} {e : LexError} : I s → S.peek s.input = .fault e → E (.lexical e) s.looked
  refuse {s : Parser σ} {e : CompileError} : I s → (∀ e', e ≠ .lexical e') → E e s
  shallower_error {s : Parser σ} {e : CompileError} : E e s → E e s.shallower

namespace Keeps

variable {I : Parser σ → Prop} (k : Keeps S I E)
include k

theorem require {next : (t : Token) → S.peek s.input = .token t → Outcome S n} (hs : I s)
    (hnext : ∀ t h, (next t h).Sat Q E) : (S.require s next).Sat Q E := by
  refine sat_require (fun h => ?_) (fun e h => k.fault hs h) hnext
  exact k.refuse (k.look hs (by simp [h])) (by simp)

theorem eat {α : Type} {accept? : Token → Option α} {other : Outcome S n}
    {next : α → (s' : Parser σ) → S.size s'.input < S.size s.input → Outcome S n} (hs : I s)
    (hnext : ∀ a s' fewer, I s' → (next a s' fewer).Sat I E)
    (hother : I s.looked → other.Sat I E) : (S.eat accept? s next other).Sat I E :=
  sat_eat (fun _ h => k.fault hs h) (fun _ a h _ => hnext a _ _ (k.take hs h))
    fun hsound _ => hother (k.look hs hsound)

theorem emitted {o : Outcome S n} (code : Program) (h : o.Sat I E) : (o.emit code).Sat I E :=
  (h.mono (fun _ => k.emit code) fun _ _ => id).emit

theorem nested {rule : (s' : Parser σ) → S.size s'.input = S.size s.input → Outcome S n} (hs : I s)
    (hrule : ∀ s' same, I s' → (rule s' same).Sat I E) : (S.nested s rule).Sat I E := by
  refine sat_nested (fun _ => k.refuse hs (by simp)) fun hroom => ?_
  exact (hrule s.deeper rfl (k.deeper hs hroom)).mono (fun _ => k.shallower)
    fun _ _ => k.shallower_error

theorem enclosed {rule : (s' : Parser σ) → S.size s'.input = S.size s.input →
      Outcome S (S.size s'.input)} (hs : I s)
    (hrule : ∀ s' same, I s' → (rule s' same).Sat I E) : (S.enclosed s rule).Sat I E := by
  apply k.nested hs
  intro s₁ h₁ hs₁
  apply (hrule s₁ h₁ hs₁).bind
  intro s₂ h₂ hs₂
  exact k.eat hs₂ (fun _ _ _ h => h) fun h => k.refuse h (by simp)

/-- **Every rule keeps what its steps keep.** -/
theorem descend (c : Category) (s : Parser σ) (hs : I s) : (S.descend c s).Sat I E := by
  -- By the recursion of the rules: on the size of what is left, then on the category.
  refine Supply.descend.induct S (fun c s => I s → (S.descend c s).Sat I E)
    (fun count s => I s → (S.powers count s).Sat I E)
    (fun c s => I s → (S.leftAssociative c s).Sat I E)
    ?sum ?product ?power ?operand ?powers ?leftAssociative c s hs
  case sum | product | power =>
    intro s link later hs
    rw [Supply.descend]
    apply k.require hs
    intro t h
    apply (link (k.look hs (by simp [h]))).bind
    intro s₁ h₁ hs₁
    exact (later s₁ h₁ hs₁).weaken _
  case operand =>
    intro s argument group operand hs
    rw [Supply.descend]
    apply k.require hs
    intro t h
    rw [advance_eq_ok]
    have hs₁ := k.take hs h
    cases t with
    | number text => exact k.emit _ hs₁
    | name text =>
      apply k.eat hs₁
      · intro _ s₂ h₂ hs₂
        have hcall := k.enclosed hs₂ fun s₃ h₃ hs₃ => argument _ (S.next_smaller h) s₂ h₂ s₃ h₃ hs₃
        exact (k.emitted _ hcall).weaken _
      · exact fun hlook => k.emit _ hlook
    | opening =>
      have hgroup := k.enclosed hs₁ fun s₂ h₂ hs₂ => group _ (S.next_smaller h) s₂ h₂ hs₂
      exact hgroup.weaken (Nat.le_of_lt (S.next_smaller h))
    | closing => exact k.refuse hs₁ (by simp)
    | operator o =>
      have hchain (s₂ h₂ hs₂) := operand (s.looked.taken S) (S.next_smaller h) s₂ h₂ hs₂
      cases o with
      | add => exact k.nested hs₁ fun s₂ h₂ hs₂ => (hchain s₂ h₂ hs₂).weaken _
      | sub => exact k.emitted _ (k.nested hs₁ fun s₂ h₂ hs₂ => (hchain s₂ h₂ hs₂).weaken _)
      | mul | div | pow => exact k.refuse hs₁ (by simp)
  case powers =>
    intro count s operand later hs
    rw [powers]
    apply k.eat hs
    · intro _ s₁ h₁ hs₁
      apply (operand s₁ h₁ hs₁).bind
      intro s₂ h₂ hs₂
      exact (later s₁ h₁ s₂ h₂ hs₂).weaken _
    · exact fun hlook => k.emit _ hlook
  case leftAssociative =>
    intro c s link later hs
    rw [leftAssociative]
    apply k.eat hs
    · intro o s₁ h₁ hs₁
      apply (link s₁ h₁ hs₁).bind
      intro s₂ h₂ hs₂
      exact (later o s₁ h₁ s₂ h₂ (k.emit _ hs₂)).weaken _
    · exact id

/-- **So does the whole procedure**, which succeeds only at the end. -/
theorem parse {i : σ} (hi : I (.start i)) :
    (S.parse i).Sat (fun s => I s ∧ S.peek s.input = .finished) E := by
  unfold Supply.parse
  apply k.require hi
  intro t h
  apply (k.descend .sum _ (k.look hi (by simp [h]))).bind
  intro s _ hs
  split
  · next t ht => exact k.refuse (k.look hs (by simp [ht])) (by simp)
  · next hend => exact ⟨k.look hs (by simp [hend]), hend⟩
  · next e he => exact k.fault hs he

end Keeps

end Supply

end Reckoner
