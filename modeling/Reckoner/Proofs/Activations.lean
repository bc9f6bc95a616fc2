import Reckoner.Proofs.DescentRun

namespace Reckoner

/-!
# Activations of the rules

The rules of `Supply.descend` call each other.  Here the activations that wait for a call to return
are kept as a stack of frames, and one step does what happens up to the next call or return.  How
many activations there are at once, and what happens between a call and its return, are then
matters of the states in between.

* `Activity`, `Frame`, `Descent` — the innermost activation, those that wait for it, and the state;
* `Supply.step?` — one step, and `Supply.Runs`, steps on top of frames that stay where they are;
* `Supply.comes_descend` — a call returns, on top of the frames that it was made on, with what
  `Supply.descend` comes to.
-/

/-- What the innermost activation is about to do. -/
inductive Activity where
  /-- A rule has been called. -/
  | enter (c : Category)
  /-- A sum or a product is at the head of its loop. -/
  | chain (c : Category)
  /-- A chain of powers is at the head of its loop, with so many operators behind it. -/
  | powers (count : Nat)
  /-- The rule has returned. -/
  | returned
  /-- The rule has returned an error. -/
  | failed (e : CompileError)
  deriving DecidableEq, Repr

/-- **An activation that waits** for the rule that it has called. -/
inductive Frame where
  /-- A sum or a product waits for a link, behind an operator unless it is the first one. -/
  | chain (c : Category) (o? : Option Operator)
  /-- A chain of powers waits for an operand, with so many operators in front of it. -/
  | powers (count : Nat)
  /-- An operand waits for what its sign stands before. -/
  | sign (negative : Bool)
  /-- An operand waits for what is in its parentheses: an argument if there is a function. -/
  | parentheses (function? : Option String)
  deriving DecidableEq, Repr

namespace Frame

/-- The rule that is waited for. -/
def awaited : Frame → Category
  | chain c _ => c.link
  | powers _ => .operand
  | sign _ => .power
  | parentheses _ => .sum

/-- Whether the frame counts as a level. -/
def isLevel : Frame → Bool
  | chain _ _ | powers _ => false
  | sign _ | parentheses _ => true

/-- What is emitted when the rule has returned. -/
def code : Frame → Program
  | chain _ o? => (o?.map .binary).toList
  | powers _ => []
  | sign negative => if negative then [.negate] else []
  | parentheses function? => (function?.map .call).toList

end Frame

/-- The state of a descent: the innermost activation, those that wait, and the parser. -/
structure Descent (σ : Type) where
  activity : Activity
  frames : List Frame
  parser : Parser σ

namespace Supply

variable {σ : Type} (S : Supply σ)

/-- Wait in one more level, if there may be one. -/
def openLevel (f : Frame) (frames : List Frame) (s : Parser σ) : Descent σ :=
  if s.depth < maxNesting then ⟨.enter f.awaited, f :: frames, s.deeper⟩
  else ⟨.failed .tooDeep, frames, s⟩

/-- The rule of operands behind its first token. -/
def startOperand (frames : List Frame) (s : Parser σ) : Token → Descent σ
  | .number text => ⟨.returned, frames, s.emit [.number text]⟩
  | .name text =>
    match S.peek s.input with
    | .token .opening => openLevel (.parentheses (some text)) frames (s.looked.taken S)
    | .fault e => ⟨.failed (.lexical e), frames, s.looked⟩
    | _ => ⟨.returned, frames, s.looked.emit [.constant text]⟩
  | .opening => openLevel (.parentheses none) frames s
  | .operator .sub => openLevel (.sign true) frames s
  | .operator .add => openLevel (.sign false) frames s
  | t => ⟨.failed (.unexpectedToken t), frames, s⟩

/-- The start of a rule. -/
def enter (c : Category) (frames : List Frame) (s : Parser σ) : Descent σ :=
  match S.peek s.input with
  | .token t =>
    match c with
    | .sum | .product => ⟨.enter c.link, .chain c none :: frames, s.looked⟩
    | .power => ⟨.enter .operand, .powers 0 :: frames, s.looked⟩
    | .operand => S.startOperand frames (s.looked.taken S) t
  | .finished => ⟨.failed .missingOperand, frames, s.looked⟩
  | .fault e => ⟨.failed (.lexical e), frames, s.looked⟩

/-- The head of a loop: wait for one more link if its operator is there, else leave the loop. -/
def loop (accept? : Token → Option Frame) (leave : Program) (frames : List Frame) (s : Parser σ) :
    Descent σ :=
  match S.peek s.input with
  | .token t =>
    match accept? t with
    | some f => ⟨.enter f.awaited, f :: frames, s.looked.taken S⟩
    | none => ⟨.returned, frames, s.looked.emit leave⟩
  | .finished => ⟨.returned, frames, s.looked.emit leave⟩
  | .fault e => ⟨.failed (.lexical e), frames, s.looked⟩

/-- The rule that was waited for has returned. -/
def resume (frames : List Frame) (s : Parser σ) (f : Frame) : Descent σ :=
  match f with
  | .chain c _ => ⟨.chain c, frames, s.emit f.code⟩
  | .powers count => ⟨.powers count, frames, s⟩
  | .sign _ => ⟨.returned, frames, s.shallower.emit f.code⟩
  | .parentheses _ =>
    match S.peek s.input with
    | .token .closing => ⟨.returned, frames, (s.looked.taken S).shallower.emit f.code⟩
    | .fault e => ⟨.failed (.lexical e), frames, s.looked.shallower⟩
    | _ => ⟨.failed .unclosed, frames, s.looked.shallower⟩

/-- One step; none after the last rule has returned. -/
def step? : Descent σ → Option (Descent σ)
  | ⟨.enter c, frames, s⟩ => some (S.enter c frames s)
  | ⟨.chain c, frames, s⟩ =>
    some (S.loop (fun t => (c.operator? t).map fun o => .chain c (some o)) [] frames s)
  | ⟨.powers count, frames, s⟩ =>
    some (S.loop (fun t => ((Token.operator .pow).only? t).map fun _ => .powers (count + 1))
      (List.replicate count (.binary .pow)) frames s)
  | ⟨.returned, f :: frames, s⟩ => some (S.resume frames s f)
  | ⟨.failed e, f :: frames, s⟩ =>
    some ⟨.failed e, frames, if f.isLevel then s.shallower else s⟩
  | ⟨.returned, [], _⟩ | ⟨.failed _, [], _⟩ => none

/-- **Steps on top of frames** that stay where they are. -/
inductive Runs (base : List Frame) : Descent σ → Descent σ → Prop where
  | refl (m : Descent σ) : Runs base m m
  | head {m m' m'' : Descent σ} (step : S.step? m = some m') (above : base <:+ m'.frames)
      (later : Runs base m' m'') : Runs base m m''

/-- A state comes to an outcome: it runs until the frames that it stands on are uncovered, and the
    rule has returned then. -/
def Comes (frames : List Frame) (m : Descent σ) {n : Nat} (o : Outcome S n) : Prop :=
  o.Sat (fun s => S.Runs frames m ⟨.returned, frames, s⟩)
    fun e s => S.Runs frames m ⟨.failed e, frames, s⟩

end Supply

namespace Outcome

variable {σ : Type} {S : Supply σ} {n : Nat}

theorem emit_nil (o : Outcome S n) : o.emit [] = o := by
  cases o with
  | ok s fewer => simp only [emit, Parser.emit_nil]
  | error e s => rfl

end Outcome

namespace Supply

variable {σ : Type} {S : Supply σ} {base frames : List Frame} {m m' m'' : Descent σ} {f : Frame}
  {s : Parser σ} {t : Token} {e : LexError} {n k : Nat}

/-! ### Runs -/

theorem frames_resume : (S.resume frames s f).frames = frames := by
  unfold resume
  split
  · rfl
  · rfl
  · rfl
  · split <;> rfl

namespace Runs

theorem trans (h : S.Runs base m m') (h' : S.Runs base m' m'') : S.Runs base m m'' := by
  induction h with
  | refl => exact h'
  | head step above _ ih => exact .head step above (ih h')

theorem tail (h : S.Runs base m m') (step : S.step? m' = some m'')
    (above : base <:+ m''.frames) : S.Runs base m m'' :=
  h.trans (.head step above (.refl m''))

/-- What stays where it is may be counted to what is above. -/
theorem mono {lower : List Frame} (hlower : lower <:+ base) (h : S.Runs base m m') :
    S.Runs lower m m' := by
  induction h with
  | refl m => exact .refl m
  | head step above _ ih => exact .head step (hlower.trans above) ih

theorem uncover (h : S.Runs (f :: base) m m') : S.Runs base m m' := h.mono (List.suffix_cons f base)

/-- The activation that has waited goes on when the rule has returned. -/
theorem resume (h : S.Runs (f :: frames) m ⟨.returned, f :: frames, s⟩) :
    S.Runs frames m (S.resume frames s f) := by
  refine h.uncover.tail rfl ?_
  simp only [frames_resume, List.suffix_rfl]

/-- It closes its level, if it has one, when the rule has returned an error. -/
theorem abandon {e : CompileError} (h : S.Runs (f :: frames) m ⟨.failed e, f :: frames, s⟩) :
    S.Runs frames m ⟨.failed e, frames, if f.isLevel then s.shallower else s⟩ :=
  h.uncover.tail rfl List.suffix_rfl

end Runs

/-! ### Calls that return -/

theorem resume_of_closing {function? : Option String} (h : S.peek s.input = .token .closing) :
    S.resume frames s (.parentheses function?)
      = ⟨.returned, frames,
          (s.looked.taken S).shallower.emit (Frame.parentheses function?).code⟩ := by
  simp only [resume, h]

theorem resume_of_fault {function? : Option String} (h : S.peek s.input = .fault e) :
    S.resume frames s (.parentheses function?)
      = ⟨.failed (.lexical e), frames, s.looked.shallower⟩ := by
  simp only [resume, h]

theorem resume_of_other {function? : Option String} (hsound : ∀ e, S.peek s.input ≠ .fault e)
    (hclosing : S.peek s.input ≠ .token .closing) :
    S.resume frames s (.parentheses function?)
      = ⟨.failed .unclosed, frames, s.looked.shallower⟩ := by
  unfold resume
  dsimp only
  split
  · next h => exact absurd h hclosing
  · next e h => exact absurd h (hsound e)
  · rfl

theorem loop_of_fault {accept? : Token → Option Frame} {leave : Program}
    (h : S.peek s.input = .fault e) :
    S.loop accept? leave frames s = ⟨.failed (.lexical e), frames, s.looked⟩ := by
  simp only [loop, h]

theorem loop_of_accepted {accept? : Token → Option Frame} {leave : Program}
    (h : S.peek s.input = .token t) (hf : accept? t = some f) :
    S.loop accept? leave frames s = ⟨.enter f.awaited, f :: frames, s.looked.taken S⟩ := by
  simp only [loop, h, hf]

theorem loop_of_other {accept? : Token → Option Frame} {leave : Program}
    (hsound : ∀ e, S.peek s.input ≠ .fault e)
    (hother : ∀ t, S.peek s.input = .token t → accept? t = none) :
    S.loop accept? leave frames s = ⟨.returned, frames, s.looked.emit leave⟩ := by
  unfold loop
  split
  · next t h => rw [hother t h]
  · rfl
  · next e h => exact absurd h (hsound e)

theorem suffix_openLevel : frames <:+ (openLevel f frames s).frames := by
  unfold openLevel
  split
  · exact List.suffix_cons f frames
  · exact List.suffix_rfl

theorem suffix_startOperand : frames <:+ (S.startOperand frames s t).frames := by
  unfold startOperand
  split
  · exact List.suffix_rfl
  · split
    · exact suffix_openLevel
    · exact List.suffix_rfl
    · exact List.suffix_rfl
  · exact suffix_openLevel
  · exact suffix_openLevel
  · exact suffix_openLevel
  · exact List.suffix_rfl

theorem suffix_enter {c : Category} : frames <:+ (S.enter c frames s).frames := by
  unfold enter
  split
  · split
    · exact List.suffix_cons _ frames
    · exact List.suffix_cons _ frames
    · exact List.suffix_cons _ frames
    · exact suffix_startOperand
  · exact List.suffix_rfl
  · exact List.suffix_rfl

theorem suffix_loop {accept? : Token → Option Frame} {leave : Program} :
    frames <:+ (S.loop accept? leave frames s).frames := by
  unfold loop
  split
  · split
    · exact List.suffix_cons _ frames
    · exact List.suffix_rfl
  · exact List.suffix_rfl
  · exact List.suffix_rfl

namespace Comes

/-- A step, and what the state after it comes to. -/
theorem step {o : Outcome S n} (hstep : S.step? m = some m') (above : frames <:+ m'.frames)
    (h : S.Comes frames m' o) : S.Comes frames m o :=
  h.mono (fun _ hs => .head hstep above hs) fun _ _ he => .head hstep above he

theorem weaken {o : Outcome S n} (h : S.Comes frames m o) (hle : n ≤ k) :
    S.Comes frames m (o.weaken hle) :=
  Outcome.Sat.weaken h hle

/-- **A call that a chain waits for.**  When it has returned, the chain goes on. -/
theorem bind {o : Outcome S n} {next : (s : Parser σ) → S.size s.input < n → Outcome S k}
    (h : S.Comes (f :: frames) m o) (hlevel : f.isLevel = false)
    (hnext : ∀ s fewer, S.Comes frames (S.resume frames s f) (next s fewer)) :
    S.Comes frames m (o.bind next) := by
  cases o with
  | ok s fewer =>
    have hresume : S.Runs frames m (S.resume frames s f) := h.resume
    exact (hnext s fewer).mono (fun _ => hresume.trans) fun _ _ => hresume.trans
  | error e s =>
    have habandon := Runs.abandon h
    rwa [hlevel] at habandon

/-- **A call behind a sign**, in a level of its own. -/
theorem sign {negative : Bool}
    {rule : (s' : Parser σ) → S.size s'.input = S.size s.input → Outcome S n}
    (hrule : ∀ s' same, S.Comes (.sign negative :: frames)
      ⟨.enter .power, .sign negative :: frames, s'⟩ (rule s' same)) :
    S.Comes frames (openLevel (.sign negative) frames s)
      ((S.nested s rule).emit (Frame.sign negative).code) := by
  refine Outcome.Sat.emit (sat_nested (fun hfull => ?_) fun hroom => ?_)
  · rw [openLevel, if_neg (Nat.not_lt.2 hfull)]
    exact .refl _
  · rw [openLevel, if_pos hroom]
    exact (hrule s.deeper rfl).mono (fun _ h => h.resume) fun _ _ h => h.abandon

/-- **A call in parentheses**, which have to close behind it. -/
theorem parentheses {function? : Option String}
    {rule : (s' : Parser σ) → S.size s'.input = S.size s.input → Outcome S (S.size s'.input)}
    (hrule : ∀ s' same, S.Comes (.parentheses function? :: frames)
      ⟨.enter .sum, .parentheses function? :: frames, s'⟩ (rule s' same)) :
    S.Comes frames (openLevel (.parentheses function?) frames s)
      ((S.enclosed s rule).emit (Frame.parentheses function?).code) := by
  refine Outcome.Sat.emit (sat_nested (fun hfull => ?_) fun hroom => ?_)
  · rw [openLevel, if_neg (Nat.not_lt.2 hfull)]
    exact .refl _
  · rw [openLevel, if_pos hroom]
    have hreturned := (hrule s.deeper rfl).mono (fun _ => Runs.resume) fun _ _ => Runs.abandon
    refine hreturned.bind fun s₂ _ hresume => sat_eat (fun e he => ?_) (fun u a hu ha => ?_)
      fun hsound hother => ?_
    · rwa [resume_of_fault he] at hresume
    · obtain rfl := Token.only?_eq_some.1 ha
      rwa [resume_of_closing hu] at hresume
    · rwa [resume_of_other hsound (peek_ne_of_only? hother)] at hresume

/-- **The start of a rule**: it looks at the next token, which there has to be. -/
theorem require {c : Category} {next : (t : Token) → S.peek s.input = .token t → Outcome S n}
    (hnext : ∀ t (h : S.peek s.input = .token t), S.Comes frames (S.enter c frames s) (next t h)) :
    S.Comes frames ⟨.enter c, frames, s⟩ (S.require s next) := by
  refine step rfl suffix_enter (sat_require (fun h => ?_) (fun e h => ?_) hnext)
  · simp only [enter, h]
    exact .refl _
  · simp only [enter, h]
    exact .refl _

/-- **The head of a loop**, which goes on with one more call or is left. -/
theorem loop {α : Type} {accept? : Token → Option α} (frame : α → Frame) {leave : Program}
    {next : α → (s' : Parser σ) → S.size s'.input < S.size s.input → Outcome S n}
    {other : Outcome S n}
    (hnext : ∀ t a (h : S.peek s.input = .token t),
      S.Comes frames ⟨.enter (frame a).awaited, frame a :: frames, s.looked.taken S⟩
        (next a (s.looked.taken S) (S.next_smaller h)))
    (hother : S.Comes frames ⟨.returned, frames, s.looked.emit leave⟩ other) :
    S.Comes frames (S.loop (fun t => (accept? t).map frame) leave frames s)
      (S.eat accept? s next other) := by
  refine sat_eat (fun e he => ?_) (fun t a ht ha => ?_) fun hsound hnone => ?_
  · rw [loop_of_fault he]
    exact .refl _
  · have haccepted : (accept? t).map frame = some (frame a) := by rw [ha, Option.map_some]
    rw [loop_of_accepted ht haccepted]
    exact hnext t a ht
  · rw [loop_of_other hsound fun t ht => by rw [hnone t ht, Option.map_none]]
    exact hother

/-- **A name**, which is a function if a parenthesis opens behind it. -/
theorem name {text : String}
    {next : Unit → (s' : Parser σ) → S.size s'.input < S.size s.input → Outcome S n}
    {fewer : S.size s.input < n}
    (hnext : ∀ (h : S.peek s.input = .token .opening),
      S.Comes frames (openLevel (.parentheses (some text)) frames (s.looked.taken S))
        (next () (s.looked.taken S) (S.next_smaller h))) :
    S.Comes frames (S.startOperand frames s (.name text))
      (S.eat Token.opening.only? s next (.ok (s.looked.emit [.constant text]) fewer)) := by
  refine sat_eat (fun e he => ?_) (fun t a ht ha => ?_) fun hsound hnone => ?_
  · simp only [startOperand, he]
    exact .refl _
  · obtain rfl := Token.only?_eq_some.1 ha
    simp only [startOperand, ht]
    exact hnext ht
  · have hopening := peek_ne_of_only? hnone
    unfold startOperand
    dsimp only
    split
    · next h => exact absurd h hopening
    · next e he => exact absurd he (hsound e)
    · exact .refl _

end Comes

/-- **A call returns**, on top of the frames that it was made on, with what the procedure comes to
    there. -/
theorem comes_descend (c : Category) (frames : List Frame) (s : Parser σ) :
    S.Comes frames ⟨.enter c, frames, s⟩ (S.descend c s) := by
  -- By the recursion of the rules; the loops are taken up at their heads, on the same frames.
  refine Supply.descend.induct S
    (fun c s => ∀ frames, S.Comes frames ⟨.enter c, frames, s⟩ (S.descend c s))
    (fun count s => ∀ frames, S.Comes frames ⟨.powers count, frames, s⟩ (S.powers count s))
    (fun c s => ∀ frames, S.Comes frames ⟨.chain c, frames, s⟩ (S.leftAssociative c s))
    ?sum ?product ?power ?operand ?powers ?leftAssociative c s frames
  case sum | product | power =>
    intro s link later frames
    rw [Supply.descend]
    apply Comes.require
    intro t h
    simp only [enter, h]
    apply (link _).bind rfl
    intro s₁ h₁
    have hlater := (later s₁ h₁ frames).weaken h₁
    simpa only [resume, Frame.code, Option.map_none, Option.toList_none, Parser.emit_nil]
      using hlater
  case operand =>
    intro s argument group operand frames
    rw [Supply.descend]
    apply Comes.require
    intro t h
    simp only [enter, h]
    rw [advance_eq_ok]
    cases t with
    | number text => exact .refl _
    | name text =>
      refine Comes.name fun hopening => Comes.weaken ?_ _
      exact Comes.parentheses fun s₃ h₃ =>
        argument _ (S.next_smaller h) _ (S.next_smaller hopening) s₃ h₃ _
    | opening =>
      have hgroup : S.Comes frames (openLevel (.parentheses none) frames (s.looked.taken S))
          ((S.enclosed (s.looked.taken S) fun s₂ _ => S.descend .sum s₂).emit []) :=
        Comes.parentheses fun s₂ h₂ => group (s.looked.taken S) (S.next_smaller h) s₂ h₂ _
      rw [Outcome.emit_nil] at hgroup
      exact Comes.weaken hgroup (Nat.le_of_lt (S.next_smaller h))
    | closing => exact .refl _
    | operator o =>
      have hsign (negative : Bool) :
          S.Comes frames (openLevel (.sign negative) frames (s.looked.taken S))
            ((S.nested (s.looked.taken S) fun s₂ h₂ => (S.descend .power s₂).weaken
              (Nat.le_of_lt (h₂ ▸ S.next_smaller h))).emit (Frame.sign negative).code) :=
        Comes.sign fun s₂ h₂ => (operand (s.looked.taken S) (S.next_smaller h) s₂ h₂ _).weaken _
      cases o with
      | add =>
        have hplus := hsign false
        rwa [show (Frame.sign false).code = [] from rfl, Outcome.emit_nil] at hplus
      | sub => exact hsign true
      | mul | div | pow => exact .refl _
  case powers =>
    intro count s operand later frames
    rw [powers]
    refine .step rfl suffix_loop
      (.loop (fun _ => .powers (count + 1)) (fun t a h => ?_) (.refl _))
    apply (operand _ (S.next_smaller h) _).bind rfl
    intro s₂ h₂
    exact (later _ (S.next_smaller h) s₂ h₂ frames).weaken _
  case leftAssociative =>
    intro c s link later frames
    rw [leftAssociative]
    refine .step rfl suffix_loop
      (.loop (fun o => .chain c (some o)) (fun t o h => ?_) ?_)
    · apply (link _ (S.next_smaller h) _).bind rfl
      intro s₂ h₂
      exact (later o _ (S.next_smaller h) s₂ h₂ frames).weaken _
    · rw [Parser.emit_nil]
      exact .refl _

end Supply

end Reckoner
