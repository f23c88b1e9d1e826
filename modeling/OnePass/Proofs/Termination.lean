import OnePass.Proofs.Consumption
import OnePass.Proofs.Translation

/-!
# The pass ends

The productions are given budgets that bound how deep they nest and how often they
repeat.  No budget that is not below the number of tokens ahead is ever used up, since
every level and every round passes a token first: whatever the budget, and whatever is
done where it ends, the pass is the same.  So the productions can be tied together
without any budget, and in one way only.

The pass comes to the end of the input unless it is ended early, and on its way it
reports each scan error of the source once.

## Main definitions

* `State.Within n` — at most `n` tokens lie ahead.
* `Production.Agree n` — two productions do the same where at most `n` tokens lie ahead.
* `Production.Tied` — productions tied together without a budget.
* `scanErrors` — the scan errors of a source.

## Main results

* `Production.Close.succ` — **one level of nesting costs a token**.
* `Production.close_budget` — budgets do not matter.
* `Production.Tied.close` — the productions can be tied together in one way only.
* `parse_comes_to_the_end` — **the pass ends, at the end of the input, with every scan error
  reported**.
-/

namespace OnePass

/-- At most `n` tokens lie ahead, and the last one ends the input.  The token that is looked at
counts as one that lies ahead. -/
structure State.Within (n : Nat) (s : State) : Prop where
  ending : s.Ending
  length_le : s.tokens.length ≤ n

namespace State.Within

variable {m n : Nat} {s s' : State}

theorem of_leads (h : s.Within n) (hleads : s.Leads s') : s'.Within n :=
  ⟨h.ending.of_leads hleads, Nat.le_trans hleads.length_tokens_le h.length_le⟩

/-- Once a token has been passed, one less lies ahead. -/
theorem of_lt (h : s.Within (n + 1)) (hleads : s.Leads s')
    (hlt : s'.tokens.length < s.tokens.length) : s'.Within n :=
  ⟨h.ending.of_leads hleads, by have := h.length_le; omega⟩

theorem mono (h : s.Within m) (hle : m ≤ n) : s.Within n := ⟨h.ending, Nat.le_trans h.length_le hle⟩

/-- The lookahead is always ahead, so no state is within zero tokens. -/
theorem pos (h : s.Within n) : 0 < n := Nat.lt_of_lt_of_le (by simp [tokens]) h.length_le

end State.Within

namespace Production

variable {α β : Type} {n : Nat}

/-! ### Productions that do the same -/

/-- From a state the productions do the same, and go forward only.  They are compared where they
start, and not where they are defined. -/
def AgreeAt (s : State) (p q : Production α) : Prop :=
  p s = q s ∧ Ends p s (fun _ s' => s.Leads s') fun _ _ => True

/-- Where at most `n` tokens lie ahead, the productions do the same, and go forward only. -/
def Agree (n : Nat) (p q : Production α) : Prop := ∀ s : State, s.Within n → AgreeAt s p q

/-- A production may be chosen by the number of tokens ahead, as long as each choice agrees where it
is made. -/
theorem agree_own {p : Production α} {q : Nat → Production α}
    (h : ∀ s : State, s.Within n → AgreeAt s p (q s.tokens.length)) :
    Agree n p fun s => q s.tokens.length s :=
  fun s hs => h s hs

/-- A step after another one has to do the same only where the first one ends. -/
theorem AgreeAt.bind {p q : Production α} {f g : α → Production β} {s : State} (hp : AgreeAt s p q)
    (hf : ∀ a s₁, p s = .ok a s₁ → s.Leads s₁ → AgreeAt s₁ (f a) (g a)) :
    AgreeAt s (p >>= f) (q >>= g) := by
  obtain ⟨heq, hends⟩ := hp
  constructor
  · show EStateM.bind p f s = EStateM.bind q g s
    unfold EStateM.bind
    rw [← heq]
    cases hrun : p s with
    | error e s₁ => rfl
    | ok a s₁ => exact (hf a s₁ hrun (hends.of_ok hrun)).1
  · refine ends_bind.mpr ?_
    unfold Ends at hends ⊢
    cases hrun : p s with
    | error e s₁ => trivial
    | ok a s₁ =>
      rw [hrun] at hends
      exact (hf a s₁ hrun hends).2.imp fun _ _ h => hends.trans h

/-- A production that passes a token if it matches, and otherwise at least goes forward. -/
def Passes (matched : α → Bool) (p : Production α) : Prop :=
  ∀ s : State, s.Ending → Ends p s
    (fun a s' => matched a = true → s'.tokens.length < s.tokens.length) fun _ _ => True

theorem Consumes.passes {matched : α → Bool} {p : Production α} (h : Consumes matched p) :
    Passes matched p :=
  fun s hs => (h s hs).imp fun _ _ ha => ha.1

namespace Agree

variable {p q : Production α} {f g : α → Production β}

/-- Where no token lies ahead, there is no state to compare at. -/
theorem zero : Agree 0 p q := fun _ hs => absurd hs.pos (Nat.lt_irrefl 0)

/-- A production that goes forward agrees with itself. -/
theorem refl (hp : Onward p) : Agree n p p :=
  fun s _ => ⟨rfl, (hp.ends s).mono (fun _ _ h => h) fun _ _ _ => trivial⟩

theorem mono {m : Nat} (h : Agree n p q) (hle : m ≤ n) : Agree m p q :=
  fun s hs => h s (hs.mono hle)

/-- Agreement carries over to productions that are equal on the states in question. -/
theorem trans_eq {q' : Production α} (h : Agree n p q)
    (heq : ∀ s : State, s.Within n → q' s = q s) : Agree n p q' :=
  fun s hs => ⟨(h s hs).1.trans (heq s hs).symm, (h s hs).2⟩

theorem bind (hp : Agree n p q) (hf : ∀ a, Agree n (f a) (g a)) : Agree n (p >>= f) (q >>= g) :=
  fun s hs => (hp s hs).bind fun a s₁ _ hleads => hf a s₁ (hs.of_leads hleads)

/-- A step that both begin with. -/
theorem step (hp : Onward p) (hf : ∀ a, Agree n (f a) (g a)) : Agree n (p >>= f) (p >>= g) :=
  (refl hp).bind hf

/-- After a match one token less lies ahead, so the productions behind it have to agree on less. -/
theorem matching {matched : α → Bool} (hp : Agree (n + 1) p q) (hpass : Passes matched p)
    (hhit : ∀ a, matched a = true → Agree n (f a) (g a))
    (hmiss : ∀ a, matched a = false → Agree (n + 1) (f a) (g a)) :
    Agree (n + 1) (p >>= f) (q >>= g) := by
  refine fun s hs => (hp s hs).bind fun a s₁ hrun hleads => ?_
  cases ha : matched a with
  | true => exact hhit a ha s₁ (hs.of_lt hleads ((hpass s hs.ending).of_ok hrun ha))
  | false => exact hmiss a ha s₁ (hs.of_leads hleads)

theorem option {p q : Production (Option α)} {f g : Option α → Production β}
    (hp : Agree (n + 1) p q) (hpass : Passes Option.isSome p)
    (hsome : ∀ a, Agree n (f (some a)) (g (some a))) (hnone : Agree (n + 1) (f none) (g none)) :
    Agree (n + 1) (p >>= f) (q >>= g) := by
  refine hp.matching hpass (fun a ha => ?_) fun a ha => ?_
  · obtain ⟨a, rfl⟩ := Option.isSome_iff_exists.mp ha
    exact hsome a
  · obtain rfl := Option.isNone_iff_eq_none.mp (Option.isSome_eq_false_iff.mp ha)
    exact hnone

theorem bool {p q : Production Bool} {f g : Bool → Production β} (hp : Agree (n + 1) p q)
    (hpass : Passes id p) (htrue : Agree n (f true) (g true))
    (hfalse : Agree (n + 1) (f false) (g false)) : Agree (n + 1) (p >>= f) (q >>= g) := by
  refine hp.matching hpass (fun a ha => ?_) fun a ha => ?_
  · obtain rfl : a = true := ha
    exact htrue
  · obtain rfl : a = false := ha
    exact hfalse

theorem ite {c : Prop} [Decidable c] {p' q' : Production α} (hp : Agree n p q)
    (hq : Agree n p' q') : Agree n (if c then p else p') (if c then q else q') := by
  split
  · exact hp
  · exact hq

/-- A form that begins with a token of its own.  What is behind the token has one token less
ahead. -/
theorem accepting {kind : Token.Kind} {p q : Production Bool} (hk : kind ≠ .endOfInput)
    (h : Agree n p q) :
    Agree (n + 1) (accept kind >>= fun found => if found = true then p else Pure.pure false)
      (accept kind >>= fun found => if found = true then q else Pure.pure false) :=
  (refl (onward_fine.accept kind)).bool (consumes_accept hk).passes h
    (refl (onward_fine.pure false))

/-- The last step is taken in any case, so it has to go forward only. -/
theorem ensuring {last : Production Unit} (hp : Agree n p q) (hl : Onward last) :
    Agree n (ensuring p last) (ensuring q last) := by
  intro s hs
  obtain ⟨heq, hends⟩ := hp s hs
  constructor
  · unfold Production.ensuring
    rw [heq]
  · refine Ends.ensuring (hends.mono ?_ ?_)
    · exact fun a s₁ h => (hl.ends s₁).mono (fun _ _ h' => h.trans h') fun _ _ _ => trivial
    · exact fun e s₁ _ => ends_of_forall (fun _ _ => trivial) fun _ _ => trivial

end Agree

/-! ### Expressions -/

section

variable {level level' : Production (Option Ty)} {b b' : Nat}

theorem Agree.operand (h : Agree n level level') : Agree n (operand level) (operand level') :=
  h.bind fun ty => by
    cases ty with
    | none => exact .refl (onward_fine.bind (onward_fine.error _) fun _ => onward_fine.pure _)
    | some ty => exact .refl (onward_fine.pure ty)

/-- The rounds of a chain of operators each pass an operator, so the budget is not used up before
the tokens are. -/
theorem Agree.chain {ω : Type} {operators : Operators ω} (h : Agree n level level') (hb : n ≤ b)
    (hb' : n ≤ b') (left : Ty) :
    Agree n (chain operators level b left) (chain operators level' b' left) := by
  -- the budgets are lowered once a round, and so is the number of tokens ahead
  induction n generalizing b b' left with
  | zero => exact .zero
  | succ n ih =>
    obtain ⟨b, rfl⟩ : ∃ c, b = c + 1 := ⟨b - 1, by omega⟩
    obtain ⟨b', rfl⟩ : ∃ c, b' = c + 1 := ⟨b' - 1, by omega⟩
    have hlevel := h.mono (Nat.le_succ n)
    refine .step (onward_fine.view _) fun p => ?_
    refine .option (.refl (onward_fine.accept? _)) (consumes_accept? rfl).passes (fun op => ?_)
      (.refl (onward_fine.pure left))
    refine hlevel.operand.bind fun right =>
      .step (onward_fine.binaryType p _ left right) fun ty => ?_
    exact .step (onward_fine.assemble _) fun _ =>
      ih hlevel (Nat.le_of_succ_le_succ hb) (Nat.le_of_succ_le_succ hb') ty

end

section

variable {primary primary' : Production (Option Ty)} {b b' : Nat}
  (h : Agree (n + 1) primary primary')
  (ho : Onward primary) (hp : Consumes Option.isSome primary) (hb : n ≤ b) (hb' : n ≤ b')

include h hp hb hb' in
/-- A term has its first operand passed when its chain begins, so one round less is needed than
tokens lie ahead. -/
theorem Agree.multiplicative :
    Agree (n + 1) (multiplicative b primary) (multiplicative b' primary') := by
  refine h.option hp.passes (fun left => .ite (.refl (onward_fine.pure _)) ?_)
    (.refl (onward_fine.pure none))
  exact ((h.mono (Nat.le_succ n)).chain hb hb' left).bind fun _ => .refl (onward_fine.pure _)

include h hp hb hb' in
theorem Agree.firstTerm : Agree (n + 1) (firstTerm b primary) (firstTerm b' primary') := by
  have hterm := h.multiplicative hp hb hb'
  refine .step (onward_fine.view _) fun p => ?_
  refine .option (.refl (onward_fine.accept? _)) (consumes_accept? rfl).passes
    (fun sign => ?_) hterm
  refine (hterm.mono (Nat.le_succ n)).operand.bind fun term => ?_
  exact .refl (onward_fine.bind (onward_fine.signedType p sign term) fun _ =>
    onward_fine.bind (onward_fine.emitSign sign) fun _ => onward_fine.pure _)

include h ho hp hb hb'

theorem Agree.additive : Agree (n + 1) (additive b primary) (additive b' primary') := by
  refine (h.firstTerm hp hb hb').option (consumes_firstTerm ho hp b).passes
    (fun left => .ite (.refl (onward_fine.pure _)) ?_) (.refl (onward_fine.pure none))
  have hterm := (h.multiplicative hp hb hb').mono (Nat.le_succ n)
  exact (hterm.chain hb hb' left).bind fun _ => .refl (onward_fine.pure _)

/-- A comparison has one right operand at most, so there is no loop in it. -/
theorem Agree.comparison (left : Ty) :
    Agree (n + 1) (comparison b primary left) (comparison b' primary' left) := by
  refine .step (onward_fine.view _) fun p => .step (onward_fine.accept? _) fun op => ?_
  cases op with
  | none => exact .refl (onward_fine.pure left)
  | some op =>
    refine (h.additive ho hp hb hb').operand.bind fun right => ?_
    exact .refl (onward_fine.bind (onward_fine.check _ p _) fun _ =>
      onward_fine.bind (onward_fine.emit trivial) fun _ => onward_fine.pure _)

theorem Agree.relational : Agree (n + 1) (relational b primary) (relational b' primary') := by
  refine (h.additive ho hp hb hb').bind fun left => ?_
  cases left with
  | none => exact .refl (onward_fine.pure none)
  | some left =>
    refine .ite (.refl (onward_fine.pure _)) ?_
    exact (h.comparison ho hp hb hb' left).bind fun _ => .refl (onward_fine.pure _)

end

section

variable {options : Options} {expression expression' : Production (Option Ty)}
  (h : Agree n expression expression')
include h

/-- A name is passed before its value, if it is assigned one. -/
theorem Agree.named (name : String) (p : Position) :
    Agree n (named options expression name p) (named options expression' name p) := by
  refine .step (onward_fine.view _) fun entity => ?_
  cases entity with
  | none => exact .refl (onward_fine.bind (onward_fine.errorAt _ _) fun _ => onward_fine.pure _)
  | some entity =>
    refine .step (onward_fine.accept _) fun found => .ite ?_ ?_
    · refine .step (onward_fine.view _) fun q => h.operand.bind fun value => ?_
      exact .refl (onward_fine.bind (onward_fine.store entity name p value q) fun _ =>
        onward_fine.bind (onward_fine.expect _) fun _ => onward_fine.pure _)
    · exact .refl (onward_fine.bind (onward_fine.load options entity name p) fun _ =>
        onward_fine.pure _)

/-- An expression in an operand stands behind the first token of the operand.  This is where nesting
costs a token. -/
theorem Agree.primary :
    Agree (n + 1) (primary options expression) (primary options expression') := by
  refine .step (onward_fine.view _) fun p => ?_
  refine .option (.refl (onward_fine.accept? _)) (consumes_accept? rfl).passes (fun atom => ?_)
    (.refl (onward_fine.pure none))
  cases atom with
  | number value => exact .step (onward_fine.emit trivial) fun _ => .refl (onward_fine.pure _)
  | boolean value => exact .step (onward_fine.emit trivial) fun _ => .refl (onward_fine.pure _)
  | name name => exact (h.named name p).bind fun _ => .refl (onward_fine.pure _)

end

/-! ### Statements -/

/-- Forms are tried one by one from the same state, so all of them have to agree there. -/
theorem Agree.firstOf {forms forms' : List (Production Bool)}
    (h : List.Forall₂ (Agree n) forms forms') : Agree n (firstOf forms) (firstOf forms') := by
  induction h with
  | nil => exact .refl (onward_fine.pure false)
  | cons hform _ ih => exact hform.bind fun _ => .ite (.refl (onward_fine.pure true)) ih

section

variable {item item' : Production Bool} {b b' : Nat}

/-- The rounds of a repetition each pass a token, up to the last one. -/
theorem Agree.repeatedly (h : Agree n item item') (hi : Passes id item) (hb : n ≤ b)
    (hb' : n ≤ b') : Agree n (repeatedly item b) (repeatedly item' b') := by
  -- the last round matches nothing, and it too has its place in the budget
  induction n generalizing b b' with
  | zero => exact .zero
  | succ n ih =>
    obtain ⟨b, rfl⟩ : ∃ c, b = c + 1 := ⟨b - 1, by omega⟩
    obtain ⟨b', rfl⟩ : ∃ c, b' = c + 1 := ⟨b' - 1, by omega⟩
    exact h.bool hi (ih (h.mono (Nat.le_succ n)) (Nat.le_of_succ_le_succ hb)
      (Nat.le_of_succ_le_succ hb')) (.refl (onward_fine.pure ()))

theorem Agree.block (h : Agree n item item') (hi : Passes id item) (hb : n ≤ b) (hb' : n ≤ b') :
    Agree (n + 1) (block b item) (block b' item') := by
  refine .accepting (by simp) ((h.repeatedly hi hb hb').bind fun _ => ?_)
  exact .step (onward_fine.expect _) fun _ => .refl (onward_fine.pure true)

end

section

variable {options : Options} {expression expression' : Production (Option Ty)}
  {statement statement' : Production Bool}

theorem Agree.required (h : Agree n statement statement') :
    Agree n (required statement) (required statement') :=
  h.bind fun _ => .refl (mem_ite (onward_fine.pure ()) (onward_fine.error _))

theorem Agree.expressionOf (h : Agree n expression expression') (expected : Ty)
    (mismatch : Ty → ParseError) :
    Agree n (expressionOf expected mismatch expression)
      (expressionOf expected mismatch expression') := by
  refine .step (onward_fine.view _) fun p => h.bind fun ty => ?_
  cases ty with
  | none => exact .refl (onward_fine.error _)
  | some ty => exact .refl (onward_fine.check _ p _)

theorem Agree.condition (h : Agree n expression expression') :
    Agree n (condition expression) (condition expression') :=
  .step (onward_fine.expect _) fun _ => (h.expressionOf _ _).bind fun _ =>
    .refl (onward_fine.expect _)

theorem Agree.alternative (h : Agree n statement statement') (otherwise : Label) :
    Agree n (alternative statement otherwise) (alternative statement' otherwise) := by
  refine .step (onward_fine.accept _) fun _ => .ite ?_ ?_
  · refine .step (onward_fine.assemble .newLabel) fun after => ?_
    refine .step (onward_fine.assemble (.branch after)) fun _ => ?_
    refine .step (onward_fine.assemble (.bindLabel otherwise)) fun _ => h.required.bind fun _ => ?_
    exact .refl (onward_fine.bind (onward_fine.assemble (.bindLabel after)) fun _ =>
      onward_fine.pure ())
  · exact .refl (onward_fine.bind (onward_fine.assemble (.bindLabel otherwise)) fun _ =>
      onward_fine.pure ())

/-- What a conditional is made of stands behind its keyword. -/
theorem Agree.conditional (he : Agree n expression expression')
    (hs : Agree n statement statement') :
    Agree (n + 1) (conditional expression statement) (conditional expression' statement') := by
  refine .accepting (by simp) (he.condition.bind fun _ => ?_)
  refine .step (onward_fine.assemble .newLabel) fun otherwise => ?_
  refine .step (onward_fine.assemble (.branchIfFalse otherwise)) fun _ => ?_
  exact hs.required.bind fun _ => (hs.alternative otherwise).bind fun _ =>
    .refl (onward_fine.pure true)

theorem Agree.rounds (he : Agree n expression expression') (hs : Agree n statement statement')
    (loop : Loop) :
    Agree n (rounds expression statement loop) (rounds expression' statement' loop) := by
  refine .step (onward_fine.assemble (.bindLabel loop.continueLabel)) fun _ => ?_
  refine he.condition.bind fun _ => ?_
  refine .step (onward_fine.assemble (.branchIfFalse loop.breakLabel)) fun _ => ?_
  refine hs.required.bind fun _ => ?_
  refine .step (onward_fine.assemble (.branch loop.continueLabel)) fun _ => ?_
  exact .refl (onward_fine.bind (onward_fine.assemble (.bindLabel loop.breakLabel)) fun _ =>
    onward_fine.pure ())

theorem Agree.loop (he : Agree n expression expression') (hs : Agree n statement statement') :
    Agree (n + 1) (loop expression statement) (loop expression' statement') := by
  refine .accepting (by simp) (.step (onward_fine.assemble .newLabel) fun continueLabel => ?_)
  refine .step (onward_fine.assemble .newLabel) fun breakLabel => .bind ?_ fun _ =>
    .refl (onward_fine.pure true)
  refine .step (onward_fine.adjust fun _ => ⟨_, _, _, _, rfl⟩) fun _ => ?_
  exact (he.rounds hs _).ensuring (onward_fine.adjust fun _ => ⟨_, _, _, _, rfl⟩)

theorem Agree.returnStatement (he : Agree n expression expression') :
    Agree (n + 1) (returnStatement expression) (returnStatement expression') := by
  refine .accepting (by simp) (.step onward_fine.returnType fun expected => ?_)
  refine .bind (.ite (.refl (onward_fine.pure ())) (he.expressionOf _ _)) fun _ => ?_
  exact .step (onward_fine.expect _) fun _ => .step (onward_fine.emit trivial) fun _ =>
    .refl (onward_fine.pure true)

theorem Agree.bugStatement (hs : Agree n statement statement') :
    Agree (n + 1) (bugStatement statement) (bugStatement statement') := by
  refine .step (onward_fine.view _) fun p => .accepting (by simp) (hs.required.bind fun _ => ?_)
  exact .step (onward_fine.expect _) fun _ => .step (onward_fine.warn p _) fun _ =>
    .refl (onward_fine.pure true)

/-- An expression statement begins with its expression, so it has all the tokens ahead that the
statement has. -/
theorem Agree.expressionStatement (he : Agree n expression expression') :
    Agree n (expressionStatement expression) (expressionStatement expression') := by
  refine he.bind fun ty => ?_
  cases ty with
  | none => exact .refl (onward_fine.pure false)
  | some ty =>
    exact .refl (onward_fine.bind (mem_ite (onward_fine.pure ()) (onward_fine.emit trivial))
      fun _ => onward_fine.pure true)

/-- What a statement contains stands behind its first token, save for its own expression. -/
theorem Agree.statementForms {item item' : Production Bool} {b b' : Nat}
    (he : Agree (n + 1) expression expression') (hs : Agree n statement statement')
    (hi : Agree n item item') (hitem : Passes id item) (hb : n ≤ b) (hb' : n ≤ b') :
    List.Forall₂ (Agree (n + 1)) (statementForms options b expression statement item)
      (statementForms options b' expression' statement' item') := by
  -- all other statements pass their keyword before they come to an expression
  have he' := he.mono (Nat.le_succ n)
  have hstop : List.Forall₂ (Agree (n + 1))
      (if options.stopStatements then stopStatements expression else [])
      (if options.stopStatements then stopStatements expression' else []) := by
    split
    · exact .cons he'.returnStatement (.cons (.refl (onward_fine.leaveStatement _ _ _))
        (.cons (.refl (onward_fine.leaveStatement _ _ _)) .nil))
    · exact .nil
  refine .cons (hi.block hitem hb hb') (.cons (he'.conditional hs) (.cons (he'.loop hs) ?_))
  refine .cons he.expressionStatement (.cons (.refl (onward_fine.accept _)) ?_)
  exact .cons (.refl (onward_fine.grammar options).printStatement) (.cons hs.bugStatement hstop)

end

/-! ### Declarations -/

/-- A parameter that is found has passed its type.  If it is refused at its name, nothing is
claimed. -/
theorem passes_formal (ordinal : Nat) : Passes Option.isSome (formal ordinal) := by
  intro s hs
  refine (consumes_accept? rfl s hs).bind fun ty s₁ h => ?_
  cases ty with
  | none => exact fun hsome => nomatch hsome
  | some ty =>
    -- the type has been passed, and what follows it only goes forward
    refine ((onward_fine.formalOf ty ordinal).ends s₁).mono (fun a s' hleads _ => ?_)
      fun _ _ _ => trivial
    exact Nat.lt_of_le_of_lt hleads.length_tokens_le (h.1 rfl)

/-- The rounds of a parameter list each pass a parameter, and with it a token. -/
theorem Agree.formals {b b' : Nat} (hb : n ≤ b) (hb' : n ≤ b') (done : Array Formal) :
    Agree n (formals b done) (formals b' done) := by
  induction n generalizing b b' done with
  | zero => exact .zero
  | succ n ih =>
    obtain ⟨b, rfl⟩ : ∃ c, b = c + 1 := ⟨b - 1, by omega⟩
    obtain ⟨b', rfl⟩ : ∃ c, b' = c + 1 := ⟨b' - 1, by omega⟩
    refine .option (.refl (onward_fine.formal _)) (passes_formal _) (fun parameter => ?_)
      (.refl (onward_fine.pure done))
    refine .step (onward_fine.accept _) fun _ => .ite ?_ (.refl (onward_fine.pure _))
    exact ih (Nat.le_of_succ_le_succ hb) (Nat.le_of_succ_le_succ hb') _

section

variable {item item' : Production Bool} {b b' : Nat} (h : Agree n item item') (hi : Passes id item)
  (hb : n ≤ b) (hb' : n ≤ b')
include h hi hb hb'

/-- The body of a method stands behind its header, but it is enough that it stands behind the
type. -/
theorem Agree.methodRest (entity : EntityId) (returnType : Ty) (name : String) :
    Agree n (methodRest b item entity returnType name)
      (methodRest b' item' entity returnType name) := by
  refine (Agree.formals hb hb' #[]).bind fun parameters => .step (onward_fine.expect _) fun _ => ?_
  refine .step (onward_fine.openMethod entity returnType name parameters.toList) fun id =>
    .bind ?_ ?_
  · refine .step (onward_fine.adjust fun _ => ⟨_, _, _, _, rfl⟩) fun _ => ?_
    refine Agree.ensuring ?_ (onward_fine.adjust fun _ => ⟨_, _, _, _, rfl⟩)
    refine ((h.block hi hb hb').mono (Nat.le_succ n)).bind fun _ => ?_
    exact .refl (mem_ite (onward_fine.pure ()) (onward_fine.error _))
  · exact fun _ => .refl (onward_fine.bind (onward_fine.assemble .endMethod) fun _ =>
      onward_fine.pure ())

theorem Agree.method (returnType : Ty) (name : String) (p : Position) :
    Agree n (method b item returnType name p) (method b' item' returnType name p) := by
  refine .step (onward_fine.checkFresh _ _ _) fun _ => ?_
  refine .step (onward_fine.scope (.declareMethod name returnType)) fun entity => ?_
  refine .step (onward_fine.scope .enter) fun _ => .step (onward_fine.view _) fun loops => ?_
  refine .step (onward_fine.adjust fun _ => ⟨_, _, _, _, rfl⟩) fun _ => ?_
  refine (h.methodRest hi hb hb' entity returnType name).ensuring ?_
  exact onward_fine.bind (onward_fine.adjust fun _ => ⟨_, _, _, _, rfl⟩) fun _ =>
    onward_fine.scope .exit

/-- What a declaration contains stands behind its type, which is passed before anything else is
decided. -/
theorem Agree.declarationForm :
    Agree (n + 1) (declarationForm b item) (declarationForm b' item') := by
  refine .option (.refl (onward_fine.accept? _)) (consumes_accept? rfl).passes (fun ty => ?_)
    (.refl (onward_fine.pure false))
  refine .bind ?_ fun _ => .refl (onward_fine.pure true)
  refine .step (onward_fine.view _) fun p => .step (onward_fine.accept? _) fun name => ?_
  cases name with
  | none => exact .refl (onward_fine.error _)
  | some name =>
    refine .step (onward_fine.accept _) fun _ => .ite ?_ (.refl (onward_fine.field ty name p))
    exact h.method hi hb hb' ty name p

end

theorem Agree.itemOf {declaration declaration' statement statement' : Production Bool}
    (hd : Agree n declaration declaration') (hs : Agree n statement statement') :
    Agree n (itemOf declaration statement) (itemOf declaration' statement') :=
  .step (onward_fine.adjust fun _ => ⟨_, _, _, _, rfl⟩) fun _ => .firstOf (.cons hd (.cons hs .nil))

/-! ### Levels of nesting -/

variable {options : Options}

/-- With any budget that is not below `n`, the productions of the grammar do the same as the given
ones where at most `n` tokens lie ahead. -/
def Close (options : Options) (n : Nat) (expression : Production (Option Ty))
    (declaration statement : Production Bool) : Prop :=
  ∀ budget, n ≤ budget → Agree n (Production.expression options budget) expression ∧
    Agree n (Production.declaration options budget) declaration ∧
    Agree n (Production.statement options budget) statement

section

variable {expression expression' : Production (Option Ty)}
  {declaration declaration' statement statement' : Production Bool}

theorem Close.zero : Close options 0 expression declaration statement :=
  fun _ _ => ⟨.zero, .zero, .zero⟩

/-- **One level of nesting costs a token**, so productions made of close ones are closer.  The
rounds of the loops need not be as many as the budget is. -/
theorem Close.succ (h : Close options n expression declaration statement) {rounds : Nat}
    (hrounds : n ≤ rounds)
    (he : ∀ s : State, s.Within (n + 1) →
      expression' s = relational rounds (primary options expression) s)
    (hd : ∀ s : State, s.Within (n + 1) →
      declaration' s = declarationForm rounds (itemOf declaration statement) s)
    (hs : ∀ s : State, s.Within (n + 1) → statement' s =
      firstOf (statementForms options rounds expression' statement
        (itemOf declaration statement)) s) :
    Close options (n + 1) expression' declaration' statement' := by
  intro budget hbudget
  obtain ⟨budget, rfl⟩ : ∃ c, budget = c + 1 := ⟨budget - 1, by omega⟩
  have hle : n ≤ budget := Nat.le_of_succ_le_succ hbudget
  obtain ⟨hexpression, hdeclaration, hstatement⟩ := h budget hle
  have hitem := hdeclaration.itemOf hstatement
  have hpass := (consumes_item options budget).passes
  -- expressions come first, since statements contain them with all tokens still ahead
  have hnext : Agree (n + 1) (Production.expression options (budget + 1)) expression' := by
    have honward := onward_expression options budget
    exact (hexpression.primary.relational ((onward_fine.grammar options).primary honward)
      (consumes_primary honward) hle hrounds).trans_eq he
  simp only [Production.declaration, Production.statement]
  exact ⟨hnext, (hitem.declarationForm hpass hle hrounds).trans_eq hd,
    (Agree.firstOf (hnext.statementForms hstatement hitem hpass hle hrounds)).trans_eq hs⟩

end

/-- Budgets that are not below the number of tokens ahead do not matter. -/
theorem close_budget (options : Options) {budget : Nat} (h : n ≤ budget) :
    Close options n (expression options budget) (declaration options budget)
      (statement options budget) := by
  induction n generalizing budget with
  | zero => exact .zero
  | succ n ih =>
    obtain ⟨budget, rfl⟩ : ∃ c, budget = c + 1 := ⟨budget - 1, by omega⟩
    have hle : n ≤ budget := Nat.le_of_succ_le_succ h
    refine (ih hle).succ hle (fun _ _ => rfl) (fun _ _ => ?_) fun _ _ => ?_
    · -- `declaration` and `statement` recurse together, so neither unfolds by `rfl`
      simp only [declaration]
    · simp only [statement]

/-- In particular they do not matter for items. -/
theorem agree_item {budget budget' : Nat} (h : n ≤ budget) (h' : n ≤ budget') :
    Agree n (item options budget) (item options budget') := by
  obtain ⟨-, hdeclaration, hstatement⟩ := close_budget options h' budget h
  exact hdeclaration.itemOf hstatement

/-- Productions tied together without a budget: each of them is its form made of the others,
whatever bounds the rounds of its loops, as long as there are as many rounds as tokens. -/
structure Tied (options : Options) (expression : Production (Option Ty))
    (declaration statement : Production Bool) : Prop where
  expression_eq : ∀ n (s : State), s.Within n →
    expression s = relational n (primary options expression) s
  declaration_eq : ∀ n (s : State), s.Within n →
    declaration s = declarationForm n (itemOf declaration statement) s
  statement_eq : ∀ n (s : State), s.Within n → statement s =
    firstOf (statementForms options n expression statement (itemOf declaration statement)) s

/-- Productions can be tied together in one way only: where they differ, they would do so after
fewer tokens already. -/
theorem Tied.close {expression : Production (Option Ty)} {declaration statement : Production Bool}
    (h : Tied options expression declaration statement) (n : Nat) :
    Close options n expression declaration statement := by
  induction n with
  | zero => exact .zero
  | succ n ih =>
    exact ih.succ (Nat.le_succ n) (h.expression_eq (n + 1)) (h.declaration_eq (n + 1))
      (h.statement_eq (n + 1))

/-- Productions that do the same as those with enough budget are tied together. -/
theorem tied_of_close {expression : Production (Option Ty)}
    {declaration statement : Production Bool}
    (h : ∀ n, Close options n expression declaration statement) :
    Tied options expression declaration statement := by
  -- both sides of an equation agree with the productions of budget `n + 1`; a statement is made
  -- of the tied expression already, so expressions come first
  have hexpression (n : Nat) (s : State) (hs : s.Within (n + 1)) :
      expression s = relational n (primary options expression) s := by
    have hnext : Close options (n + 1) (relational n (primary options expression))
        (declarationForm n (itemOf declaration statement))
        (firstOf (statementForms options n (relational n (primary options expression)) statement
          (itemOf declaration statement))) :=
      (h n).succ n.le_refl (fun _ _ => rfl) (fun _ _ => rfl) fun _ _ => rfl
    have heq := ((h (n + 1) (n + 1) n.succ.le_refl).1 s hs).1
    exact heq.symm.trans ((hnext (n + 1) n.succ.le_refl).1 s hs).1
  have hnext (n : Nat) : Close options (n + 1) expression
      (declarationForm n (itemOf declaration statement))
      (firstOf (statementForms options n expression statement (itemOf declaration statement))) :=
    (h n).succ n.le_refl (hexpression n) (fun _ _ => rfl) fun _ _ => rfl
  refine ⟨fun n s hs => hexpression n s (hs.mono n.le_succ), fun n s hs => ?_, fun n s hs => ?_⟩
  · have heq := ((h (n + 1) (n + 1) n.succ.le_refl).2.1 s (hs.mono n.le_succ)).1
    exact heq.symm.trans ((hnext n (n + 1) n.succ.le_refl).2.1 s (hs.mono n.le_succ)).1
  · have heq := ((h (n + 1) (n + 1) n.succ.le_refl).2.2 s (hs.mono n.le_succ)).1
    exact heq.symm.trans ((hnext n (n + 1) n.succ.le_refl).2.2 s (hs.mono n.le_succ)).1

/-- The productions can be tied together without a budget.  Each one counts the tokens ahead, and
takes that for its budget. -/
theorem exists_tied (options : Options) :
    ∃ expression declaration statement, Tied options expression declaration statement := by
  refine ⟨fun s => expression options s.tokens.length s,
    fun s => declaration options s.tokens.length s,
    fun s => statement options s.tokens.length s, tied_of_close fun n budget hbudget => ?_⟩
  -- each state brings the budget it needs along
  have hown (s : State) (hs : s.Within n) :=
    close_budget options (Nat.le_refl s.tokens.length) budget
      (Nat.le_trans hs.length_le hbudget)
  refine ⟨agree_own fun s hs => ?_, agree_own fun s hs => ?_, agree_own fun s hs => ?_⟩
  · exact (hown s hs).1 s ⟨hs.ending, Nat.le_refl _⟩
  · exact (hown s hs).2.1 s ⟨hs.ending, Nat.le_refl _⟩
  · exact (hown s hs).2.2 s ⟨hs.ending, Nat.le_refl _⟩

/-! ### Items up to the end of the input -/

section

variable {item item' : Production Bool} {s : State}

/-- An item, or what is skipped in its place, passes a token. -/
theorem itemOrSkip_passes (hi : Consumes id item) (hs : s.Ending) (hend : s.atEnd = false) :
    Ends (itemOrSkip item) s (fun _ s' => s'.tokens.length < s.tokens.length) fun _ _ => True := by
  refine (hi s hs).bind fun matched s₁ h => ?_
  -- the item was no match and passed nothing, so the token is there to be skipped
  cases matched with
  | true => exact h.1 rfl
  | false =>
    have heq := h.2 rfl
    generalize s₁.recovering = recovering at heq
    subst heq
    exact State.length_skipUnexpected_lt (s := { s with recovering }) hs hend

theorem Agree.itemOrSkip (h : Agree n item item') :
    Agree n (itemOrSkip item) (itemOrSkip item') :=
  h.bind fun _ => .refl (mem_ite (onward_fine.pure ()) onward_fine.skipUnexpected)

/-- The rounds of the pass each pass a token, up to the end of the input, where they stop whatever
the budget is. -/
theorem Agree.items {b b' : Nat} (h : Agree n item item') (hi : Consumes id item) (hb : n ≤ b)
    (hb' : n ≤ b') : Agree n (items item b) (items item' b') := by
  induction n generalizing b b' with
  | zero => exact .zero
  | succ n ih =>
    obtain ⟨b, rfl⟩ : ∃ c, b = c + 1 := ⟨b - 1, by omega⟩
    obtain ⟨b', rfl⟩ : ∃ c, b' = c + 1 := ⟨b' - 1, by omega⟩
    intro s hs
    refine (Agree.refl (onward_fine.view State.atEnd) s hs).bind fun atEnd s₁ hrun _ => ?_
    obtain ⟨rfl, rfl⟩ := EStateM.Result.ok.inj hrun
    cases hend : s.atEnd with
    | true => exact Agree.refl (onward_fine.pure ()) s hs
    | false =>
      refine (h.itemOrSkip s hs).bind fun _ s₁ hrun hleads => ?_
      exact ih (h.mono n.le_succ) (Nat.le_of_succ_le_succ hb) (Nat.le_of_succ_le_succ hb') s₁
        (hs.of_lt hleads ((itemOrSkip_passes hi hs.ending hend).of_ok hrun))

/-- With enough budget the items end at the end of the input, and not because the budget is used
up. -/
theorem items_atEnd {b : Nat} (ho : Onward item) (hi : Consumes id item) (hs : s.Within b) :
    Ends (Production.items item b) s (fun _ s' => s'.atEnd = true) fun _ _ => True := by
  induction b generalizing s with
  | zero => exact absurd hs.pos (Nat.lt_irrefl 0)
  | succ b ih =>
    refine ends_bind.mpr (ends_view.mpr ?_)
    cases hend : s.atEnd with
    | true => exact hend
    | false =>
      have honward : Onward (Production.itemOrSkip item) :=
        onward_fine.bind ho fun _ => mem_ite (onward_fine.pure ()) onward_fine.skipUnexpected
      refine (honward.ends_and (itemOrSkip_passes hi hs.ending hend)).bind ?_
      rintro _ s₁ ⟨hleads, hlt⟩
      exact ih (hs.of_lt hleads hlt)

end

/-- Every production of the grammar consumes what it matches: if it matches it has passed a token,
and otherwise it has passed none. -/
structure Consuming (options : Options) (budget : Nat) : Prop where
  primary : Consumes Option.isSome (primary options (expression options budget))
  multiplicative : Consumes Option.isSome
    (multiplicative budget (Production.primary options (expression options budget)))
  additive : Consumes Option.isSome
    (additive budget (Production.primary options (expression options budget)))
  expression : Consumes Option.isSome (expression options budget)
  statementForm : ∀ form ∈ statementForms options budget
    (Production.expression options (budget + 1)) (statement options budget) (item options budget),
    Consumes id form
  statement : Consumes id (statement options budget)
  declaration : Consumes id (declaration options budget)
  item : Consumes id (item options budget)

theorem consuming (options : Options) (budget : Nat) : Consuming options budget := by
  have hexpression := onward_expression options budget
  have honward := (onward_fine.grammar options).primary hexpression
  have hprimary : Consumes Option.isSome (primary options (expression options budget)) :=
    consumes_primary hexpression
  have hall := consumes_declaration_and_statement options budget
  refine ⟨hprimary, consumes_multiplicative honward hprimary budget,
    consumes_additive honward hprimary budget, consumes_expression options budget, ?_,
    hall.2, hall.1, consumes_item options budget⟩
  exact consumes_of_mem_statementForms (onward_expression options (budget + 1))
    ((onward_fine.grammar options).declaration_and_statement budget).2
    ((onward_fine.grammar options).item budget) (consumes_expression options (budget + 1)) budget

end Production

/-! ### Scan errors -/

/-- The scan error that was read, if it was one. -/
def Reading.scanError? : Reading → Option ScanError
  | .error e => some e
  | .ok _ => none

/-- The scan errors that reading a source up to the end of its input gives. -/
def scanErrors (source : String) : List ScanError := (read source).filterMap Reading.scanError?

/-- The scan errors that have been reported, without the other reports between them. -/
def State.scanErrors (s : State) : List ScanError := s.reports.filterMap Diagnostic.scan?

variable {options : Options} {source : String}

/-- The lexemes of a source carry its scan errors, each before the token behind it. -/
theorem flatMap_errors_lexemes (source : String) :
    (lexemes source).flatMap Lexeme.errors = scanErrors source := by
  obtain ⟨front, p, hread, -⟩ := exists_read_eq source
  have hreadings := Lexeme.flatMap_readings_group front ⟨.endOfInput, p⟩
  rw [← hread] at hreadings
  have herrors (l : Lexeme) : l.readings.filterMap Reading.scanError? = l.errors := by
    simp [Lexeme.readings, Reading.scanError?, List.filterMap_map, Function.comp_def]
  rw [scanErrors, ← hreadings, List.filterMap_flatMap]
  simp only [herrors]
  rfl

/-- On its way the pass reports the scan errors of the lexemes it has passed, and no others. -/
theorem State.Leads.scanErrors_eq {s : State} (h : (State.start (lexemes source)).Leads s) :
    ∃ passed, lexemes source = passed ++ s.rest ∧ s.scanErrors = passed.flatMap Lexeme.errors := by
  obtain ⟨passed, added, hpassed, -, hreports, hscan⟩ := h
  refine ⟨passed, hpassed, ?_⟩
  rw [State.scanErrors, hreports, ← hscan]
  rfl

/-! ### Whole sources -/

open Production

/-- The last token of a source ends its input, and it is the only one that does. -/
theorem ending_start (source : String) : (State.start (lexemes source)).Ending := by
  have hlast := (State.Leads.advance (.start (lexemes source))).getLast?_kinds
  rw [State.kinds_advance_start, getLast?_sourceKinds] at hlast
  exact hlast.symm

/-- At the first token as many tokens lie ahead as the source has. -/
theorem begunState_within (source : String) (assembler : Assembler) (log : Array Event) :
    (begunState source assembler log).Within (lexemes source).length := by
  have hkinds : (begunState source assembler log).kinds = sourceKinds source :=
    State.kinds_advance_start source
  refine ⟨by rw [State.Ending, hkinds]; exact getLast?_sourceKinds source, Nat.le_of_eq ?_⟩
  have hlength := congrArg List.length hkinds
  simpa [State.kinds, sourceKinds] using hlength

/-- However the pass ends, it has gone forward from the beginning of the source. -/
theorem program_leads (options : Options) (budget : Nat) (source : String) :
    Ends (program options budget) (.start (lexemes source))
      (fun _ s => (State.start (lexemes source)).Leads s)
      fun _ s => (State.start (lexemes source)).Leads s := by
  have hitems := (onward_fine.grammar options).items budget budget
  have hprogram : Onward (program options budget) := by
    have hadvance : Onward (modify State.advance) := ⟨fun s => .advance s⟩
    refine onward_fine.bind hadvance fun _ =>
      onward_fine.bind (onward_fine.assemble _) fun entry => ?_
    refine onward_fine.bind (onward_fine.adjust fun _ => ⟨_, _, _, _, rfl⟩) fun _ => ?_
    exact onward_fine.bind hitems fun _ => onward_fine.view _
  exact hprogram.ends _

/-- A budget beyond the number of tokens of the source makes no difference to the pass. -/
theorem program_budget (options : Options) {budget : Nat} (h : (lexemes source).length ≤ budget) :
    program options budget (.start (lexemes source)) =
      program options (lexemes source).length (.start (lexemes source)) := by
  obtain ⟨assembler, log, -, hprogram⟩ := program_eq options source
  rw [hprogram, hprogram]
  have hitems := (agree_item h (Nat.le_refl _)).items (consumes_item options budget) h
    (Nat.le_refl _)
  exact (hitems.bind (g := fun _ => view _) (fun _ => .refl (onward_fine.view _)) _
    (begunState_within source assembler log)).1

/-- A pass that ends well has passed the whole input, and answers whether there were errors. -/
theorem program_ok {matched : Bool} {s : State}
    (h : program options (lexemes source).length (.start (lexemes source)) = .ok matched s) :
    s.atEnd = true ∧ s.rest = [] ∧ (matched = true ↔ s.Clean) := by
  obtain ⟨assembler, log, -, hprogram⟩ := program_eq options source
  rw [hprogram] at h
  obtain ⟨_, s', hitems, hview⟩ := bind_eq_ok.mp h
  obtain ⟨rfl, rfl⟩ := EStateM.Result.ok.inj hview
  have hend := (items_atEnd ((onward_fine.grammar options).item _) (consumes_item options _)
    (begunState_within source assembler log)).of_ok hitems
  have hbegun : (begunState source assembler log).kinds = sourceKinds source :=
    State.kinds_advance_start source
  have : Onward (items (item options (lexemes source).length) (lexemes source).length) :=
    (onward_fine.grammar options).items _ _
  refine ⟨hend, rest_eq_nil_of_atEnd (hbegun ▸ (leads_of_ok hitems).kinds_suffix) hend, ?_⟩
  rw [decide_eq_true_iff, State.errorCount_eq_zero]
  exact and_iff_left hend

/-- **The pass ends, at the end of the input, with every scan error reported.**

The productions can be tied together without a budget, in one way only, and with as much budget
as there are tokens ahead they do the same; a larger budget changes nothing.  On all states of
the pass a production that matches has passed a token, one that does not match has passed none,
and recovering passes a token unless the input is at its end.  If the pass ends well, the whole
input has been passed, the answer is whether no error was reported, and the scan errors reported
are those of the source, in order; if it is ended early, they are the first of those. -/
theorem parse_comes_to_the_end (options : Options) (source : String) :
    ((∃ expression declaration statement, Tied options expression declaration statement) ∧
      (∀ expression declaration statement, Tied options expression declaration statement →
        ∀ n (s : State), s.Within n → Production.expression options n s = expression s ∧
          Production.declaration options n s = declaration s ∧
          Production.statement options n s = statement s) ∧
      ∀ budget, (lexemes source).length ≤ budget →
        program options budget (.start (lexemes source)) =
          program options (lexemes source).length (.start (lexemes source))) ∧
    ((∀ s, (State.start (lexemes source)).Leads s → s.Ending) ∧
      (∀ budget, Consuming options budget) ∧
      ∀ s : State, s.Ending → s.atEnd = false → s.recover.tokens.length < s.tokens.length) ∧
    (∀ matched, (parse options source).outcome = .ok matched →
      (parse options source).state.atEnd = true ∧
      (matched = true ↔ (parse options source).state.Clean) ∧
      (parse options source).state.scanErrors = scanErrors source) ∧
    ∀ halt, (parse options source).outcome = .error halt →
      (parse options source).state.scanErrors <+: scanErrors source := by
  have hleads := program_leads options (lexemes source).length source
  refine ⟨⟨exists_tied options, ?_, fun _ => program_budget options⟩,
    ⟨?_, consuming options, fun _ => State.length_recover_lt⟩, ?_, ?_⟩
  · intro expression declaration statement htied n s hs
    obtain ⟨hexpression, hdeclaration, hstatement⟩ := htied.close n n n.le_refl
    exact ⟨(hexpression s hs).1, (hdeclaration s hs).1, (hstatement s hs).1⟩
  · exact fun _ hs => (ending_start source).of_leads hs
  · -- at the end of the input nothing is left that could have been passed over
    intro matched hmatched
    cases hrun : program options (lexemes source).length (.start (lexemes source)) with
    | error e s => simp [parse_of_error hrun] at hmatched
    | ok found s =>
      rw [parse_of_ok hrun] at hmatched ⊢
      obtain rfl : found = matched := by simpa using hmatched
      obtain ⟨hend, hrest, hclean⟩ := program_ok hrun
      obtain ⟨passed, hpassed, hscan⟩ := (hleads.of_ok hrun).scanErrors_eq
      rw [hrest, List.append_nil] at hpassed
      exact ⟨hend, hclean, by rw [hscan, ← hpassed, flatMap_errors_lexemes]⟩
  · -- a pass that ended early has passed a part of the lexemes, and so reported the first errors
    intro halt hhalt
    cases hrun : program options (lexemes source).length (.start (lexemes source)) with
    | ok found s => simp [parse_of_ok hrun] at hhalt
    | error e s =>
      rw [parse_of_error hrun]
      unfold Ends at hleads
      rw [hrun] at hleads
      obtain ⟨passed, hpassed, hscan⟩ := hleads.scanErrors_eq
      refine ⟨s.rest.flatMap Lexeme.errors, ?_⟩
      rw [hscan, ← List.flatMap_append, ← hpassed, flatMap_errors_lexemes]

/-- A pass that skips faulty statements up to a stray parenthesis, and reports the scan errors in
them. -/
theorem parse_comes_to_the_end_skipping :
    let parsed := parse {} "x @ 1; int $ y; )"
    parsed.outcome = .ok false ∧ parsed.state.atEnd = true ∧ ¬ parsed.state.Clean ∧
      parsed.state.scanErrors =
        [⟨⟨1, 3⟩, .unexpectedCharacter '@'⟩, ⟨⟨1, 12⟩, .unexpectedCharacter '$'⟩] := by
  have houtcome : (parse {} "x @ 1; int $ y; )").outcome = .ok false :=
    eq_ok_of_toOption (by decide +kernel)
  obtain ⟨hend, hclean, hscan⟩ := (parse_comes_to_the_end {} _).2.2.1 false houtcome
  refine ⟨houtcome, hend, fun h => absurd (hclean.mpr h) (by simp), hscan.trans ?_⟩
  decide +kernel

end OnePass
