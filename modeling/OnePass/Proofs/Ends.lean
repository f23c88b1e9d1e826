import OnePass.Production.Item

/-!
# How productions end

A production run from a state ends well, with an answer, or early, and leaves a state in
either case.  What holds at its end is derived from what holds at the ends of its steps.

## Main definitions

* `Production.Ends` — how a production ends when it is run from a state.

## Main results

* `Production.ends_bind`, `Production.Ends.bind`, `Production.Ends.ensuring` — one step after
  another.
* `Production.bind_eq_ok` — a sequence that succeeds is made of steps that succeed.
-/

namespace OnePass.Production

variable {α β : Type}

/-- A production run from `s` ends well with `Q` of its answer and the state it leaves, or early
with `E` of the reason and that state.  There is no third way, so `E` that is never true says that
the production ends well. -/
def Ends (p : Production α) (s : State) (Q : α → State → Prop) (E : Halt → State → Prop) :
    Prop :=
  match p s with
  | .ok a s' => Q a s'
  | .error h s' => E h s'

section

variable {p : Production α} {f : α → Production β} {s : State} {E : Halt → State → Prop}

@[simp] theorem ends_pure {a : α} {Q : α → State → Prop} :
    Ends (pure a : Production α) s Q E ↔ Q a s := Iff.rfl

theorem ends_bind {Q : β → State → Prop} :
    Ends (p >>= f) s Q E ↔ Ends p s (fun a s' => Ends (f a) s' Q E) E := by
  unfold Ends
  show (match EStateM.bind p f s with | .ok a s' => Q a s' | .error h s' => E h s') ↔ _
  unfold EStateM.bind
  cases p s <;> rfl

@[simp] theorem ends_modify {g : State → State} {Q : Unit → State → Prop} :
    Ends (modify g : Production Unit) s Q E ↔ Q () (g s) := Iff.rfl

@[simp] theorem ends_view {g : State → α} {Q : α → State → Prop} :
    Ends (view g) s Q E ↔ Q (g s) s := Iff.rfl

@[simp] theorem ends_halt {h : Halt} {Q : α → State → Prop} :
    Ends (halt h : Production α) s Q E ↔ E h s := Iff.rfl

/-- A token is passed if it matches, and otherwise nothing happens.  Either way the production ends
well. -/
theorem ends_accept? {select : Token.Kind → Option α} {Q : Option α → State → Prop}
    (hsome : ∀ a, s.current?.bind select = some a → Q (some a) s.advance)
    (hnone : s.current?.bind select = none → Q none s) : Ends (accept? select) s Q E := by
  unfold Ends accept?
  cases h : s.current?.bind select with
  | none => exact hnone h
  | some a => exact hsome a h

theorem ends_accept {kind : Token.Kind} {Q : Bool → State → Prop}
    (htrue : s.current? = some kind → Q true s.advance)
    (hfalse : s.current? ≠ some kind → Q false s) : Ends (accept kind) s Q E := by
  unfold Ends accept
  by_cases h : s.current? = some kind
  · rw [if_pos h]
    exact htrue h
  · rw [if_neg h]
    exact hfalse h

/-- A call to the assembler changes the program and the log only, whether it is granted or not. -/
theorem ends_assemble {c : Assembler.Call} {Q : c.Answer → State → Prop}
    (hQ : ∀ x assembler log, Q x { s with assembler, log })
    (hE : ∀ f assembler log, E (.broken f) { s with assembler, log }) :
    Ends (assemble c) s Q E := by
  unfold Ends
  rw [assemble_apply]
  cases c.perform ⟨s.assembler, s.log⟩ with
  | ok x l => exact hQ x _ _
  | error f l => exact hE f _ _

/-- A call to the scopes changes the scopes and the log only. -/
theorem ends_scope {c : Scopes.Call} {Q : c.Answer → State → Prop}
    (hQ : ∀ x scopes log, Q x { s with scopes, log })
    (hE : ∀ f scopes log, E (.broken f) { s with scopes, log }) : Ends (scope c) s Q E := by
  unfold Ends
  rw [scope_apply]
  cases c.perform ⟨s.scopes, s.log⟩ with
  | ok x l => exact hQ x _ _
  | error f l => exact hE f _ _

theorem Ends.mono {Q Q' : α → State → Prop} {E' : Halt → State → Prop} (h : Ends p s Q E)
    (hQ : ∀ a s', Q a s' → Q' a s') (hE : ∀ e s', E e s' → E' e s') : Ends p s Q' E' := by
  unfold Ends at h ⊢
  cases hp : p s with
  | ok a s' => rw [hp] at h; exact hQ a s' h
  | error e s' => rw [hp] at h; exact hE e s' h

/-- How a production is ended early stays as it is, if only more is concluded for when it ends
well. -/
theorem Ends.imp {Q Q' : α → State → Prop} (h : Ends p s Q E) (hQ : ∀ a s', Q a s' → Q' a s') :
    Ends p s Q' E :=
  h.mono hQ fun _ _ he => he

/-- A production that is not ended early, whatever would be known if it were. -/
theorem Ends.safely {Q : α → State → Prop} (h : Ends p s Q fun _ _ => False) : Ends p s Q E :=
  h.mono (fun _ _ hQ => hQ) fun _ _ he => he.elim

theorem Ends.and {Q Q' : α → State → Prop} {E' : Halt → State → Prop} (h : Ends p s Q E)
    (h' : Ends p s Q' E') :
    Ends p s (fun a s' => Q a s' ∧ Q' a s') fun e s' => E e s' ∧ E' e s' := by
  unfold Ends at h h' ⊢
  cases hp : p s with
  | ok a s' => rw [hp] at h h'; exact ⟨h, h'⟩
  | error e s' => rw [hp] at h h'; exact ⟨h, h'⟩

/-- What holds anyway holds at the end, whatever the production does. -/
theorem ends_of_forall {Q : α → State → Prop} (hQ : ∀ a s', Q a s') (hE : ∀ e s', E e s') :
    Ends p s Q E := by
  unfold Ends
  split
  · exact hQ _ _
  · exact hE _ _

/-- A step after another one: what the first one tells is all that is known. -/
theorem Ends.bind {Q : α → State → Prop} {Q' : β → State → Prop} (h : Ends p s Q E)
    (hf : ∀ a s', Q a s' → Ends (f a) s' Q' E) : Ends (p >>= f) s Q' E :=
  ends_bind.mpr (h.imp hf)

/-- A production that is known to succeed. -/
theorem ends_of_ok {Q : α → State → Prop} {a : α} {s' : State} (hp : p s = .ok a s')
    (h : Q a s') : Ends p s Q E := by
  unfold Ends
  rwa [hp]

/-- What holds at the end of a production that succeeds. -/
theorem Ends.of_ok {Q : α → State → Prop} {a : α} {s' : State} (h : Ends p s Q E)
    (hp : p s = .ok a s') : Q a s' := by
  unfold Ends at h
  rwa [hp] at h

/-- A sequence that succeeds is made of steps that succeed, the second one run on what the first one
leaves. -/
theorem bind_eq_ok {b : β} {s' : State} :
    (p >>= f) s = .ok b s' ↔ ∃ a s₁, p s = .ok a s₁ ∧ f a s₁ = .ok b s' := by
  show EStateM.bind p f s = _ ↔ _
  unfold EStateM.bind
  cases hp : p s with
  | ok a s₁ =>
    refine ⟨fun h => ⟨a, s₁, rfl, h⟩, ?_⟩
    rintro ⟨a', s₁', heq, h⟩
    cases heq
    exact h
  | error e s₁ => simp

/-- What follows a step that succeeds. -/
theorem bind_of_ok {a : α} {s₁ : State} (hp : p s = .ok a s₁) : (p >>= f) s = f a s₁ := by
  show EStateM.bind p f s = _
  unfold EStateM.bind
  rw [hp]

@[simp] theorem pure_eq_ok {a b : α} {s' : State} :
    (pure a : Production α) s = .ok b s' ↔ a = b ∧ s = s' := by
  show EStateM.Result.ok a s = _ ↔ _
  simp

/-- A last step that never fails is made however the step before it ends.  If it did fail, the
reason of the step before would be the one that counts. -/
theorem Ends.ensuring {last : Production Unit} {Q : α → State → Prop}
    (h : Ends p s (fun a s' => Ends last s' (fun _ s₂ => Q a s₂) E)
      fun e s' => Ends last s' (fun _ s₂ => E e s₂) fun _ s₂ => E e s₂) :
    Ends (ensuring p last) s Q E := by
  unfold Ends at h ⊢
  unfold Production.ensuring
  cases hp : p s with
  -- the last step decides after a step that has succeeded
  | ok a s₁ =>
    simp only [hp] at h ⊢
    cases hl : last s₁ <;> simpa only [hl] using h
  -- after one that has not, the reason stays that of the step
  | error e s₁ =>
    simp only [hp] at h ⊢
    cases hl : last s₁ <;> simpa only [hl] using h

end

end OnePass.Production
