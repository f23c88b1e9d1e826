import OnePass.Compilation
import OnePass.Proofs.Header

/-!
# No source breaks an invariant

A production that has reported an error goes on and emits code.  Still every label it
makes gets its offset in the method it belongs to, methods are ended in the order they
were opened, and every scope that is entered is left.  So the assembler and the scopes
never refuse a request, whatever the source is; the one thing that can go wrong is a
method header with too many parameters.

## Main definitions

* `State.Steady` — the pass and the assembler agree on the methods and the labels.
* `State.Reaches` — a steady state is reached, with more labels in the current method.
* `Production.Unbroken` — a production leads from steady states to steady states, and binds
  every label it makes.

## Main results

* `Production.unbroken_grammar` — **every production is unbroken**.
* `no_source_breaks_an_invariant` — **no source breaks an invariant**, except by a header with
  too many parameters, and the program can be had after every pass.
-/

namespace OnePass

/-- What ends a pass over the given tokens early without breaking an invariant of its own: a stray
statement, or a header among the tokens that has too many parameters. -/
def Halt.Excused (kinds : List Token.Kind) : Halt → Prop
  | .fatal _ => True
  | .broken fault => fault = .tooManyParameters ∧ Production.LongHeader kinds

/-- The labels of a loop are labels of a method that has so many, so that a jump to one of them is a
jump within the method. -/
def Loop.BelongsTo (loop : Loop) (id : MethodId) (labels : Nat) : Prop :=
  (loop.breakLabel.method = id ∧ loop.breakLabel.index < labels) ∧
    loop.continueLabel.method = id ∧ loop.continueLabel.index < labels

theorem Loop.BelongsTo.mono {loop : Loop} {id : MethodId} {labels labels' : Nat}
    (h : loop.BelongsTo id labels) (hle : labels ≤ labels') : loop.BelongsTo id labels' :=
  ⟨⟨h.1.1, Nat.lt_of_lt_of_le h.1.2 hle⟩, h.2.1, Nat.lt_of_lt_of_le h.2.2 hle⟩

/-- In all methods but one, every new label has its offset.  For the one method that is being
written this cannot be said, as its loops are not over. -/
def Outline.Apart (o o' : Outline) (id : MethodId) : Prop :=
  ∀ j d, j ≠ id → o.drafts[j]? = some d →
    ∃ (d' : Draft) (offsets : List Nat), o'.drafts[j]? = some d' ∧
      d'.labels = d.labels ++ offsets.map some

namespace Outline.Apart

theorem refl (o : Outline) (id : MethodId) : o.Apart o id := fun _ d _ hd => ⟨d, [], hd, by simp⟩

theorem trans {o o₁ o₂ : Outline} {id : MethodId} (h : o.Apart o₁ id) (h' : o₁.Apart o₂ id) :
    o.Apart o₂ id := by
  intro j d hj hd
  obtain ⟨d₁, offsets₁, hd₁, hlabels₁⟩ := h j d hj hd
  obtain ⟨d₂, offsets₂, hd₂, hlabels₂⟩ := h' j d₁ hj hd₁
  exact ⟨d₂, offsets₁ ++ offsets₂, hd₂, by rw [hlabels₂, hlabels₁]; simp⟩

/-- A change of the one method does not count. -/
theorem set {title : String} {drafts : List Draft} {opened opened' : List MethodId} (id : MethodId)
    (d : Draft) : Outline.Apart ⟨title, drafts, opened⟩ ⟨title, drafts.set id d, opened'⟩ id :=
  fun j e hj he => ⟨e, [], by simpa [List.getElem?_set, Ne.symm hj] using he, by simp⟩

/-- One more method leaves those before it as they are. -/
theorem append {title : String} {drafts : List Draft} {opened opened' : List MethodId}
    (id : MethodId) (d : Draft) :
    Outline.Apart ⟨title, drafts, opened⟩ ⟨title, drafts ++ [d], opened'⟩ id :=
  fun j e _ he => ⟨e, [],
    (List.getElem?_append_left (List.getElem?_eq_some_iff.mp he).1).trans he, by simp⟩

end Outline.Apart

/-- The pass and the assembler agree: the method `id` with draft `d` is the current one, the
labels of the loops around the lookahead are its labels, and the names are in order. -/
structure State.Steady (kinds : List Token.Kind) (s : State) (id : MethodId) (o : Outline)
    (d : Draft) : Prop where
  shows : s.assembler.Shows o
  opened : o.opened = s.methods
  current : s.methods.head? = some id
  draft : o.drafts[id]? = some d
  loops : ∀ loop ∈ s.loops, loop.BelongsTo id d.labels.length
  scopes : s.scopes.Sound
  ahead : s.kinds <:+ kinds

/-- From the first state, with the given outline, the second one is reached: it is steady,
and the current method has more labels. -/
def State.Reaches (kinds : List Token.Kind) (s : State) (id : MethodId) (o : Outline) (d : Draft)
    (labels : List (Option Nat)) (s' : State) : Prop :=
  ∃ o' d', s'.Steady kinds id o' d' ∧ d'.labels = d.labels ++ labels ∧ o.Apart o' id ∧
    s'.methods = s.methods ∧ s'.loops = s.loops ∧
    s'.scopes.nested.length = s.scopes.nested.length

variable {kinds : List Token.Kind} {s s' : State} {id : MethodId} {o : Outline} {d : Draft}

namespace State

/-- Reading on, with or without errors, leaves a steady state steady. -/
theorem Steady.of_same (h : s.Steady kinds id o d) (hsame : s.Same s') (hleads : s.Leads s') :
    s'.Steady kinds id o d := by
  refine ⟨?_, ?_, ?_, h.draft, ?_, ?_, hleads.kinds_suffix.trans h.ahead⟩
  · rw [hsame.assembler]
    exact h.shows
  · rw [hsame.methods]
    exact h.opened
  · rw [hsame.methods]
    exact h.current
  · rw [hsame.loops]
    exact h.loops
  · rw [hsame.scopes]
    exact h.scopes

theorem Steady.reaches (h : s.Steady kinds id o d) : s.Reaches kinds id o d [] s :=
  ⟨o, d, h, by simp, .refl o id, rfl, rfl, rfl⟩

namespace Reaches

variable {labels : List (Option Nat)}

/-- A state that is reached from one that was reached is reached, with the labels of both ways. -/
theorem trans {labels' : List (Option Nat)} {s₁ : State} {o₁ : Outline} {d₁ : Draft}
    (hlabels : d₁.labels = d.labels ++ labels) (hapart : o.Apart o₁ id)
    (hmethods : s₁.methods = s.methods) (hloops : s₁.loops = s.loops)
    (hnested : s₁.scopes.nested.length = s.scopes.nested.length)
    (h : s₁.Reaches kinds id o₁ d₁ labels' s') : s.Reaches kinds id o d (labels ++ labels') s' := by
  obtain ⟨o₂, d₂, hsteady, hlabels₂, hapart₂, hmethods₂, hloops₂, hnested₂⟩ := h
  refine ⟨o₂, d₂, hsteady, ?_, hapart.trans hapart₂, hmethods₂.trans hmethods,
    hloops₂.trans hloops, hnested₂.trans hnested⟩
  rw [hlabels₂, hlabels, List.append_assoc]

/-- Reading on before or after does not count. -/
theorem same_trans {s₁ : State} (hsame : s.Same s₁) (h : s₁.Reaches kinds id o d labels s') :
    s.Reaches kinds id o d labels s' := by
  obtain ⟨o', d', h, hlabels, hapart, hmethods, hloops, hnested⟩ := h
  exact ⟨o', d', h, hlabels, hapart, hmethods.trans hsame.methods, hloops.trans hsame.loops,
    by rw [hnested, hsame.scopes]⟩

theorem of_same {s₁ : State} (h : s.Reaches kinds id o d labels s₁) (hsame : s₁.Same s')
    (hleads : s₁.Leads s') : s.Reaches kinds id o d labels s' := by
  obtain ⟨o₁, d₁, h, hlabels, hapart, hmethods, hloops, hnested⟩ := h
  exact ⟨o₁, d₁, h.of_same hsame hleads, hlabels, hapart, hsame.methods.trans hmethods,
    hsame.loops.trans hloops, by rw [hsame.scopes, hnested]⟩

/-- A loop is entered with labels of the current method. -/
theorem enter {loop : Loop} {s₁ : State} (h : s.Reaches kinds id o d labels s₁)
    (hloop : loop.BelongsTo id (d.labels.length + labels.length)) :
    State.Reaches kinds { s with loops := loop :: s.loops } id o d labels
      { s₁ with loops := loop :: s₁.loops } := by
  obtain ⟨o₁, d₁, h, hlabels, hapart, hmethods, hloops, hnested⟩ := h
  refine ⟨o₁, d₁, ⟨h.shows, h.opened, h.current, h.draft, ?_, h.scopes, h.ahead⟩, hlabels, hapart,
    hmethods, congrArg (loop :: ·) hloops, hnested⟩
  refine List.forall_mem_cons.mpr ⟨?_, h.loops⟩
  rwa [hlabels, List.length_append]

/-- A loop is left, and the loops around it are the ones from before. -/
theorem leave {loop : Loop} {s₁ : State}
    (h : State.Reaches kinds { s with loops := loop :: s.loops } id o d labels s₁) :
    s.Reaches kinds id o d labels { s₁ with loops := s₁.loops.tail } := by
  obtain ⟨o₁, d₁, h, hlabels, hapart, hmethods, hloops, hnested⟩ := h
  refine ⟨o₁, d₁, ⟨h.shows, h.opened, h.current, h.draft, ?_, h.scopes, h.ahead⟩, hlabels, hapart,
    hmethods, congrArg List.tail hloops, hnested⟩
  exact fun loop hloop => h.loops loop (List.mem_of_mem_tail hloop)

end Reaches

end State

namespace Production

variable {α : Type}

/-- A production that leads from steady states to steady states, binds every label it
makes, and is stopped by nothing but a stray statement or too many parameters. -/
def Unbroken (kinds : List Token.Kind) (p : Production α) : Prop :=
  ∀ ⦃s : State⦄ ⦃id : MethodId⦄ ⦃o : Outline⦄ ⦃d : Draft⦄, s.Steady kinds id o d →
    Ends p s (fun _ s' => ∃ offsets : List Nat, s.Reaches kinds id o d (offsets.map some) s')
      fun h _ => h.Excused kinds

section

variable {labels : List (Option Nat)} {s₁ : State} {E : Halt → State → Prop}
  (h : s.Reaches kinds id o d labels s₁)
include h

/-- An unbroken production after others, whose labels need not have their offsets. -/
theorem Unbroken.after {p : Production α} (hp : Unbroken kinds p) :
    Ends p s₁ (fun _ s' => ∃ offsets : List Nat,
      s.Reaches kinds id o d (labels ++ offsets.map some) s') fun h _ => h.Excused kinds := by
  obtain ⟨o₁, d₁, hsteady, hlabels, hapart, hmethods, hloops, hnested⟩ := h
  refine (hp hsteady).imp fun _ s' ⟨offsets, h'⟩ => ⟨offsets, ?_⟩
  exact .trans hlabels hapart hmethods hloops hnested h'

/-- A request to the assembler that changes the draft of the current method.  It answers as the
draft says and never refuses, since the current method is the innermost one that is open. -/
theorem request_ends {c : Assembler.Call} {P : c.Answer → List (Option Nat) → Prop}
    (hrun : ∀ {a title drafts ids e}, Assembler.Shows a ⟨title, drafts, id :: ids⟩ →
      drafts[id]? = some e → e.labels = d.labels ++ labels →
      ∃ x a' e' labels', c.run a = .ok x a' ∧ a'.Shows ⟨title, drafts.set id e', id :: ids⟩ ∧
        e'.labels = d.labels ++ labels' ∧ labels.length ≤ labels'.length ∧ P x labels') :
    Ends (assemble c) s₁
      (fun x s' => ∃ labels', P x labels' ∧ s.Reaches kinds id o d labels' s') E := by
  obtain ⟨o₁, d₁, hsteady, hlabels, hapart, hmethods, hloops, hnested⟩ := h
  obtain ⟨title, drafts, opened⟩ := o₁
  obtain ⟨ids, hids⟩ : ∃ ids, opened = id :: ids := by
    have hopened : opened = s₁.methods := hsteady.opened
    obtain ⟨ids, hids⟩ := List.head?_eq_some_iff.mp hsteady.current
    exact ⟨ids, hopened.trans hids⟩
  subst hids
  obtain ⟨x, a', e', labels', ha', hshows, hlabels', hle, hP⟩ :=
    hrun hsteady.shows hsteady.draft hlabels
  obtain ⟨log, hok⟩ := assemble_ok ha'
  -- loops keep their labels, as the draft only ever gets more of them
  have hlt := (List.getElem?_eq_some_iff.mp hsteady.draft).1
  refine ends_of_ok hok ⟨labels', hP, _, e', ⟨hshows, hsteady.opened, hsteady.current,
    by simp [hlt], fun loop hloop => (hsteady.loops loop hloop).mono ?_, hsteady.scopes,
    hsteady.ahead⟩, hlabels', hapart.trans (.set id _), hmethods, hloops, hnested⟩
  rw [hlabels, hlabels', List.length_append, List.length_append]
  omega

/-- A request that leaves the labels as they are, as those that emit code do. -/
theorem request_keeps {c : Assembler.Call}
    (hrun : ∀ {a title drafts ids e}, Assembler.Shows a ⟨title, drafts, id :: ids⟩ →
      drafts[id]? = some e → e.labels.length = d.labels.length + labels.length →
      ∃ x a' e', c.run a = .ok x a' ∧ a'.Shows ⟨title, drafts.set id e', id :: ids⟩ ∧
        e'.labels = e.labels) :
    Ends (assemble c) s₁ (fun _ s' => s.Reaches kinds id o d labels s') E := by
  refine (request_ends h (P := fun _ labels' => labels' = labels) ?_).imp ?_
  · intro a title drafts ids e hshows he hlabels
    obtain ⟨x, a', e', ha', hshows', hlabels'⟩ :=
      hrun hshows he (by rw [hlabels, List.length_append])
    exact ⟨x, a', e', labels, ha', hshows', hlabels'.trans hlabels, Nat.le_refl _, rfl⟩
  · rintro _ s' ⟨labels', rfl, h'⟩
    exact h'

theorem emit_ends (operation : Operation) :
    Ends (emit operation) s₁ (fun _ s' => s.Reaches kinds id o d labels s') E := by
  refine request_keeps h fun hshows he _ => ?_
  obtain ⟨a', ha', hshows'⟩ := Assembler.Call.emit_shows hshows he operation
  exact ⟨_, a', _, ha', hshows', rfl⟩

/-- A parameter of the current method can be loaded, whatever its ordinal is. -/
theorem loadParameter_ends (ordinal : Nat) :
    Ends (assemble (.loadParameter ⟨id, ordinal⟩)) s₁
      (fun _ s' => s.Reaches kinds id o d labels s') E := by
  refine request_keeps h fun hshows he _ => ?_
  obtain ⟨a', ha', hshows'⟩ := Assembler.Call.loadParameter_shows hshows he ordinal
  exact ⟨_, a', _, ha', hshows', rfl⟩

theorem returnType_ends :
    Ends (assemble .returnType) s₁ (fun _ s' => s.Reaches kinds id o d labels s') E := by
  refine request_keeps h fun {_ _ drafts _ e} hshows he _ => ?_
  obtain ⟨a', ha', hshows'⟩ := Assembler.Call.returnType_shows hshows he
  exact ⟨_, a', e, ha', by rwa [set_of_getElem? he], rfl⟩

/-- A branch to a label of the current method can be emitted, if the label has an offset or not. -/
theorem branch_ends {label : Label} (hmethod : label.method = id)
    (hindex : label.index < d.labels.length + labels.length) :
    Ends (assemble (.branch label)) s₁ (fun _ s' => s.Reaches kinds id o d labels s') E := by
  obtain ⟨_, l⟩ := label
  subst hmethod
  refine request_keeps h fun hshows he hlength => ?_
  obtain ⟨a', ha', hshows'⟩ := Assembler.Call.branch_shows hshows he (hlength ▸ hindex)
  exact ⟨_, a', _, ha', hshows', rfl⟩

theorem branchIfFalse_ends {label : Label} (hmethod : label.method = id)
    (hindex : label.index < d.labels.length + labels.length) :
    Ends (assemble (.branchIfFalse label)) s₁ (fun _ s' => s.Reaches kinds id o d labels s') E := by
  obtain ⟨_, l⟩ := label
  subst hmethod
  refine request_keeps h fun hshows he hlength => ?_
  obtain ⟨a', ha', hshows'⟩ := Assembler.Call.branchIfFalse_shows hshows he (hlength ▸ hindex)
  exact ⟨_, a', _, ha', hshows', rfl⟩

/-- A new label is the last one of the current method, and has no offset. -/
theorem newLabel_ends : Ends (assemble .newLabel) s₁
    (fun l s' => l = ⟨id, d.labels.length + labels.length⟩ ∧
      s.Reaches kinds id o d (labels ++ [none]) s') E := by
  refine (request_ends h (c := .newLabel) (P := fun (l : Label) labels' =>
    l = ⟨id, d.labels.length + labels.length⟩ ∧ labels' = labels ++ [none]) ?_).imp
    ?_
  · intro a title drafts ids e hshows he hlabels
    obtain ⟨a', ha', hshows'⟩ := Assembler.Call.newLabel_shows hshows he
    refine ⟨_, a', _, labels ++ [none], ha', hshows', ?_, by simp, ?_, rfl⟩
    · simp [Draft.addLabel, hlabels]
    · rw [hlabels, List.length_append]
  · rintro l s' ⟨labels', ⟨rfl, rfl⟩, h'⟩
    exact ⟨rfl, h'⟩

/-- A label of the current method without an offset gets one.  A label that has one would be
refused, so the labels that are still without have to be kept track of. -/
theorem bindLabel_ends {l : Nat} (hl : labels[l]? = some none) :
    Ends (assemble (.bindLabel ⟨id, d.labels.length + l⟩)) s₁
      (fun offset s' => s.Reaches kinds id o d (labels.set l (some offset)) s') E := by
  refine (request_ends h (P := fun offset labels' => labels' = labels.set l (some offset)) ?_).imp
    ?_
  · intro a title drafts ids e hshows he hlabels
    obtain ⟨a', ha', hshows'⟩ := Assembler.Call.bindLabel_shows hshows he (l := d.labels.length + l)
      (by rw [hlabels, List.getElem?_append_right (by omega)]; simpa using hl)
    refine ⟨_, a', _, labels.set l (some e.code.length), ha', hshows', ?_, by simp, rfl⟩
    simp [Draft.bindLabel, hlabels]
  · rintro offset s' ⟨labels', rfl, h'⟩
    exact h'

end

/-- A step that only reads, or reports an error. -/
theorem unbroken_of_same {p : Production α}
    (hp : ∀ s, Ends p s (fun _ s' => s.Same s' ∧ s.Leads s') fun _ _ => False) : Unbroken kinds p :=
  fun s _ _ _ hs => (hp s).mono (fun _ _ h => ⟨[], hs.reaches.of_same h.1 h.2⟩) fun _ _ h => h.elim

theorem unbroken_assemble {c : Assembler.Call}
    (hc : ∀ {s₁ id o d s}, State.Reaches kinds s id o d [] s₁ →
      Ends (assemble c) s₁ (fun _ s' => s.Reaches kinds id o d [] s') fun _ _ => False) :
    Unbroken kinds (assemble c) :=
  fun _ _ _ _ hs => (hc hs.reaches).mono (fun _ _ h => ⟨[], h⟩) fun _ _ h => h.elim

/-- What makes no labels of its own and declares nothing.  The labels that a first step has bound
stay bound in a second one. -/
theorem unbroken_closed (kinds : List Token.Kind) : Closed fun _ p => Unbroken kinds p where
  pure _ _ _ _ _ hs := ⟨[], hs.reaches⟩
  bind {α β p f} hp hf s id o d hs := by
    refine (hp hs).bind fun a s₁ ⟨offsets, h₁⟩ => ((hf a).after h₁).imp ?_
    rintro b s' ⟨offsets', h'⟩
    exact ⟨offsets ++ offsets', by rwa [List.map_append]⟩
  view _ := unbroken_of_same fun s => ⟨.refl s, .refl s⟩
  accept? _ := unbroken_of_same fun s =>
    ends_accept? (fun _ _ => ⟨.advance s, .advance s⟩) fun _ => ⟨.refl s, .refl s⟩
  accept _ := unbroken_of_same fun s =>
    ends_accept (fun _ => ⟨.advance s, .advance s⟩) fun _ => ⟨.refl s, .refl s⟩
  errorAt p e := unbroken_of_same fun s => ⟨.errorAt s p e, .errorAt s p e⟩
  error e := unbroken_of_same fun s => ⟨.errorAt s _ e, .errorAt s _ e⟩
  emit {operation} _ := unbroken_assemble fun h => emit_ends h operation
  returnType := unbroken_assemble fun h => returnType_ends h

/-! ### Branches -/

section

variable {expression : Production (Option Ty)} {statement : Production Bool}
  (he : Unbroken kinds expression) (hs : Unbroken kinds statement)
include he hs

/-- The labels of a conditional get their offsets, the second one only if it is made.  It is made
after the first branch, so the first label is at zero all along. -/
theorem unbroken_conditional : Unbroken kinds (conditional expression statement) := by
  have hC := unbroken_closed kinds
  refine hC.bind (hC.accept _) fun _ =>
    mem_ite (C := fun _ p => Unbroken kinds p) ?_ (hC.pure false)
  refine hC.bind (hC.condition he) fun _ => ?_
  intro s id o d hsteady
  refine ends_bind.mpr ((newLabel_ends hsteady.reaches).mono ?_ fun _ _ h => h)
  rintro _ s₁ ⟨rfl, h₁⟩
  refine (branchIfFalse_ends h₁ rfl (by simp)).bind fun _ s₂ h₂ => ?_
  refine ((hC.required hs).after h₂).bind fun _ s₃ ⟨offsets₃, h₃⟩ => ?_
  refine Ends.bind (Q := fun _ s' => ∃ offsets : List Nat,
    s.Reaches kinds id o d (offsets.map some) s') ?_ fun _ s' h' => h'
  refine ((hC.accept _).after h₃).bind fun found s₄ ⟨offsets₄, h₄⟩ => ?_
  cases found with
  | false =>
    -- without an else branch the label is bound behind the first branch
    refine (bindLabel_ends h₄ (l := 0) rfl).bind fun offset s₅ h₅ => ?_
    exact ⟨offset :: (offsets₃ ++ offsets₄), by simpa using h₅⟩
  | true =>
    -- with one, it is bound in front of the else branch, and the second label behind
    refine ends_bind.mpr ((newLabel_ends h₄).mono ?_ fun _ _ h => h)
    rintro _ s₅ ⟨rfl, h₅⟩
    refine (branch_ends h₅ rfl (by simp)).bind fun _ s₆ h₆ => ?_
    refine (bindLabel_ends h₆ (l := 0) rfl).bind fun offset s₇ h₇ => ?_
    refine ((hC.required hs).after h₇).bind fun _ s₈ ⟨offsets₈, h₈⟩ => ?_
    refine (bindLabel_ends h₈ ?_).bind fun offset' s₉ h₉ => ?_
    · simp
    · exact ⟨offset :: (offsets₃ ++ offsets₄) ++ offset' :: offsets₈, by simpa using h₉⟩

/-- The labels of a loop get their offsets before and after its rounds.  In between, statements of
the loop may jump to both of them. -/
theorem rounds_ends {s s₁ : State} {id : MethodId} {o : Outline} {d : Draft}
    (h : s.Reaches kinds id o d [none, none] s₁) :
    Ends (rounds expression statement ⟨⟨id, d.labels.length + 1⟩, ⟨id, d.labels.length⟩⟩) s₁
      (fun _ s' => ∃ offsets : List Nat, s.Reaches kinds id o d (offsets.map some) s')
      fun h _ => h.Excused kinds := by
  have hC := unbroken_closed kinds
  refine (bindLabel_ends h (l := 0) rfl).bind fun start s₂ h₂ => ?_
  refine ((hC.condition he).after h₂).bind fun _ s₃ ⟨offsets₃, h₃⟩ => ?_
  refine (branchIfFalse_ends h₃ rfl (by simp)).bind fun _ s₄ h₄ => ?_
  refine ((hC.required hs).after h₄).bind fun _ s₅ ⟨offsets₅, h₅⟩ => ?_
  refine (branch_ends h₅ rfl (by simp)).bind fun _ s₆ h₆ => ?_
  refine (bindLabel_ends h₆ (l := 1) rfl).bind fun after s₇ h₇ => ?_
  exact ⟨start :: after :: (offsets₃ ++ offsets₅), by simpa using h₇⟩

/-- A loop makes its labels before it is entered, and they belong to the method that it is in. -/
theorem unbroken_loop : Unbroken kinds (loop expression statement) := by
  have hC := unbroken_closed kinds
  refine hC.bind (hC.accept _) fun _ =>
    mem_ite (C := fun _ p => Unbroken kinds p) ?_ (hC.pure false)
  intro s id o d hsteady
  refine ends_bind.mpr ((newLabel_ends hsteady.reaches).mono ?_ fun _ _ h => h)
  rintro _ s₁ ⟨rfl, h₁⟩
  refine ends_bind.mpr ((newLabel_ends h₁).mono ?_ fun _ _ h => h)
  rintro _ s₂ ⟨rfl, h₂⟩
  have hloop : Loop.BelongsTo ⟨⟨id, d.labels.length + 1⟩, ⟨id, d.labels.length⟩⟩ id
      (d.labels.length + 2) := ⟨⟨rfl, by simp⟩, rfl, by simp⟩
  refine ends_bind.mpr (ends_bind.mpr (ends_modify.mpr (Ends.ensuring ?_)))
  refine (rounds_ends he hs (h₂.enter hloop)).mono ?_ fun _ _ h => h
  rintro _ s₃ ⟨offsets, h₃⟩
  exact ⟨offsets, h₃.leave⟩

end

/-- A statement that leaves a loop goes to a label of the current method.  Without a loop around it
the pass ends, which is excused. -/
theorem unbroken_leaveStatement (word : Keyword) (stray : Stray) {target : Loop → Label}
    (htarget : ∀ {loop : Loop} {id : MethodId} {labels : Nat}, loop.BelongsTo id labels →
      (target loop).method = id ∧ (target loop).index < labels) :
    Unbroken kinds (leaveStatement word stray target) := by
  have hC := unbroken_closed kinds
  refine hC.bind (hC.view _) fun p => hC.bind (hC.accept _) fun _ =>
    mem_ite (C := fun _ p => Unbroken kinds p) ?_ (hC.pure false)
  intro s id o d hsteady
  refine ends_bind.mpr (ends_view.mpr ?_)
  cases hhead : s.loops.head? with
  | none => trivial
  | some loop =>
    -- methods begin without loops, so the innermost loop is one of the current method
    have hbelongs := hsteady.loops loop (List.mem_of_head? hhead)
    obtain ⟨hmethod, hindex⟩ := htarget hbelongs
    refine ((hC.expect _).after hsteady.reaches).bind fun _ s₁ ⟨offsets, h₁⟩ => ?_
    refine (branch_ends h₁ hmethod (by omega)).bind fun _ s₂ h₂ => ?_
    exact ⟨offsets, h₂⟩

/-! ### Names -/

/-- What a name stands for is loaded or refused.  A parameter is loaded by its own method only, so
the assembler does not have to refuse it. -/
theorem unbroken_load (options : Options) (entity : Entity) (name : String) (p : Position) :
    Unbroken kinds (load options entity name p) := by
  have hC := unbroken_closed kinds
  have hrefuse (e : ParseError) : Unbroken kinds (refuse p e) :=
    hC.bind (hC.errorAt p e) fun _ => hC.pure none
  cases entity with
  | type _ _ => exact hrefuse _
  | method _ _ _ _ => exact hrefuse _
  | «local» _ ty slot =>
    refine hC.bind (hC.view _) fun _ => mem_ite (C := fun _ p => Unbroken kinds p) ?_ (hrefuse _)
    refine hC.bind (unbroken_assemble fun h => emit_ends h _) fun _ => hC.bind ?_ fun _ => hC.pure _
    unfold localType
    split
    · exact hC.pure _
    · exact hC.view _
  | parameter _ ty ordinal slot =>
    rcases slot with _ | ⟨method, ordinal⟩
    · exact hrefuse _
    intro s id o d hsteady
    refine ends_bind.mpr (ends_view.mpr ?_)
    split
    · next hwithin =>
      -- the current method of the pass is the one that the assembler has open
      obtain rfl : id = method := by
        have hhead : s.methods.head? = some method := by simpa using hwithin
        exact Option.some.inj (hsteady.current.symm.trans hhead)
      refine (loadParameter_ends hsteady.reaches ordinal).bind fun _ s₁ h₁ => ?_
      exact ⟨[], h₁⟩
    · exact hrefuse _ hsteady

/-- A value is stored in a local variable or refused. -/
theorem unbroken_store (entity : Entity) (name : String) (p : Position) (value : Ty)
    (valuePosition : Position) : Unbroken kinds (store entity name p value valuePosition) := by
  have hC := unbroken_closed kinds
  have hemit (operation : Operation) : Unbroken kinds (emit operation) :=
    unbroken_assemble fun h => emit_ends h operation
  cases entity with
  | type _ _ => exact hC.errorAt _ _
  | method _ _ _ _ => exact hC.errorAt _ _
  | parameter _ _ _ _ => exact hC.errorAt _ _
  | «local» _ ty slot =>
    refine hC.bind (hC.view _) fun _ =>
      mem_ite (C := fun _ p => Unbroken kinds p) ?_ (hC.errorAt _ _)
    exact hC.bind (hC.check _ _ _) fun _ => hC.bind (hemit _) fun _ => hemit _

theorem unbroken_named (options : Options) {expression : Production (Option Ty)}
    (he : Unbroken kinds expression) (name : String) (p : Position) :
    Unbroken kinds (named options expression name p) := by
  have hC := unbroken_closed kinds
  refine hC.bind (hC.view _) fun entity => ?_
  cases entity with
  | none => exact hC.bind (hC.errorAt _ _) fun _ => hC.pure _
  | some entity =>
    refine hC.bind (hC.accept _) fun _ => mem_ite (C := fun _ p => Unbroken kinds p) ?_ ?_
    · refine hC.bind (hC.view _) fun _ => hC.bind (hC.operand he) fun _ => ?_
      refine hC.bind (unbroken_store _ _ _ _ _) fun _ => ?_
      exact hC.bind (hC.expect _) fun _ => hC.pure _
    · exact hC.bind (unbroken_load _ _ _ _) fun _ => hC.pure _

theorem unbroken_printNamed (options : Options) (name : String) (p : Position) :
    Unbroken kinds (printNamed options name p) := by
  have hC := unbroken_closed kinds
  refine hC.bind (hC.view _) fun entity => ?_
  cases entity with
  | none => exact hC.errorAt _ _
  | some entity =>
    have hlog : Unbroken kinds (modify fun s : State =>
        { s with log := s.log.push (.printed entity (s.scopes.declaredHere name)) }) :=
      unbroken_of_same fun s => ⟨⟨rfl, rfl, rfl, rfl⟩, .of_eq rfl rfl rfl⟩
    refine hC.bind hlog fun _ => hC.bind (unbroken_load _ _ _ _) fun _ => ?_
    exact mem_ite (C := fun _ p => Unbroken kinds p)
      (unbroken_assemble fun h => emit_ends h .print) (hC.pure ())

/-! ### Declarations -/

/-- A declaration in the innermost scope keeps the scopes sound, if its type has values. -/
theorem declare_ends {labels : List (Option Nat)} {s₁ : State} {E : Halt → State → Prop}
    (h : s.Reaches kinds id o d labels s₁) {c : Scopes.Call} {entity : Entity} {x : c.Answer}
    (hc : c.run s₁.scopes = .ok x (s₁.scopes.declare entity).2) (hentity : entity.binding.Valued) :
    Ends (scope c) s₁ (fun _ s' => s.Reaches kinds id o d labels s') E := by
  obtain ⟨o₁, d₁, hsteady, hlabels, hapart, hmethods, hloops, hnested⟩ := h
  obtain ⟨log, hok⟩ := scope_ok hc
  refine ends_of_ok hok ⟨o₁, d₁, ⟨hsteady.shows, hsteady.opened, hsteady.current, hsteady.draft,
    hsteady.loops, hsteady.scopes.declare hentity, hsteady.ahead⟩, hlabels, hapart, hmethods,
    hloops, ?_⟩
  rw [Scopes.length_nested_declare, hnested]

/-- A field of a type without values is reported and not declared; any other gets its slot from the
assembler first. -/
theorem unbroken_field {ty : Ty} (hty : ty ≠ .unknown) (name : String) (p : Position) :
    Unbroken kinds (field ty name p) := by
  have hC := unbroken_closed kinds
  refine hC.bind (hC.bind (hC.view _) fun _ => hC.check _ _ _) fun _ => ?_
  by_cases hvoid : ty = .void
  · rw [if_pos hvoid]
    exact hC.errorAt _ _
  · rw [if_neg hvoid]
    refine hC.bind ?_ fun _ => hC.expect _
    intro s id o d hsteady
    refine Ends.bind (request_keeps hsteady.reaches (c := .declareLocal name ty)
      fun hshows he _ => ?_) fun slot s₁ h₁ => ?_
    · obtain ⟨a', ha', hshows'⟩ := Assembler.Call.declareLocal_shows hshows he name ty
      exact ⟨_, a', _, ha', hshows', rfl⟩
    · refine (declare_ends h₁ (c := .declareLocal name ty slot)
        (run_modifyGet_declare s₁.scopes (.local name ty slot)) ⟨hvoid, hty⟩).bind fun _ s₂ h₂ => ?_
      exact ⟨[], h₂⟩

/-- A symbol that has to be there is passed or reported. -/
theorem expect_ends (mark : Symbol) (s : State) {E : Halt → State → Prop} :
    Ends (expect mark) s (fun _ s' => s.Same s' ∧ s.Leads s') E := by
  refine ends_bind.mpr (ends_accept (fun _ => ?_) fun _ => ?_)
  · exact ⟨.advance s, .advance s⟩
  · exact ⟨.errorAt s _ _, .errorAt s _ _⟩

/-- A method can be ended once all of its labels have their offsets.  The loops do not count any
more. -/
theorem endMethod_ends {title : String} {drafts : List Draft} {opened : List MethodId}
    {E : Halt → State → Prop} (hsteady : s.Steady kinds id ⟨title, drafts, id :: opened⟩ d)
    (hlabels : ∀ label ∈ d.labels, label.isSome) :
    Ends (assemble .endMethod) { s with methods := s.methods.tail } (fun _ s' =>
      ∃ drafts', s'.assembler.Shows ⟨title, drafts', opened⟩ ∧
        Outline.Apart ⟨title, drafts, id :: opened⟩ ⟨title, drafts', opened⟩ id ∧
        s'.methods = s.methods.tail ∧ s'.scopes = s.scopes ∧ s'.kinds = s.kinds) E := by
  obtain ⟨closed, a, ha, hshows⟩ :=
    Assembler.Call.endMethod_shows hsteady.shows hsteady.draft hlabels
  obtain ⟨log, hassemble⟩ := assemble_ok (s := { s with methods := s.methods.tail }) ha
  exact ends_of_ok hassemble ⟨_, hshows, .set id _, rfl, rfl, rfl⟩

section

variable (hend : kinds.getLast? = some .endOfInput) {item : Production Bool}
  (hi : Unbroken kinds item)
include hend hi

/-- What follows the parenthesis of a method.  Its body binds every label it makes, so the method
can be ended; and if its parameters are too many, they stand in the source behind the header. -/
theorem methodRest_ends (budget : Nat) {title : String} {drafts : List Draft}
    {opened : List MethodId} {type : TypeName} {name : String} {entity : EntityId}
    (hshows : s.assembler.Shows ⟨title, drafts, opened⟩) (hopened : opened = s.methods)
    (hloops : s.loops = []) (hsound : s.scopes.Sound)
    (hentity : s.scopes.entities[entity]? = some (.method name type.ty [] none))
    (hahead : s.kinds <:+ kinds)
    (hheader : s.recovering = false →
      [.keyword type.word, .identifier name, .symbol .leftParen] ++ s.kinds <:+ kinds) :
    Ends (methodRest budget item entity type.ty name) s
      (fun _ s' => ∃ title' drafts', s'.assembler.Shows ⟨title', drafts', opened⟩ ∧
        Outline.Apart ⟨title, drafts, opened⟩ ⟨title', drafts', opened⟩ drafts.length ∧
        s'.methods = s.methods ∧ s'.scopes.Sound ∧
        s'.scopes.nested.length = s.scopes.nested.length ∧ s'.kinds <:+ kinds)
      fun h _ => h.Excused kinds := by
  have hC := unbroken_closed kinds
  -- the lists of parameters are told from the tokens that are still ahead
  have hend' := (State.getLast?_kinds_of_suffix hahead).trans hend
  have honward := (onward_fine.formals budget #[]).ends s
  refine ends_bind.mpr (((formals_ends hend' (by simp)).and honward).mono ?_ ?_)
  · rintro parameters s₁ ⟨⟨ps, hvalued, hlist, hsame₁, hscopes₁⟩, hleads₁⟩
    refine (expect_ends .rightParen s₁).bind ?_
    rintro _ s₂ ⟨hsame₂, hleads₂⟩
    have hscopes₂ := hsame₂.scopes.trans hscopes₁
    have hassembler₂ := hsame₂.assembler.trans hsame₁.assembler
    obtain ⟨a₃, scopes₃, log₃, hopen, hshows₃, hsound₃, hnested₃, -⟩ :=
      openMethod_eq (s := s₂) (hassembler₂ ▸ hshows) hsound hvalued hentity hscopes₂
    rw [hlist]
    refine ends_bind.mpr (ends_of_ok (by simpa using hopen) ?_)
    -- inside the new method there are no loops and no labels yet
    let d₃ : Draft := .headed name type.ty ps
    let s₃ : State := { s₂ with
      assembler := a₃, scopes := scopes₃, methods := drafts.length :: s₂.methods, log := log₃ }
    have hmethods₂ := hsame₂.methods.trans hsame₁.methods
    have hsteady₃ : s₃.Steady kinds drafts.length
        ⟨title, drafts ++ [d₃], drafts.length :: opened⟩ d₃ := by
      refine ⟨hshows₃, ?_, rfl, by simp, ?_, hsound₃, ?_⟩
      · exact congrArg (drafts.length :: ·) (hopened.trans hmethods₂.symm)
      · have hloops₃ : s₃.loops = [] := (hsame₂.loops.trans hsame₁.loops).trans hloops
        simp [hloops₃]
      · exact ((hleads₁.trans hleads₂).kinds_suffix).trans hahead
    have hbody : Unbroken kinds (body budget item) :=
      hC.bind (hC.block hi budget) fun _ =>
        mem_ite (C := fun _ p => Unbroken kinds p) (hC.pure ()) (hC.error _)
    refine ends_bind.mpr (ends_bind.mpr (ends_modify.mpr (Ends.ensuring ?_)))
    refine (hbody hsteady₃).mono ?_ fun _ _ h => h
    rintro _ s₄ ⟨offsets, ⟨title₄, drafts₄, opened₄⟩, d₄, hsteady₄, hlabels₄, hapart₄, hmethods₄, -,
      hnested₄⟩
    obtain rfl : opened₄ = drafts.length :: opened := by
      refine (hsteady₄.opened.trans hmethods₄).trans ?_
      exact congrArg (drafts.length :: ·) (hmethods₂.trans hopened.symm)
    -- all labels made in the body have their offsets
    have hbound : ∀ label ∈ d₄.labels, label.isSome := by
      rw [hlabels₄]
      intro label hlabel
      obtain ⟨offset, -, rfl⟩ := List.mem_map.mp (by simpa [d₃, Draft.headed] using hlabel)
      rfl
    refine (endMethod_ends hsteady₄ hbound).bind ?_
    rintro _ s₅ ⟨drafts₅, hshows₅, hapart₅, hmethods₅, hscopes₅, hkinds₅⟩
    refine ⟨title₄, drafts₅, hshows₅, ?_, ?_, hscopes₅ ▸ hsteady₄.scopes, ?_,
      hkinds₅ ▸ hsteady₄.ahead⟩
    · exact ((Outline.Apart.append _ d₃).trans hapart₄).trans hapart₅
    · exact hmethods₅.trans ((congrArg List.tail hmethods₄).trans hmethods₂)
    · rw [hscopes₅]
      exact hnested₄.trans hnested₃
  · -- too many parameters: no error was reported before, so they all stand behind the parenthesis
    rintro e s₁ ⟨⟨rfl, hsettled, ds, hne, hlength, hds, hlist⟩, -⟩
    refine ⟨rfl, type, name, ds, ?_, hds, ?_⟩
    · simp only [List.size_toArray, List.length_nil] at hlength
      omega
    · obtain ⟨rest, hrest⟩ := hlist
      obtain ⟨front, hfront⟩ := hheader hsettled
      exact ⟨front, rest, by rw [← hfront, ← hrest]; simp⟩

/-- A method: its scope can be left when the method has been ended.  An error at its name makes the
parser skip what follows, so the header is known only if there was none. -/
theorem method_ends (budget : Nat) {type : TypeName} {name : String} (p : Position)
    (hsteady : s.Steady kinds id o d)
    (hheader : [.keyword type.word, .identifier name, .symbol .leftParen] ++ s.kinds <:+ kinds) :
    Ends (method budget item type.ty name p) s
      (fun _ s' => ∃ offsets : List Nat, s.Reaches kinds id o d (offsets.map some) s')
      fun h _ => h.Excused kinds := by
  have honward := (onward_fine.checkFresh .method name p).ends s
  refine ends_bind.mpr (((checkFresh_ends _ _ _).and honward).mono ?_ fun _ _ h => h.1)
  rintro _ s₁ ⟨hfresh, hleads₁⟩
  have hsame₁ : s.Same s₁ := by
    rcases hfresh with rfl | ⟨hsame, -⟩
    · exact .refl s₁
    · exact hsame
  have hheader₁ (hsettled : s₁.recovering = false) :
      [.keyword type.word, .identifier name, .symbol .leftParen] ++ s₁.kinds <:+ kinds := by
    rcases hfresh with rfl | ⟨-, hrecovering⟩
    · exact hheader
    · simp [hrecovering] at hsettled
  obtain ⟨log₂, hdeclare⟩ := scope_ok (c := .declareMethod name type.ty)
    (run_modifyGet_declare s₁.scopes (.method name type.ty [] none))
  refine ends_bind.mpr (ends_of_ok hdeclare ?_)
  let scopes₂ := (s₁.scopes.declare (.method name type.ty [] none)).2
  have hsound₂ : scopes₂.Sound := (hsame₁.scopes ▸ hsteady.scopes).declare trivial
  have hrun : Scopes.Call.enter.run scopes₂ = .ok () scopes₂.enter := rfl
  obtain ⟨log₃, henter⟩ :=
    scope_ok (c := .enter) (s := { s₁ with scopes := scopes₂, log := log₂ }) hrun
  refine ends_bind.mpr (ends_of_ok henter (ends_bind.mpr (ends_view.mpr (ends_bind.mpr
    (ends_modify.mpr (Ends.ensuring ?_))))))
  obtain ⟨title, drafts, opened⟩ := o
  let s₃ : State := { s₁ with scopes := scopes₂.enter, loops := [], log := log₃ }
  refine (methodRest_ends hend hi budget (s := s₃) (hsame₁.assembler ▸ hsteady.shows)
    (hsteady.opened.trans hsame₁.methods.symm) rfl hsound₂.enter ?_
    (hleads₁.kinds_suffix.trans hsteady.ahead) hheader₁).mono ?_ ?_
  · show scopes₂.entities[s₁.scopes.entities.size]? = _
    simp [scopes₂]
  · rintro _ s₄ ⟨title₄, drafts₄, hshows₄, hapart₄, hmethods₄, hsound₄, hnested₄, hahead₄⟩
    -- the scope of the method is still there to be left
    have hnested : s₄.scopes.nested.length = s.scopes.nested.length + 1 := by
      rw [hnested₄, ← hsame₁.scopes]
      show scopes₂.nested.length + 1 = _
      rw [Scopes.length_nested_declare]
    obtain ⟨scopes₅, hexit, hnested₅, hsound₅, -⟩ := Scopes.exit_eq_ok hsound₄
      (by rw [← List.length_pos_iff, hnested]; omega)
    obtain ⟨log₅, hscope⟩ := scope_ok (c := .exit) (s := { s₄ with loops := s₁.loops }) hexit
    refine ends_bind.mpr (ends_modify.mpr (ends_of_ok hscope ?_))
    have hlt := (List.getElem?_eq_some_iff.mp hsteady.draft).1
    -- the method around was not the one being written, so its new labels all have offsets
    obtain ⟨d', offsets, hd', hlabels⟩ := hapart₄ id d (Nat.ne_of_lt hlt) hsteady.draft
    refine ⟨offsets, _, d', ⟨hshows₄, ?_, ?_, hd', ?_, hsound₅, hahead₄⟩, hlabels, ?_, ?_,
      hsame₁.loops, ?_⟩
    · exact hsteady.opened.trans (hmethods₄.trans hsame₁.methods).symm
    · exact (congrArg List.head? (hmethods₄.trans hsame₁.methods)).trans hsteady.current
    · rw [hlabels, List.length_append]
      intro loop hloop
      exact (hsteady.loops loop (hsame₁.loops ▸ hloop)).mono (Nat.le_add_right _ _)
    · intro j e hj he
      exact hapart₄ j e (Nat.ne_of_lt (List.getElem?_eq_some_iff.mp he).1) he
    · exact hmethods₄.trans hsame₁.methods
    · show scopes₅.nested.length = _
      rw [hnested₅, List.length_tail, hnested]
      rfl
  · -- if the body broke an invariant or stopped the pass, the scope is left all the same
    exact fun e _ he => ends_of_forall (fun _ _ => he) fun _ _ => he

/-- A declaration.  The header of a method is the type, the name and the parenthesis that were
passed just before its parameters. -/
theorem unbroken_declarationForm (budget : Nat) : Unbroken kinds (declarationForm budget item) := by
  have hC := unbroken_closed kinds
  intro s id o d hsteady
  refine ends_bind.mpr (ends_accept? (fun ty hty => ?_) fun _ => ⟨[], hsteady.reaches⟩)
  obtain ⟨k, hk, hty⟩ := Option.bind_eq_some_iff.mp hty
  obtain ⟨-, rfl⟩ := State.current?_eq_some.mp hk
  obtain ⟨type, htype, rfl⟩ := Token.Kind.type?_eq_some hty
  have hlast {t : State} (ht : t.kinds <:+ kinds) : t.kinds.getLast? = some .endOfInput :=
    (State.getLast?_kinds_of_suffix ht).trans hend
  have hkinds₁ := State.kinds_advance (hlast hsteady.ahead) (by simp [htype])
  have hsteady₁ := hsteady.of_same (.advance s) (.advance s)
  have hsame₁ := State.Same.advance s
  generalize s.advance = s₁ at hkinds₁ hsteady₁ hsame₁
  refine Ends.bind (Q := fun _ s' => ∃ offsets : List Nat,
    s.Reaches kinds id o d (offsets.map some) s') ?_ fun _ s' h' => h'
  refine ends_bind.mpr (ends_view.mpr (ends_bind.mpr (ends_accept? (fun name hname => ?_) ?_)))
  · obtain ⟨k, hk, hname⟩ := Option.bind_eq_some_iff.mp hname
    obtain ⟨-, rfl⟩ := State.current?_eq_some.mp hk
    have hident := Token.Kind.name?_eq_some hname
    have hkinds₂ := State.kinds_advance (hlast hsteady₁.ahead) (by simp [hident])
    have hsteady₂ := hsteady₁.of_same (.advance s₁) (.advance s₁)
    have hsame₂ := hsame₁.trans (State.Same.advance s₁)
    generalize s₁.advance = s₂ at hkinds₂ hsteady₂ hsame₂
    refine ends_bind.mpr (ends_accept (fun hparen => ?_) fun _ => ?_)
    · obtain ⟨-, hparen⟩ := State.current?_eq_some.mp hparen
      have hkinds₃ := State.kinds_advance (hlast hsteady₂.ahead) (by simp [hparen])
      have hsame₃ := hsame₂.trans (State.Same.advance s₂)
      -- the type, the name and the parenthesis stand in front of the parameters
      have hfront := hsteady.ahead
      rw [hkinds₁, hkinds₂, hkinds₃, htype, hident, hparen] at hfront
      refine (method_ends hend hi budget s₁.lookahead.position
        (hsteady₂.of_same (.advance s₂) (.advance s₂)) hfront).mono ?_ fun _ _ h => h
      rintro _ s' ⟨offsets, h'⟩
      exact ⟨offsets, .same_trans hsame₃ h'⟩
    · refine (unbroken_field type.ty_ne_unknown name _ hsteady₂).mono ?_ fun _ _ h => h
      rintro _ s' ⟨offsets, h'⟩
      exact ⟨offsets, .same_trans hsame₂ h'⟩
  · -- a type with no name behind it is reported
    intro _
    refine ((hC.error .expectedIdentifier) hsteady₁).mono ?_ fun _ _ h => h
    rintro _ s' ⟨offsets, h'⟩
    exact ⟨offsets, .same_trans hsame₁ h'⟩

end

/-- **Every production is unbroken**, whatever the source is.  The source ends with the end of
input, which is never passed. -/
theorem unbroken_grammar (options : Options) (hend : kinds.getLast? = some .endOfInput) :
    Grammar options fun _ p => Unbroken kinds p where
  toClosed := unbroken_closed kinds
  bugStatement := (unbroken_closed kinds).toSequential.bugStatement fun _ _ =>
    unbroken_of_same fun s => ⟨.report s _, .report s rfl⟩
  named he name p := unbroken_named options he name p
  printNamed name p := unbroken_printNamed options name p
  conditional he hs := unbroken_conditional he hs
  loop he hs := unbroken_loop he hs
  leaveBreak _ := unbroken_leaveStatement .break .break fun h => h.1
  leaveContinue _ := unbroken_leaveStatement .continue .continue fun h => h.2
  declarationForm hi budget := unbroken_declarationForm hend hi budget
  settle := unbroken_of_same fun _ => ⟨⟨rfl, rfl, rfl, rfl⟩, .of_eq rfl rfl rfl⟩
  skipUnexpected := unbroken_of_same fun s => ⟨.skipUnexpected s, .skipUnexpected s⟩

/-! ### Whole sources -/

/-- A list of parameters has a comma between any two of them. -/
theorem length_le_count_comma (ds : List Declarator) :
    ds.length ≤ (Declarator.listKinds ds).count (.symbol .comma) + 1 := by
  induction ds with
  | nil => simp
  | cons d ds ih =>
    by_cases hds : ds = []
    · simp [hds]
    · rw [Declarator.listKinds_cons d hds, List.count_append, List.count_cons_self]
      simp only [List.length_cons]
      omega

/-- So a header with too many parameters takes that many commas. -/
theorem LongHeader.le_count_comma (h : LongHeader kinds) :
    Method.maxParameters ≤ kinds.count (.symbol .comma) := by
  obtain ⟨type, name, ds, hlength, -, front, rest, rfl⟩ := h
  have := length_le_count_comma ds
  simp only [List.count_append]
  omega

/-- The outline of a program that has just been begun. -/
def begunOutline (options : Options) : Outline :=
  ⟨options.programName, [.new "main" .void []], [0]⟩

/-- The state at the first token of a source, once its program has been begun. -/
def begunState (source : String) (assembler : Assembler) (log : Array Event) : State :=
  { (State.start (lexemes source)).advance with assembler, methods := [0], log }

/-- A pass begins the program, and then reads the items. -/
theorem program_eq (options : Options) (source : String) :
    ∃ assembler log, assembler.Shows (begunOutline options) ∧ ∀ budget,
      program options budget (.start (lexemes source)) =
        (items (item options budget) budget >>= fun _ =>
          view fun s => decide (s.diagnostics.errorCount = 0 ∧ s.atEnd = true))
          (begunState source assembler log) := by
  obtain ⟨a, ha, hshows⟩ := Assembler.Call.beginProgram_shows
    (State.start (lexemes source)).advance.assembler options.programName
  obtain ⟨log, hbegin⟩ := assemble_ok ha
  refine ⟨a, log, hshows, fun budget => ?_⟩
  have hadvance : (modify State.advance : Production Unit) (.start (lexemes source)) =
      .ok () (State.start (lexemes source)).advance := rfl
  exact (bind_of_ok hadvance).trans (bind_of_ok hbegin)

/-- What holds where the items of a source end holds where the pass over it ends.  The last thing
the pass does is to look whether there were errors. -/
theorem parse_of_items (options : Options) (source : String) :
    ∃ assembler log, assembler.Shows (begunOutline options) ∧
      ∀ {Q : State → Prop} {E : Halt → State → Prop},
        Ends (items (item options (lexemes source).length) (lexemes source).length)
          (begunState source assembler log) (fun _ s => Q s) E →
        (∀ matched, (parse options source).outcome = .ok matched → Q (parse options source).state) ∧
        ∀ halt, (parse options source).outcome = .error halt →
          E halt (parse options source).state := by
  obtain ⟨assembler, log, hshows, hprogram⟩ := program_eq options source
  refine ⟨assembler, log, hshows, fun {Q E} hitems => ?_⟩
  have hends : Ends (program options (lexemes source).length) (.start (lexemes source))
      (fun _ s => Q s) E := by
    unfold Ends
    rw [hprogram]
    exact hitems.bind fun _ _ hQ => hQ
  cases hrun : program options (lexemes source).length (.start (lexemes source)) with
  | error e s =>
    have hparse : parse options source = ⟨.error e, s⟩ := by simp [parse, hrun]
    unfold Ends at hends
    rw [hrun] at hends
    rw [hparse]
    refine ⟨fun _ h => (by cases h), ?_⟩
    rintro _ ⟨⟩
    exact hends
  | ok found s =>
    have hparse : parse options source = ⟨.ok found, s⟩ := by simp [parse, hrun]
    rw [hparse]
    exact ⟨fun _ _ => hends.of_ok hrun, fun _ h => (by cases h)⟩

/-- The program that has been begun is in order: its entry method is open, without loops or
labels. -/
theorem begunState_steady {options : Options} {source : String} {assembler : Assembler}
    {log : Array Event} (hshows : assembler.Shows (begunOutline options)) :
    (begunState source assembler log).Steady (sourceKinds source) 0 (begunOutline options)
      (.new "main" .void []) := by
  have hsame := State.Same.advance (.start (lexemes source))
  refine ⟨hshows, rfl, rfl, rfl, ?_, ?_, ?_⟩
  · have hloops : (begunState source assembler log).loops = [] := hsame.loops
    simp [hloops]
  · have hscopes : (begunState source assembler log).scopes = .initial := hsame.scopes
    exact hscopes ▸ Scopes.sound_initial.1
  · exact ⟨[], State.kinds_advance_start source⟩

/-- After a whole program all labels of the entry method have their offsets, so the assembler can
finish it. -/
theorem program_ends (options : Options) (budget : Nat) (source : String) :
    Ends (program options budget) (.start (lexemes source))
      (fun _ s' => ∀ log, ∃ result logged,
        Assembler.finish ⟨s'.assembler, log⟩ = .ok result logged)
      fun h _ => h.Excused (sourceKinds source) := by
  obtain ⟨assembler, log, hshows, hprogram⟩ := program_eq options source
  unfold Ends
  rw [hprogram]
  have hitems := (unbroken_grammar options (getLast?_sourceKinds source)).items budget budget
  refine (hitems (begunState_steady hshows)).bind ?_
  rintro _ s₂ ⟨offsets, ⟨title, drafts, opened⟩, d, hsteady₂, hlabels, -, hmethods, -⟩
  obtain rfl : opened = [0] := hsteady₂.opened.trans hmethods
  have hbound : ∀ label ∈ d.labels, label.isSome := by
    rw [hlabels]
    intro label hlabel
    obtain ⟨offset, -, rfl⟩ := List.mem_map.mp (by simpa [Draft.new] using hlabel)
    rfl
  refine ends_view.mpr fun log => ?_
  obtain ⟨methods, logged, hfinish, -⟩ :=
    Assembler.finish_shows hsteady₂.shows hsteady₂.draft hbound log
  exact ⟨_, logged, hfinish⟩

end Production

open Production in
/-- How the pass over a source ends: with an assembler that can finish the program, or early and
excused. -/
theorem parse_ends (options : Options) (source : String) :
    match (parse options source).outcome with
    | .ok _ => ∀ log, ∃ result logged,
      Assembler.finish ⟨(parse options source).state.assembler, log⟩ = .ok result logged
    | .error h => h.Excused (sourceKinds source) := by
  have h := program_ends options (lexemes source).length source
  unfold parse
  unfold Ends at h
  cases hp : program options (lexemes source).length (.start (lexemes source)) with
  | ok b s => simpa [hp] using h
  | error e s => simpa [hp] using h

/-- The program of a state is the one that its assembler finishes. -/
theorem State.value_complete (s : State) :
    s.complete.value = match Assembler.finish ⟨s.assembler, s.log⟩ with
      | .ok program _ => .ok ⟨program, s.diagnostics⟩
      | .error fault _ => .error (.broken fault) := by
  unfold complete
  cases Assembler.finish ⟨s.assembler, s.log⟩ <;> rfl

/-- What a compilation gives, told from how the pass over its source ended. -/
theorem compile_eq (options : Options) (source : String) :
    let state := (parse options source).state
    ∃ log, compile options source =
      match (parse options source).outcome with
      | .error (.broken fault) => .error (.broken fault)
      | .error (.fatal error) => .error (.aborted error state.diagnostics)
      | .ok false => .error (.failed state.diagnostics)
      | .ok true =>
        match Assembler.finish ⟨state.assembler, log⟩ with
        | .ok program _ => .ok ⟨program, state.diagnostics⟩
        | .error fault _ => .error (.broken fault) := by
  unfold compile compileLogged
  rcases hparse : parse options source with ⟨(_ | _) | (_ | _), state⟩
  · exact ⟨#[], rfl⟩
  · exact ⟨#[], rfl⟩
  · exact ⟨#[], rfl⟩
  · refine ⟨state.log.push (.parsed options.programName state.diagnostics.errorCount
      state.diagnostics.warningCount), ?_⟩
    exact State.value_complete _

/-- **No source breaks an invariant.**  The pass never ends in a fault, except that there are
too many parameters, and not in that one without a comma for each of them but the first; after
every other pass, errors or not, the program can be had.  So compiling ends in a fault only
for a header with too many parameters. -/
theorem no_source_breaks_an_invariant (options : Options) (source : String) :
    (∀ fault, (parse options source).outcome = .error (.broken fault) →
      fault = .tooManyParameters ∧ 65535 ≤ (sourceKinds source).count (.symbol .comma)) ∧
    (∀ matched, (parse options source).outcome = .ok matched →
      ∃ program logged, Assembler.finish
        ⟨(parse options source).state.assembler, (parse options source).state.log⟩ =
          .ok program logged) ∧
    (∀ fault, compile options source = .error (.broken fault) →
      fault = .tooManyParameters ∧ Production.LongHeader (sourceKinds source)) := by
  have h := parse_ends options source
  refine ⟨fun fault hfault => ?_, fun matched hmatched => ?_, fun fault hfault => ?_⟩
  · rw [hfault] at h
    exact ⟨h.1, h.2.le_count_comma⟩
  · rw [hmatched] at h
    exact h _
  · obtain ⟨log, hcompile⟩ := compile_eq options source
    rw [hcompile] at hfault
    rcases houtcome : (parse options source).outcome with (error | fault') | (_ | _)
    · simp [houtcome] at hfault
    · rw [houtcome] at h hfault
      obtain rfl : fault' = fault := by simpa using hfault
      exact h
    · simp [houtcome] at hfault
    · rw [houtcome] at h hfault
      -- the program can be finished whatever has been logged
      obtain ⟨program, logged, hfinish⟩ := h log
      simp [hfinish] at hfault

/-- A result that is there is no failure. -/
theorem eq_ok_of_toOption {ε α : Type} {x : Except ε α} {a : α} (h : x.toOption = some a) :
    x = .ok a := by
  cases x with
  | error e => simp [Except.toOption] at h
  | ok b => simpa [Except.toOption] using h

/-- A pass that reports three errors inside of a method, and after which the program can be
had. -/
theorem no_source_breaks_an_invariant_recovered :
    let parsed := parse {} "int f(int a) { while (a) { if () x; y; } return 1 }"
    parsed.outcome = .ok false ∧ ∃ program logged,
      Assembler.finish ⟨parsed.state.assembler, parsed.state.log⟩ = .ok program logged :=
  have houtcome := eq_ok_of_toOption (by decide +kernel)
  ⟨houtcome, (no_source_breaks_an_invariant {} _).2.1 false houtcome⟩

end OnePass
