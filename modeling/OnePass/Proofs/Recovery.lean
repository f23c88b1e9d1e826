import OnePass.Proofs.Skipping

/-!
# What a mistake does to its statement

After a mistake the productions that are still at work match nothing and report nothing.  They
may emit operations, but they make no labels and declare nothing, so that behind the skipped
tokens the pass stands as it would have without the statement, apart from some code.

## Main definitions

* `Production.Coasts` — the production leaves it at one mistake.
* `Production.Fails` — a production trips over the faulty expressions of a rung.
* `Production.Spoils` — a production reads a whole statement, and trips over it.

## Main results

* `Production.coasts_closed` — whatever is read in expressions coasts.
* `Production.fails_expression` — **faulty expressions are tripped over**.
* `Production.expressionStatement_spoils`, `Production.printStatement_spoils`,
  `Production.voidField_spoils` — so are the faulty statements without statements in them.
-/

namespace OnePass

namespace Production

variable {α : Type} {s s₁ : State} {σ : Site} {o : Outline} {d : Draft}
  {line beyond ks gone more : List Token.Kind} {code : List Operation}

/-! ### After a mistake -/

/-- After a mistake the production matches nothing and reports nothing, and it makes no labels and
declares nothing.  What it may still do is emit operations, so that a pass that has tripped in a
statement has still only tripped in it afterwards. -/
structure Coasts (p : Production α) : Prop where
  ends : ∀ {s s₁ : State} {σ : Site} {o : Outline} {d : Draft} {ks gone : List Token.Kind},
    s.Trips σ o d ks gone s₁ → Ends p s₁ (fun _ s₂ => s.Trips σ o d ks gone s₂) fun _ _ => False

/-- A call to the assembler does not depend on whether an error is being recovered from: it can be
judged as if there had been none, and the recovery goes on as before. -/
theorem ends_assemble_settle {c : Assembler.Call} {Q : c.Answer → State → Prop}
    {E : Halt → State → Prop} (h : Ends (assemble c) s.settle Q E) :
    Ends (assemble c) s (fun x s' => s'.recovering = s.recovering ∧ Q x s'.settle)
      fun e s' => E e s'.settle := by
  unfold Ends at h ⊢
  rw [assemble_apply] at h ⊢
  have hperform : c.perform ⟨s.settle.assembler, s.settle.log⟩ = c.perform ⟨s.assembler, s.log⟩ :=
    rfl
  rw [hperform] at h
  cases hrun : c.perform ⟨s.assembler, s.log⟩ with
  | ok x l =>
    rw [hrun] at h
    exact ⟨rfl, h⟩
  | error f l =>
    rw [hrun] at h
    exact h

/-- A request that adds nothing but operations coasts: behind it the pass has moved over the same
tokens with some more code. -/
theorem coasts_assemble {c : Assembler.Call}
    (h : ∀ {s s₁ : State} {σ : Site} {o : Outline} {d : Draft} {ks : List Token.Kind}
      {operations : List Operation} {added : List Diagnostic},
      s.Moves σ o d ks (.plain operations) added s₁ → Ends (assemble c) s₁
        (fun _ s₂ => ∃ operations', s.Moves σ o d ks (.plain operations') added s₂)
        fun _ _ => False) :
    Coasts (assemble c) := by
  constructor
  intro s s₁ σ o d ks gone hs
  obtain ⟨operations, t, e, ht, hmoves⟩ := hs.moves
  refine (ends_assemble_settle (h hmoves)).imp ?_
  intro _ s₂ hmoves'
  obtain ⟨hrecovering, operations', hmoves'⟩ := hmoves'
  exact ⟨hrecovering.trans hs.recovering, operations', t, e, ht, hmoves'⟩

theorem coasts_emit (operation : Operation) : Coasts (emit operation) := by
  refine coasts_assemble fun hmoves => (emit_moves hmoves operation).imp ?_
  intro _ s₂ h₂
  exact ⟨_, by rwa [Fragment.plain_append] at h₂⟩

/-- Whatever is read in expressions coasts.  While an error is being recovered from, there is no
current token to match, and further errors are dropped. -/
theorem coasts_closed : Closed fun _ p => Coasts p where
  pure _ := ⟨fun hs => hs⟩
  bind hp hf := ⟨fun hs => (hp.ends hs).bind fun a _ h₂ => (hf a).ends h₂⟩
  view _ := ⟨fun hs => hs⟩
  accept? select := by
    refine ⟨fun hs => ends_accept? (fun a ha => ?_) fun _ => hs⟩
    simp [State.current?, hs.recovering] at ha
  accept kind := by
    refine ⟨fun hs => ends_accept (fun hk => ?_) fun _ => hs⟩
    simp [State.current?, hs.recovering] at hk
  error e := ⟨fun hs => hs.errorAt _ e⟩
  errorAt p e := ⟨fun hs => hs.errorAt p e⟩
  emit {operation} _ := coasts_emit operation
  returnType := by
    refine coasts_assemble fun {_ _ _ _ _ _ operations _} hmoves =>
      (returnType_goes hmoves).imp ?_
    intro _ s₂ h₂
    obtain ⟨-, h₂⟩ := h₂
    exact ⟨operations, h₂⟩

theorem coasts_store (entity : Entity) (x : String) (p : Position) (value : Ty)
    (valuePosition : Position) : Coasts (store entity x p value valuePosition) := by
  have hC := coasts_closed
  cases entity with
  | type _ _ => exact hC.errorAt p _
  | method _ _ _ _ => exact hC.errorAt p _
  | parameter _ _ _ _ => exact hC.errorAt p _
  | «local» _ ty slot =>
    -- even what is emitted for an assignment after a mistake is only code
    refine hC.bind (hC.view _) fun _ => mem_ite (C := fun _ p => Coasts p) ?_ (hC.errorAt p _)
    exact hC.bind (hC.check _ _ _) fun _ => hC.bind (coasts_emit _) fun _ => coasts_emit _

theorem coasts_continued {first : Production (Option Ty)} {rest : Ty → Production Ty}
    (hfirst : Coasts first) (hrest : ∀ left, Coasts (rest left)) :
    Coasts (continued first rest) := by
  have hC := coasts_closed
  refine hC.bind hfirst fun left => ?_
  cases left with
  | none => exact hC.pure none
  | some left =>
    exact mem_ite (C := fun _ p => Coasts p) (hC.pure _)
      (hC.bind (hrest left) fun _ => hC.pure _)

/-! ### Reading on -/

section

variable {k : Token.Kind} {E : Halt → State → Prop}

/-- A token of the statement is passed, and what is left of the statement is one token shorter. -/
theorem accept?_on (h : s.On σ o d line beyond ks (k :: more) code s₁)
    (select : Token.Kind → Option α) (hselect : select .endOfInput = none) {a : α}
    (hk : select k = some a) :
    Ends (accept? select) s₁ (fun found s₂ => found = some a ∧
      s.On σ o d line beyond (ks ++ [k]) more code s₂) E := by
  refine (accept?_takes h.moves select hselect h.lookahead hk).imp ?_
  intro found s₂ h₂
  obtain ⟨hfound, h₂⟩ := h₂
  exact ⟨hfound, State.On.step (List.singleton_append ▸ h) h₂⟩

theorem accept_on (h : s.On σ o d line beyond ks (k :: more) code s₁) (hk : k ≠ .endOfInput) :
    Ends (accept k) s₁ (fun found s₂ => found = true ∧
      s.On σ o d line beyond (ks ++ [k]) more code s₂) E := by
  refine (accept_takes h.moves hk h.lookahead).imp ?_
  intro found s₂ h₂
  obtain ⟨hfound, h₂⟩ := h₂
  exact ⟨hfound, State.On.step (List.singleton_append ▸ h) h₂⟩

theorem expect_on {mark : Symbol} (h : s.On σ o d line beyond ks (.symbol mark :: more) code s₁) :
    Ends (expect mark) s₁
      (fun _ s₂ => s.On σ o d line beyond (ks ++ [.symbol mark]) more code s₂) E := by
  refine (accept_on h (by simp)).bind ?_
  rintro _ s₂ ⟨rfl, h₂⟩
  exact h₂

theorem emit_on (h : s.On σ o d line beyond ks more code s₁) (operation : Operation) :
    Ends (emit operation) s₁
      (fun _ s₂ => s.On σ o d line beyond ks more (code ++ [operation]) s₂) E := by
  refine (emit_moves h.moves operation).imp ?_
  intro _ s₂ h₂
  rw [Fragment.plain_append] at h₂
  exact ⟨h₂, h.inline, h.whole, h₂.passes.kinds_eq (by rw [h.moves.passes.kinds, h.left])⟩

section

variable {options : Options} {bound : Nat} {r : Rung} {p : Production (Option Ty)}
  (hp : Reads options bound r p) {e : Expr r}
  (h : s.On σ o d line beyond ks (e.kinds ++ more) code s₁) (hoptions : σ.options = options)
  (hbound : s₁.tokens.length ≤ bound) (hk : ∀ k ∈ more.head?, e.goesOn k = false)
  (htidy : e.Tidy options.typing) {ty : Ty} {c : List Operation}
  (hlower : e.lower? σ = some (ty, c))
include hp h hoptions hbound hk htidy hlower

/-- A part of the statement that is well is read as it would be anywhere else, and the rest of the
statement is left. -/
theorem Reads.on : Ends p s₁ (fun a s₂ => a = some ty ∧
    s.On σ o d line beyond (ks ++ e.kinds) more (code ++ c) s₂) fun _ _ => False := by
  -- something of the statement follows the part and does not go on with it; only behind an
  -- assignment, which ends the statement, the token that follows is from beyond
  obtain ⟨k, rest, hnext, hk⟩ : ∃ k rest, more ++ beyond = k :: rest ∧ e.goesOn k = false := by
    rw [← hoptions] at htidy
    rcases htidy.pure_or_isAssign h.valued hlower with hpure | hassign
    · obtain ⟨k, more', rfl⟩ := h.exists_next hpure
      exact ⟨k, _, rfl, hk k rfl⟩
    · obtain rfl := h.more_eq_nil hassign
      obtain ⟨k, rest, hnext⟩ := h.exists_beyond
      exact ⟨k, rest, hnext, Expr.goesOn_of_isAssign k hassign⟩
  refine (hp.goes h.moves hoptions hbound (by rw [h.left, List.append_assoc, hnext]) hk hlower).imp
    ?_
  intro a s₂ h₂
  obtain ⟨ha, h₂⟩ := h₂
  exact ⟨ha, h.step h₂⟩

theorem Reads.operand_on : Ends (operand p) s₁ (fun a s₂ => a = ty ∧
    s.On σ o d line beyond (ks ++ e.kinds) more (code ++ c) s₂) fun _ _ => False := by
  refine (hp.on h hoptions hbound hk htidy hlower).bind ?_
  rintro _ s₂ ⟨rfl, h₂⟩
  exact ⟨rfl, h₂⟩

end

end

/-! ### Faulty expressions -/

/-- The production answers, and there has been a mistake in the statement.  That it answers matters:
whoever asked takes the expression for read and does not report that it is missing. -/
def Stumbles (p : Production (Option Ty)) (s₁ s : State) (σ : Site) (o : Outline) (d : Draft)
    (line gone : List Token.Kind) : Prop :=
  Ends p s₁ (fun a s₂ => a.isSome = true ∧ s.Trips σ o d (line ++ [.symbol .semicolon]) gone s₂)
    fun _ _ => False

theorem Stumbles.operand {p : Production (Option Ty)} (h : Stumbles p s₁ s σ o d line gone) :
    Ends (operand p) s₁ (fun _ s₂ => s.Trips σ o d (line ++ [.symbol .semicolon]) gone s₂)
      fun _ _ => False := by
  refine Ends.bind h ?_
  rintro (_ | ty) s₂ ⟨hsome, h₂⟩
  · cases hsome
  · exact h₂

/-- A mistake in the first operand is the only one, since what follows the operand coasts. -/
theorem Stumbles.continued {first : Production (Option Ty)} {rest : Ty → Production Ty}
    (h : Stumbles first s₁ s σ o d line gone) (hrest : ∀ left, Coasts (rest left)) :
    Stumbles (continued first rest) s₁ s σ o d line gone := by
  refine Ends.bind h ?_
  rintro (_ | left) s₂ ⟨hsome, h₂⟩
  · cases hsome
  · show Ends (if left = .void then _ else _) _ _ _
    -- a first operand without a value ends the expression, which makes no difference after the
    -- mistake
    by_cases hvoid : left = .void
    · rw [if_pos hvoid]
      exact ⟨rfl, h₂⟩
    · rw [if_neg hvoid]
      exact ((hrest left).ends h₂).bind fun _ s₃ h₃ => ⟨rfl, h₃⟩

/-- The first operand is well and is read, and the mistake is in what follows it. -/
theorem Reads.stumbles {options : Options} {bound : Nat} {r : Rung}
    {first : Production (Option Ty)} {rest : Ty → Production Ty}
    (hfirst : Reads options bound r first) {e : Expr r}
    (h : s.On σ o d line beyond ks (e.kinds ++ more) code s₁) (hoptions : σ.options = options)
    (hbound : s₁.tokens.length ≤ bound) (hk : ∀ k ∈ more.head?, e.goesOn k = false)
    (hpure : e.pure = true) {tl : Ty} {cl : List Operation} (hlower : e.lower? σ = some (tl, cl))
    (hrest : ∀ {s₂ : State}, s.On σ o d line beyond (ks ++ e.kinds) more (code ++ cl) s₂ →
      Ends (rest tl) s₂ (fun _ s₃ => s.Trips σ o d (line ++ [.symbol .semicolon]) gone s₃)
        fun _ _ => False) :
    Stumbles (Production.continued first rest) s₁ s σ o d line gone := by
  refine (hfirst.on h hoptions hbound hk (.of_pure hpure) hlower).bind ?_
  rintro _ s₂ ⟨rfl, h₂⟩
  show Ends (if tl = .void then _ else _) _ _ _
  rw [if_neg (Expr.ne_void_of_pure h.valued hpure hlower)]
  exact (hrest h₂).bind fun _ s₃ h₃ => ⟨rfl, h₃⟩

/-- The production trips over the expressions of a rung that mean nothing, if there are not more
tokens ahead than the bound.  An assignment in them may only be the last operand.  What is skipped
behind the statement depends on whether that assignment has read its semicolon. -/
structure Fails (options : Options) (bound : Nat) (r : Rung) (p : Production (Option Ty)) :
    Prop where
  coasts : Coasts p
  stumbles : ∀ {s s₁ : State} {σ : Site} {o : Outline} {d : Draft}
    {line beyond ks more : List Token.Kind} {code : List Operation} {e : Expr r},
    s.On σ o d line beyond ks (e.kinds ++ more) code s₁ → σ.options = options →
    s₁.tokens.length ≤ bound → (∀ k ∈ more.head?, e.goesOn k = false) → e.Tidy options.typing →
    e.lower? σ = none → Stumbles p s₁ s σ o d line (e.spill σ beyond)

section

variable {options : Options} {bound : Nat} {expression : Production (Option Ty)} {x : String}
  {k : Token.Kind} {p : Position} (hp : s.Saved line p)
include hp

/-- A name that is declared but cannot be loaded here is reported, at the position saved for it. -/
theorem load_trips (h : s.On σ o d line beyond ks (k :: more) code s₁) {entity : Entity}
    (hentity : s₁.scopes.find? x = some entity) (hload : σ.load? x = none) :
    Ends (load options entity x p) s₁ (fun r s₂ => r = none ∧
      s.Trips σ o d (line ++ [.symbol .semicolon]) [] s₂) fun _ _ => False := by
  have hfind := h.moves.here.find?_eq x
  rw [hentity] at hfind
  have hload' : (σ.past (.plain code)).load? x = none := by
    rw [Site.past_plain]
    exact hload
  obtain ⟨e, hrefuse⟩ : ∃ e, load options entity x p s₁ = refuse p e s₁ :=
    load_eq_refuse h.moves hfind hload' p
  unfold Ends
  rw [hrefuse]
  exact ⟨rfl, h.errorAt hp e⟩

/-- A name that cannot be loaded is reported, whether it is declared or not. -/
theorem named_trips (h : s.On σ o d line beyond ks (k :: more) code s₁) (hk : k ≠ .symbol .equal)
    (hload : σ.load? x = none) :
    Ends (named options expression x p) s₁
      (fun _ s₂ => s.Trips σ o d (line ++ [.symbol .semicolon]) [] s₂) fun _ _ => False := by
  refine ends_bind.mpr (ends_view.mpr ?_)
  cases hentity : s₁.scopes.find? x with
  | none => exact h.errorAt hp _
  | some entity =>
    refine ends_bind.mpr ((accept_goes h.moves (by simp)).imp ?_)
    rintro (_ | _) s₂ ⟨hequal, h₂⟩
    · subst h₂
      exact (load_trips hp h hentity hload).bind fun _ s₃ h₃ => h₃.2
    · -- with an equal sign behind it the name would be the target of an assignment
      exact absurd (h.lookahead.symm.trans hequal) hk

/-- What cannot be stored is reported: the target is no local, is out of reach, or does not take the
value. -/
theorem store_trips (h : s.On σ o d line beyond ks (k :: more) code s₁) {entity : Entity}
    (hfind : σ.find? x = some entity.binding) {value : Ty} {valuePosition : Position}
    (hvalue : s.Saved line valuePosition)
    (hstore : ∀ target slot, σ.store? x = some (target, slot) → target.accepts value = false) :
    Ends (store entity x p value valuePosition) s₁
      (fun _ s₂ => s.Trips σ o d (line ++ [.symbol .semicolon]) [] s₂) fun _ _ => False := by
  cases entity with
  | type _ _ => exact h.errorAt hp _
  | method _ _ _ _ => exact h.errorAt hp _
  | parameter _ _ _ _ => exact h.errorAt hp _
  | «local» _ declared slot =>
    refine ends_bind.mpr (ends_view.mpr ?_)
    by_cases hreaches : σ.reaches slot.method = true
    · -- the local is in reach, so the value does not fit; what is emitted for the store after that
      -- is only code
      have hrejects := hstore declared slot (by
        simp only [Site.store?, hfind, Entity.binding]
        rw [if_pos hreaches])
      have hreach := (h.moves.here.reaches_iff slot.method).mpr (by
        rw [Site.past_plain]
        exact hreaches)
      rw [if_pos (by simpa using hreach), hrejects]
      exact (coasts_closed.bind (coasts_emit _) fun _ => coasts_emit _).ends (h.errorAt hvalue _)
    · -- a local of a method further out cannot be stored to from here
      have hreach := mt (h.moves.here.reaches_iff slot.method).mp (by
        rw [Site.past_plain]
        exact hreaches)
      rw [if_neg (by simpa using hreach)]
      exact h.errorAt hp _

/-- A faulty assignment of a value without assignments is tripped over: its target is not declared,
its value is faulty, or the one does not take the other. -/
theorem assign_trips (hexpression : Reads options bound .relation expression)
    (hfails : Fails options bound .relation expression) {value : Expr .relation}
    (h : s.On σ o d line beyond ks (.symbol .equal :: (value.kinds ++ .symbol .semicolon :: more))
      code s₁) (hoptions : σ.options = options) (hbound : s₁.tokens.length ≤ bound + 1)
    (hpure : value.pure = true) (hlower : (Expr.assign x value).lower? σ = none) :
    Ends (named options expression x p) s₁
      (fun _ s₂ => s.Trips σ o d (line ++ [.symbol .semicolon]) [] s₂) fun _ _ => False := by
  have hC := coasts_closed
  have hlast : Coasts (do
      expect .semicolon
      return Ty.void) := hC.bind (hC.expect _) fun _ => hC.pure _
  refine ends_bind.mpr (ends_view.mpr ?_)
  have hfind := h.moves.here.find?_eq x
  cases hentity : s₁.scopes.find? x with
  | none => exact h.errorAt hp _
  | some entity =>
    rw [hentity] at hfind
    refine (accept_on h (by simp)).bind ?_
    rintro _ s₂ ⟨rfl, h₂⟩
    have hlength : s₁.tokens.length = 1 + s₂.tokens.length := h.length_tokens h₂
    have hposition : s.Saved line s₂.lookahead.position := by
      obtain ⟨k, rest, hk, -⟩ := value.kinds_eq_cons
      rw [hk] at h₂
      exact h₂.saved
    have hnext : ∀ k ∈ (Token.Kind.symbol .semicolon :: more).head?, value.goesOn k = false := by
      simp
    refine ends_bind.mpr (ends_view.mpr ?_)
    cases hvalue : value.lower? σ with
    | none =>
      -- the value is faulty, and storing it coasts
      have hstumbles := hfails.stumbles h₂ hoptions (by omega) hnext (.of_pure hpure) hvalue
      rw [Expr.spill_eq_nil (Expr.spills_of_pure σ hpure)] at hstumbles
      refine hstumbles.operand.bind fun found s₃ h₃ => ?_
      exact (hC.bind (coasts_store entity x p found _) fun _ => hlast).ends h₃
    | some loaded =>
      obtain ⟨found, values⟩ := loaded
      refine (hexpression.operand_on h₂ hoptions (by omega) hnext (.of_pure hpure) hvalue).bind ?_
      rintro found s₃ ⟨rfl, h₃⟩
      -- the value is well, so it is the target that does not take it
      have hstore : ∀ target slot, σ.store? x = some (target, slot) →
          target.accepts found = false := by
        intro target slot hstore
        simpa [Expr.lower?, hvalue, hstore] using hlower
      refine (store_trips hp h₃ ?_ hposition hstore).bind fun _ s₄ h₄ => hlast.ends h₄
      rwa [Site.past_plain] at hfind

end

/-- A faulty operand is a name or an assignment, as numbers and boolean literals always mean
something. -/
theorem fails_primary {options : Options} {bound : Nat} {expression : Production (Option Ty)}
    (hexpression : Reads options bound .relation expression)
    (hfails : Fails options bound .relation expression) :
    Fails options (bound + 1) .primary (primary options expression) where
  coasts := by
    constructor
    intro s s₁ σ o d ks gone hs
    refine ends_bind.mpr (ends_view.mpr (ends_bind.mpr (ends_accept? (fun a ha => ?_) fun _ => hs)))
    simp [State.current?, hs.recovering] at ha
  stumbles {s s₁ σ o d line beyond ks more code e} h hoptions hbound hk htidy hlower := by
    cases e with
    | number value => cases hlower
    | boolean value => cases hlower
    | name x =>
      obtain ⟨k, more, rfl⟩ := h.exists_next rfl
      have hload : σ.load? x = none := by simpa [Expr.lower?] using hlower
      have hequal : k ≠ .symbol .equal := by simpa [Expr.goesOn] using hk k rfl
      refine ends_bind.mpr (ends_view.mpr ((accept?_on h Atom.ofKind? rfl rfl).bind ?_))
      rintro _ s₂ ⟨rfl, h₂⟩
      exact (named_trips h.saved h₂ hequal hload).bind fun _ s₃ h₃ => ⟨rfl, h₃⟩
    | assign x value =>
      -- the assignment is faulty itself, so its semicolon is still ahead when the mistake is found
      have hspill : (Expr.assign x value).spill σ beyond = [] :=
        Expr.spill_eq_nil (by rw [Expr.spills, hlower]; rfl) beyond
      have h : s.On σ o d line beyond ks (.identifier x :: .symbol .equal ::
          (value.kinds ++ .symbol .semicolon :: more)) code s₁ := by simpa [Expr.kinds] using h
      rw [hspill]
      refine ends_bind.mpr (ends_view.mpr ((accept?_on h Atom.ofKind? rfl rfl).bind ?_))
      rintro _ s₂ ⟨rfl, h₂⟩
      have hlength : s₁.tokens.length = 1 + s₂.tokens.length := h.length_tokens h₂
      exact (assign_trips h.saved hexpression hfails h₂ hoptions (by omega) htidy.tidy hlower).bind
        fun _ s₃ h₃ => ⟨rfl, h₃⟩

namespace Ladder

variable {ω : Type} {operators : Operators ω} {r₁ r₀ r : Rung} (L : Ladder operators r₁ r₀ r)

section

variable {typing : Typing} {left : Expr r} {op : ω} {right : Expr r₀} {ops : List (ω × Expr r₀)}

theorem tidy_operands (h : (L.join left op right).Tidy typing) :
    left.pure = true ∧ right.Tidy typing := by
  have htidy := h.tidy
  rw [L.tidy_join, Bool.and_eq_true] at htidy
  refine ⟨htidy.1, htidy.2, h.alone.imp_right fun halone => .inl ?_⟩
  rw [L.isAssign_join, L.pure_join, Bool.and_eq_true] at halone
  exact (halone.resolve_right (by simp)).2

/-- Only the last operand may be an assignment, so all that stands to the left of another operand is
without any. -/
theorem tidy_of_fold (h : (L.fold left ops).Tidy typing) :
    left.Tidy typing ∧ (ops ≠ [] → left.pure = true) := by
  induction ops generalizing left with
  | nil => exact ⟨h, fun hops => absurd rfl hops⟩
  | cons op ops ih =>
    have hleft := (L.tidy_operands (ih h).1).1
    exact ⟨.of_pure hleft, fun _ => hleft⟩

theorem lower?_join_eq_none (h : left.lower? σ = none ∨ right.lower? σ = none) :
    (L.join left op right).lower? σ = none := by
  refine Option.eq_none_iff_forall_ne_some.mpr ?_
  rintro ⟨ty, code⟩ hjoin
  obtain ⟨tl, cl, tr, cr, hleft, hright, -⟩ := L.lower?_join.mp hjoin
  simp [hleft, hright] at h

/-- Operands that do not go together make up nothing, although each of them means something. -/
theorem lower?_join_of_binary? {tl tr : Ty} {cl cr : List Operation}
    (hleft : left.lower? σ = some (tl, cl)) (hright : right.lower? σ = some (tr, cr))
    (hty : Ty.binary? (operators.symbol op) tl tr = none) :
    (L.join left op right).lower? σ = none := by
  refine Option.eq_none_iff_forall_ne_some.mpr ?_
  rintro ⟨ty, code⟩ hjoin
  obtain ⟨tl', cl', tr', cr', hleft', hright', hoperate, -⟩ := L.lower?_join.mp hjoin
  cases hleft.symm.trans hleft'
  cases hright.symm.trans hright'
  cases hty.symm.trans (Ty.operate?_eq_some.mp hoperate).2

/-- If a mistake stands further to the left, it is found before the last operand is read, and that
operand cannot spill any more. -/
theorem spills_fold (hleft : left.lower? σ = none) (hops : ops ≠ []) :
    (L.fold left ops).spills σ = false := by
  induction ops generalizing left with
  | nil => exact absurd rfl hops
  | cons op ops ih =>
    cases ops with
    | nil =>
      rw [fold_cons, fold_nil, L.spills_join, hleft]
      rfl
    | cons op' ops => exact ih (L.lower?_join_eq_none (.inl hleft)) (by simp)

/-- What is skipped behind a tree is what is skipped behind its first faulty operand.  If more
operands follow, this one is no assignment, and nothing is skipped either way. -/
theorem spill_fold_join {tl : Ty} {cl : List Operation} (hleft : left.lower? σ = some (tl, cl))
    (hjoin : (L.join left op right).lower? σ = none)
    (htidy : (L.fold (L.join left op right) ops).Tidy typing) :
    (L.fold (L.join left op right) ops).spill σ beyond = right.spill σ beyond := by
  unfold Expr.spill
  cases ops with
  | nil => rw [fold_nil, L.spills_join, hleft, Option.isSome_some, Bool.true_and]
  | cons op' ops =>
    have hpure := (L.tidy_of_fold htidy).2 (by simp)
    rw [L.pure_join, Bool.and_eq_true] at hpure
    rw [L.spills_fold hjoin (by simp), Expr.spills_of_pure σ hpure.2]

theorem spill_fold_base {e : Expr r₁} (he : e.lower? σ = none)
    (htidy : (L.fold (L.base e) ops).Tidy typing) :
    (L.fold (L.base e) ops).spill σ beyond = e.spill σ beyond := by
  unfold Expr.spill
  cases ops with
  | nil => rw [fold_nil, L.spills_base]
  | cons op ops =>
    have hpure := (L.tidy_of_fold htidy).2 (by simp)
    rw [L.pure_base] at hpure
    rw [L.spills_fold ((L.lower?_base σ e).trans he) (by simp), Expr.spills_of_pure σ hpure]

end

variable {options : Options} {bound : Nat} {level : Production (Option Ty)}
  (hlevel : Reads options bound r₀ level) (hfails : Fails options bound r₀ level)
include L hlevel hfails

/-- A mistake in what follows the first operand.  The operands are read one by one, and the first
one that is faulty, or does not go with those before it, is tripped over. -/
theorem chain_trips (hoptions : σ.options = options) :
    ∀ {ops : List (ω × Expr r₀)} {left : Expr r} {ks ahead : List Token.Kind}
      {code : List Operation} {s₁ : State} {tl : Ty} {cl : List Operation} {budget : Nat},
      (L.fold left ops).kinds = left.kinds ++ ahead →
      s.On σ o d line beyond ks (ahead ++ more) code s₁ → left.lower? σ = some (tl, cl) →
      s₁.tokens.length ≤ budget → s₁.tokens.length ≤ bound →
      (∀ k ∈ more.head?, (L.fold left ops).goesOn k = false) →
      (L.fold left ops).Tidy options.typing → (L.fold left ops).lower? σ = none →
      Ends (chain operators level budget tl) s₁
        (fun _ s₂ => s.Trips σ o d (line ++ [.symbol .semicolon])
          ((L.fold left ops).spill σ beyond) s₂) fun _ _ => False := by
  have hC := coasts_closed
  intro ops
  -- by induction on the operands that are left; the tree of those read so far grows
  induction ops with
  | nil =>
    intro left ks ahead code s₁ tl cl budget _ _ hleft _ _ _ _ hlower
    -- nothing is left that could be at fault
    cases hleft.symm.trans hlower
  | cons op ops ih =>
    intro left ks ahead code s₁ tl cl budget hahead h hleft hbudget hbound hk htidy hlower
    obtain ⟨op, right⟩ := op
    obtain ⟨budget, rfl⟩ := State.exists_budget hbudget
    rw [fold_cons] at hahead hk htidy hlower ⊢
    obtain ⟨ks', hks', hnext⟩ := L.kinds_fold (L.join left op right) ops
    obtain ⟨hpure, htidy'⟩ := L.tidy_operands (L.tidy_of_fold htidy).1
    have hk' := L.goesOn_right hks' hnext hk
    obtain rfl : ahead = .symbol (operators.symbol op) :: (right.kinds ++ ks') := by
      rw [hks', L.kinds_join, List.append_assoc] at hahead
      exact (List.append_cancel_left hahead).symm
    rw [List.cons_append, List.append_assoc] at h
    refine ends_bind.mpr (ends_view.mpr ((accept?_on h (Token.Kind.operator? operators.ofSymbol?)
      rfl (L.ofSymbol?_symbol op)).bind ?_))
    rintro _ s₂ ⟨rfl, h₂⟩
    have hlength : s₁.tokens.length = 1 + s₂.tokens.length := h.length_tokens h₂
    -- once there is a mistake, the operator is emitted and the other operands are looked for in
    -- vain
    have hrest (ty : Ty) : Coasts (do
        emit (operators.operation op tl)
        chain operators level budget ty) :=
      hC.bind (hC.emit (L.simple op tl)) fun _ => hC.chain L.simple hfails.coasts _ _
    cases hright : right.lower? σ with
    | none =>
      -- the next operand is faulty by itself
      rw [L.spill_fold_join hleft (L.lower?_join_eq_none (.inr hright)) htidy]
      refine (hfails.stumbles h₂ hoptions (by omega) hk' htidy' hright).operand.bind
        fun tr s₃ h₃ => ?_
      exact (hC.bind (hC.binaryType _ _ tl tr) hrest).ends h₃
    | some loaded =>
      obtain ⟨tr, cr⟩ := loaded
      refine (hlevel.operand_on h₂ hoptions (by omega) hk' htidy' hright).bind ?_
      rintro tr s₃ ⟨rfl, h₃⟩
      have hvoid := Expr.ne_void_of_pure h.valued hpure hleft
      unfold binaryType
      cases hty : Ty.binary? (operators.symbol op) tl tr with
      | none =>
        -- both sides are well, and the operator does not take them
        have hjoin := L.lower?_join_of_binary? hleft hright hty
        rw [L.spill_fold_join hleft hjoin htidy, ← h₂.spill_eq (hoptions ▸ htidy') hright]
        exact (hrest .unknown).ends (h₃.errorAt h.saved _)
      | some ty =>
        -- nothing is wrong so far, so the mistake is further on
        refine ends_bind.mpr (ends_pure.mpr ((emit_on h₃ _).bind fun _ s₄ h₄ => ?_))
        have hlength₄ := h₂.length_tokens h₄
        have hjoin := L.lower?_join.mpr ⟨tl, cl, tr, cr, hleft, hright,
          Ty.operate?_eq_some.mpr ⟨hvoid, hty⟩, rfl⟩
        exact ih hks' h₄ hjoin (by omega) (by omega) hk htidy hlower

/-- A level trips over its rung if its operands are tripped over.  Either the first operand is
faulty, or it is well and the chain behind it trips. -/
theorem fails {first : Production (Option Ty)} (hfirst : Reads options bound r₁ first)
    (hfirst' : Fails options bound r₁ first) {budget : Nat} (hbudget : bound ≤ budget + 1) :
    Fails options bound r (continued first (chain operators level budget)) where
  coasts := coasts_continued hfirst'.coasts
    fun _ => coasts_closed.chain L.simple hfails.coasts _ _
  stumbles {s s₁ σ o d line beyond ks more code e} h hoptions hbound hk htidy hlower := by
    obtain ⟨e₁, ops, hfold⟩ := L.spine e
    obtain rfl : e = L.fold (L.base e₁) ops := hfold
    obtain ⟨ks', hks', hnext⟩ := L.kinds_fold (L.base e₁) ops
    obtain ⟨htidy₁, hpure₁⟩ := L.tidy_of_fold htidy
    have hk' := L.goesOn_first hks' hnext hk
    rw [hks', L.kinds_base, List.append_assoc] at h
    cases hleft : e₁.lower? σ with
    | none =>
      have htidy₁ : e₁.Tidy options.typing := by
        obtain ⟨htidy', halone⟩ := htidy₁
        rw [L.tidy_base] at htidy'
        rw [L.pure_base, L.isAssign_base] at halone
        exact ⟨htidy', halone⟩
      rw [L.spill_fold_base hleft htidy]
      exact (hfirst'.stumbles h hoptions hbound hk' htidy₁ hleft).continued
        fun _ => coasts_closed.chain L.simple hfails.coasts _ _
    | some loaded =>
      obtain ⟨tl, cl⟩ := loaded
      have hbase := (L.lower?_base σ e₁).trans hleft
      -- were the first operand all of the expression, the expression would mean something
      have hpure : e₁.pure = true := by
        rw [← L.pure_base]
        refine hpure₁ ?_
        rintro rfl
        cases hbase.symm.trans hlower
      obtain ⟨k₁, ks₁, hks₁, -⟩ := e₁.kinds_eq_cons
      refine hfirst.stumbles h hoptions hbound hk' hpure hleft fun {s₂} h₂ => ?_
      have hlength := h.length_tokens h₂
      rw [hks₁, List.length_cons] at hlength
      exact L.chain_trips hlevel hfails hoptions hks' h₂ hbase (by omega) (by omega) hk htidy hlower

end Ladder

section

variable {options : Options} {bound budget : Nat} {primary : Production (Option Ty)}
  (hprimary : Reads options bound .primary primary)
  (hprimary' : Fails options bound .primary primary) (hbudget : bound ≤ budget + 1)
include hprimary hprimary' hbudget

theorem fails_multiplicative : Fails options bound .term (multiplicative budget primary) :=
  multiplicativeLadder.fails hprimary hprimary' hprimary hprimary' hbudget

theorem fails_firstTerm : Fails options bound .signed (firstTerm budget primary) where
  coasts := coasts_closed.firstTerm hprimary'.coasts budget
  stumbles {s s₁ σ o d line beyond ks more code e} h hoptions hbound hk htidy hlower := by
    have hC := coasts_closed
    have hterm := fails_multiplicative hprimary hprimary' hbudget
    cases e with
    | unsigned e =>
      obtain ⟨k', ks', hks', hsign⟩ := kinds_term_eq_cons e
      have hlook : s₁.lookahead.kind = k' := by
        rw [Expr.kinds, hks'] at h
        exact h.lookahead
      refine ends_bind.mpr (ends_view.mpr
        ((accept?_leaves h.moves (Token.Kind.operator? sign?) (hlook ▸ hsign)).bind ?_))
      rintro _ s₂ ⟨rfl, rfl⟩
      exact hterm.stumbles h hoptions hbound hk ⟨htidy.tidy, htidy.alone⟩ hlower
    | signed sign e =>
      have htidy : e.Tidy options.typing :=
        ⟨htidy.tidy,
          htidy.alone.imp_right fun h => .inl (h.resolve_right (by simp [Expr.isAssign]))⟩
      refine ends_bind.mpr (ends_view.mpr ((accept?_on h (Token.Kind.operator? sign?) rfl
        (a := sign.symbol) (by cases sign <;> rfl)).bind ?_))
      rintro _ s₂ ⟨rfl, h₂⟩
      have hlength : s₁.tokens.length = 1 + s₂.tokens.length := h.length_tokens h₂
      cases he : e.lower? σ with
      | none =>
        refine (hterm.stumbles h₂ hoptions (by omega) hk htidy he).operand.bind
          fun term s₃ h₃ => ?_
        refine ((hC.signedType _ _ term).ends h₃).bind fun ty s₄ h₄ => ?_
        exact ((hC.emitSign _).ends h₄).bind fun _ s₅ h₅ => ⟨rfl, h₅⟩
      | some loaded =>
        obtain ⟨term, operations⟩ := loaded
        -- the term is well, so it is the sign that does not take it
        have hty : Ty.unary? term = none := Option.eq_none_iff_forall_ne_some.mpr (by
          simpa [Expr.lower?, he] using hlower)
        refine ((reads_multiplicative hprimary hbudget).operand_on h₂ hoptions (by omega) hk htidy
          he).bind ?_
        rintro term s₃ ⟨rfl, h₃⟩
        have herror := h₃.errorAt h.saved (.incompatibleOperand sign.symbol term)
        rw [h₂.spill_eq (hoptions ▸ htidy) he] at herror
        unfold signedType
        rw [hty]
        exact ((hC.emitSign _).ends herror).bind fun _ s₄ h₄ => ⟨rfl, h₄⟩

/-- Sums are tripped over if operands are, with a sign in front of them or without. -/
theorem fails_additive : Fails options bound .sum (additive budget primary) :=
  additiveLadder.fails (reads_multiplicative hprimary hbudget)
    (fails_multiplicative hprimary hprimary' hbudget) (reads_firstTerm hprimary hbudget)
    (fails_firstTerm hprimary hprimary' hbudget) hbudget

/-- A mistake in what an operand is compared with, or in comparing it: the right operand is faulty,
or its type is not one to compare the left one with. -/
theorem comparison_trips {left right : Expr .sum} {op : ComparisonOp} {tl : Ty}
    {cl : List Operation}
    (h : s.On σ o d line beyond ks (.symbol op.symbol :: (right.kinds ++ more)) code s₁)
    (hoptions : σ.options = options) (hbound : s₁.tokens.length ≤ bound)
    (hk : ∀ k ∈ more.head?, right.goesOn k = false) (hpure : left.pure = true)
    (htidy : right.Tidy options.typing) (hleft : left.lower? σ = some (tl, cl))
    (hlower : (Expr.comparison left op right).lower? σ = none) :
    Ends (comparison budget primary tl) s₁ (fun _ s₂ =>
      s.Trips σ o d (line ++ [.symbol .semicolon]) (right.spill σ beyond) s₂)
      fun _ _ => False := by
  have hC := coasts_closed
  refine ends_bind.mpr (ends_view.mpr ((accept?_on h
    (Token.Kind.operator? ComparisonOp.ofSymbol?) rfl (a := op) (by cases op <;> rfl)).bind ?_))
  rintro _ s₂ ⟨rfl, h₂⟩
  have hlength : s₁.tokens.length = 1 + s₂.tokens.length := h.length_tokens h₂
  have hrest : Coasts (do
      emit (.compare op)
      return Ty.bool) := hC.bind (hC.emit trivial) fun _ => hC.pure _
  cases hright : right.lower? σ with
  | none =>
    refine ((fails_additive hprimary hprimary' hbudget).stumbles h₂ hoptions (by omega) hk htidy
      hright).operand.bind fun tr s₃ h₃ => ?_
    exact (hC.bind (hC.check _ _ _) fun _ => hrest).ends h₃
  | some loaded =>
    obtain ⟨tr, cr⟩ := loaded
    refine ((reads_additive hprimary hbudget).operand_on h₂ hoptions (by omega) hk htidy
      hright).bind ?_
    rintro tr s₃ ⟨rfl, h₃⟩
    have hvoid := Expr.ne_void_of_pure h.valued hpure hleft
    have hcomparable : tl.comparable tr = false := by
      simpa [Expr.lower?, hleft, hright, hvoid] using hlower
    rw [hcomparable, ← h₂.spill_eq (hoptions ▸ htidy) hright]
    exact hrest.ends (h₃.errorAt h.saved _)

/-- Comparisons are tripped over if operands are.  There is at most one in an expression, so that no
chain is needed here. -/
theorem fails_relational : Fails options bound .relation (relational budget primary) where
  coasts := coasts_continued (fails_additive hprimary hprimary' hbudget).coasts
    fun left => coasts_closed.comparison hprimary'.coasts budget left
  stumbles {s s₁ σ o d line beyond ks more code e} h hoptions hbound hk htidy hlower := by
    have hsum' := fails_additive hprimary hprimary' hbudget
    have hcomparison (left : Ty) := coasts_closed.comparison hprimary'.coasts budget left
    cases e with
    | single e =>
      have hk : ∀ k ∈ more.head?, e.goesOn k = false := fun k hmem =>
        (Bool.or_eq_false_iff.mp (hk k hmem)).1
      exact (hsum'.stumbles h hoptions hbound hk ⟨htidy.tidy, htidy.alone⟩ hlower).continued
        hcomparison
    | comparison left op right =>
      obtain ⟨hpure, htidy'⟩ := Bool.and_eq_true_iff.mp htidy.tidy
      have htidy : right.Tidy options.typing :=
        ⟨htidy', htidy.alone.imp_right fun h =>
          .inl (Bool.and_eq_true_iff.mp (h.resolve_right (by simp [Expr.isAssign]))).2⟩
      have hclosed : ∀ k ∈ (Token.Kind.symbol op.symbol :: (right.kinds ++ more)).head?,
          left.goesOn k = false := by
        rintro _ ⟨⟩
        exact left.goesOn_sum (by cases op <;> decide) (by cases op <;> rfl) (by cases op <;> rfl)
      rw [Expr.kinds, List.append_assoc, List.cons_append] at h
      cases hleft : left.lower? σ with
      | none =>
        -- the right operand is not reached, and the left one has no assignment that could spill
        have hspill : (Expr.comparison left op right).spill σ beyond = left.spill σ beyond := by
          unfold Expr.spill
          rw [Expr.spills_of_pure σ hpure, Expr.spills, hleft, Option.isSome_none, Bool.false_and]
        rw [hspill]
        exact (hsum'.stumbles h hoptions hbound hclosed (.of_pure hpure) hleft).continued
          hcomparison
      | some loaded =>
        obtain ⟨tl, cl⟩ := loaded
        have hspill : (Expr.comparison left op right).spill σ beyond = right.spill σ beyond := by
          unfold Expr.spill
          rw [Expr.spills, hleft, Option.isSome_some, Bool.true_and]
        rw [hspill]
        refine (reads_additive hprimary hbudget).stumbles h hoptions hbound hclosed hpure hleft
          fun {s₂} h₂ => ?_
        have hlength := h.length_tokens h₂
        exact comparison_trips hprimary hprimary' hbudget h₂ hoptions (by omega) hk hpure htidy
          hleft hlower

end

/-- **Faulty expressions are tripped over.**  An expression that means nothing at its site is one
mistake, however deep in it the cause is. -/
theorem fails_expression (options : Options) (budget : Nat) :
    Fails options budget .relation (expression options budget) := by
  induction budget with
  | zero =>
    -- there is always a token ahead, so a budget of zero is not enough for any state
    refine ⟨coasts_closed.pure none, fun {s s₁ _ _ _ _ _ _ _ _ _} _ _ hbound => ?_⟩
    exact absurd (Nat.lt_of_lt_of_le s₁.length_tokens_pos hbound) (Nat.lt_irrefl 0)
  | succ budget ih =>
    exact fails_relational (reads_primary (reads_expression options budget))
      (fails_primary (reads_expression options budget) ih) (Nat.le_refl _)

/-- What cannot be loaded is not printed.  That the name was printed has been noted by then, which
is of no concern to the pass. -/
theorem printNamed_trips {options : Options} {x : String} {k : Token.Kind} {p : Position}
    (hp : s.Saved line p) (h : s.On σ o d line beyond ks (k :: more) code s₁)
    (hload : σ.load? x = none) :
    Ends (printNamed options x p) s₁
      (fun _ s₂ => s.Trips σ o d (line ++ [.symbol .semicolon]) [] s₂) fun _ _ => False := by
  refine ends_bind.mpr (ends_view.mpr ?_)
  cases hentity : s₁.scopes.find? x with
  | none => exact h.errorAt hp _
  | some entity =>
    refine ends_bind.mpr (ends_modify.mpr ?_)
    have hlogged : s.On σ o d line beyond ks (k :: more) code
        { s₁ with log := s₁.log.push (.printed entity (s₁.scopes.declaredHere x)) } :=
      ⟨logged_goes h.moves _, h.inline, h.whole, h.left⟩
    refine (load_trips hp hlogged hentity hload).bind ?_
    rintro _ s₂ ⟨rfl, h₂⟩
    exact h₂

/-! ### Faulty statements -/

/-- The production matches, and there has been a mistake in the tokens `ks`, behind which the tokens
`gone` are skipped. -/
def Spoils (p : Production Bool) (s : State) (σ : Site) (o : Outline) (d : Draft)
    (ks gone : List Token.Kind) : Prop :=
  Ends p s (fun a s' => a = true ∧ s.Trips σ o d ks gone s') fun _ _ => False

section

variable {options : Options} {budget : Nat} (h : s.At σ o d)
include h

/-- A faulty expression as a statement.  If it does not end in an assignment, a semicolon follows
it, and recovery ends there. -/
theorem expressionStatement_spoils (hoptions : σ.options = options)
    (hbound : s.tokens.length ≤ budget) {e : Expr .relation} (hline : Line line)
    (hwhole : e.kinds ++ more = line ++ [.symbol .semicolon])
    (hkinds : s.kinds = e.kinds ++ more ++ beyond) (hk : ∀ k ∈ more.head?, e.goesOn k = false)
    (htidy : e.Tidy options.typing) (hlower : e.lower? σ = none) :
    Spoils (expressionStatement (expression options budget)) s σ o d (e.kinds ++ more)
      (e.spill σ beyond) := by
  rw [hwhole]
  refine Ends.bind ((fails_expression options budget).stumbles (h.on hline hwhole hkinds) hoptions
    hbound hk htidy hlower) ?_
  rintro (_ | ty) s₁ ⟨hsome, h₁⟩
  · cases hsome
  · have hdrop : Coasts (dropValue ty) :=
      mem_ite (C := fun _ p => Coasts p) (coasts_closed.pure _) (coasts_emit _)
    exact (hdrop.ends h₁).bind fun _ s₂ h₂ => ⟨rfl, h₂⟩

/-- Printing what has no value: a name that is not declared, or one that cannot be loaded. -/
theorem printStatement_spoils {x : String}
    (hkinds : s.kinds = (Stmt.print (some x)).kinds ++ beyond) (hload : σ.load? x = none) :
    Spoils (printStatement options) s σ o d (Stmt.print (some x)).kinds [] := by
  have hC := coasts_closed
  have hline : Line [.keyword .printf, .symbol .leftParen, .identifier x, .symbol .rightParen] := by
    simp [line_cons, line_nil]
  refine (accept_on (h.on hline rfl hkinds) (by simp)).bind ?_
  rintro _ s₁ ⟨rfl, h₁⟩
  refine (expect_on h₁).bind fun _ s₂ h₂ => ?_
  refine Ends.bind
    (ends_bind.mpr (ends_view.mpr ((accept?_on h₂ Token.Kind.name? rfl rfl).bind ?_)))
    fun _ s₄ h₄ => ((hC.expect _).ends h₄).bind fun _ s₅ h₅ => ((hC.expect _).ends h₅).bind
      fun _ s₆ h₆ => ⟨rfl, h₆⟩
  rintro _ s₃ ⟨rfl, h₃⟩
  exact printNamed_trips h₂.saved h₃ hload

/-- A field of type `void`, declared before or not. -/
theorem voidField_spoils {item : Production Bool} {type : TypeName} (htype : type.ty = .void)
    {x : String} (hkinds : s.kinds = (Item.field type x).kinds ++ beyond) :
    Spoils (declarationForm budget item) s σ o d (Item.field type x).kinds [] := by
  have hline : Line [.keyword type.word, .identifier x] := by simp [line_cons, line_nil]
  refine fieldForm_goes h hkinds fun {s₁ p} hp h₁ => ?_
  have hon : s.On σ o d [.keyword type.word, .identifier x] beyond
      [.keyword type.word, .identifier x] [.symbol .semicolon] [] s₁ := by
    exact ⟨h₁.moves, hline, rfl, h₁.passes.kinds_eq hkinds⟩
  have hsaved : s.Saved [.keyword type.word, .identifier x] p := by
    obtain ⟨t, ht, hposition⟩ := hp
    exact ⟨t, List.take_subset_take_left _ (by simp) ht, hposition⟩
  rw [htype]
  refine ends_bind.mpr (ends_bind.mpr (ends_view.mpr ?_))
  -- a name that is taken is an error of its own; the one about `void` is dropped behind it
  cases s₁.scopes.declaredHere x with
  | false => exact hon.errorAt hsaved _
  | true => exact (hon.errorAt hsaved _).errorAt _ _

end

end Production

end OnePass
