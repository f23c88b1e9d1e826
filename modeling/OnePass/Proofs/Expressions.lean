import OnePass.Proofs.Place

/-!
# Expressions are read as they are meant

Each level of an expression reads the trees of its rung: whatever tree of the rung lies
ahead is read and its operations are emitted, and whatever is read without an error is
such a tree.

## Main definitions

* `Production.Reads` — a production reads the expressions of a rung.
* `Production.Ladder` — how the operators of a level join operands.

## Main results

* `Expr.eq_void_iff` — only assignments leave no value.
* `Production.reads_primary`, `Production.reads_multiplicative`, `Production.reads_additive`,
  `Production.reads_relational` — each level reads its rung if its operands are read.
* `Production.reads_expression` — **expressions are read as they are meant**.
-/

namespace OnePass

/-! ### Types and places -/

/-- An operator leaves a value, of known or unknown type. -/
theorem Ty.binary?_ne_void {operator : Symbol} {left right ty : Ty}
    (h : Ty.binary? operator left right = some ty) : ty ≠ .void := by
  rintro rfl
  unfold Ty.binary? at h
  split at h
  · cases h
  · split at h <;> cases h

theorem Ty.operate?_eq_some {operator : Symbol} {left right ty : Ty} :
    Ty.operate? operator left right = some ty ↔
      left ≠ .void ∧ Ty.binary? operator left right = some ty := by
  unfold Ty.operate?
  split <;> simp_all

/-- A sign leaves a value as well. -/
theorem Ty.unary?_ne_void {operand ty : Ty} (h : Ty.unary? operand = some ty) : ty ≠ .void := by
  rintro rfl
  cases operand <;> cases h

/-- Every variable in scope has a type with values, that is, none is declared with the type that
assignments have. -/
def Site.Valued (σ : Site) : Prop :=
  ∀ names ∈ σ.names, ∀ {x b}, names x = some b → b.Valued

theorem State.At.valued {s : State} {σ : Site} {o : Outline} {d : Draft} (h : s.At σ o d) :
    σ.Valued := by
  intro names hnames x b hb
  exact h.steady.scopes.valued_names (h.names ▸ hnames) hb

theorem Site.Valued.find? {σ : Site} (hσ : σ.Valued) {x : String} {b : Binding}
    (hb : σ.find? x = some b) : b.Valued := by
  obtain ⟨names, hnames, hx⟩ := List.exists_of_findSome?_eq_some hb
  exact hσ names hnames hx

/-- What a name is loaded as has a value, so that a name is never taken for an assignment. -/
theorem Site.load?_ne_void {σ : Site} (hσ : σ.Valued) {x : String} {ty : Ty} {operation : Operation}
    (h : σ.load? x = some (ty, operation)) : ty ≠ .void := by
  unfold load? at h
  split at h
  · next declared slot hb =>
    split at h
    · cases h
      -- the legacy rules may forget the declared type, but not that there is a value
      unfold variableType
      split
      · exact (hσ.find? hb).1
      · split <;> simp
    · cases h
  · next declared slot hb =>
    split at h
    · cases h
      exact (hσ.find? hb).1
    · cases h
  · cases h
  · cases h

/-- Only assignments leave no value.  This is how the parser, which sees types only, tells that
nothing may follow. -/
theorem Expr.eq_void_iff {σ : Site} (hσ : σ.Valued) : ∀ {r : Rung} {e : Expr r} {ty : Ty}
    {code : List Operation}, e.lower? σ = some (ty, code) → (ty = .void ↔ e.isAssign = true)
  | _, .number _, _, _, h => by
    obtain ⟨rfl, -⟩ := Prod.mk.inj (Option.some.inj h)
    simp [isAssign]
  | _, .boolean _, _, _, h => by
    obtain ⟨rfl, -⟩ := Prod.mk.inj (Option.some.inj h)
    simp [isAssign]
  | _, .name _, _, _, h => by
    obtain ⟨operation, hload, -⟩ := lower?_name.mp h
    simp [isAssign, Site.load?_ne_void hσ hload]
  | _, .assign _ _, _, _, h => by
    obtain ⟨-, -, -, -, -, -, -, rfl, -⟩ := lower?_assign.mp h
    simp [isAssign]
  | _, .factor e, _, _, h => eq_void_iff hσ (e := e) h
  | _, .product _ _ _, _, _, h => by
    obtain ⟨tl, cl, tr, cr, -, -, hty, -⟩ := lower?_product.mp h
    simp [isAssign, Ty.binary?_ne_void (Ty.operate?_eq_some.mp hty).2]
  | _, .unsigned e, _, _, h => eq_void_iff hσ (e := e) h
  | _, .first e, _, _, h => eq_void_iff hσ (e := e) h
  | _, .signed _ _, _, _, h => by
    obtain ⟨operand, operations, -, hty, -⟩ := lower?_signed.mp h
    simp [isAssign, Ty.unary?_ne_void hty]
  | _, .sum _ _ _, _, _, h => by
    obtain ⟨tl, cl, tr, cr, -, -, hty, -⟩ := lower?_sum.mp h
    simp [isAssign, Ty.binary?_ne_void (Ty.operate?_eq_some.mp hty).2]
  | _, .single e, _, _, h => eq_void_iff hσ (e := e) h
  | _, .comparison _ _ _, _, _, h => by
    obtain ⟨tl, cl, tr, cr, -, -, -, rfl, -⟩ := lower?_comparison.mp h
    simp [isAssign]

/-- What an expression means depends only on what its names are loaded and stored as. -/
theorem Expr.lower?_congr (σ σ' : Site) (hload : ∀ x, σ'.load? x = σ.load? x)
    (hstore : ∀ x, σ'.store? x = σ.store? x) : ∀ {r : Rung} (e : Expr r), e.lower? σ' = e.lower? σ
  | _, .number _ => rfl
  | _, .boolean _ => rfl
  | _, .name x => by simp only [lower?, hload]
  | _, .assign x value => by simp only [lower?, lower?_congr σ σ' hload hstore value, hstore]
  | _, .factor e => lower?_congr σ σ' hload hstore e
  | _, .product left _ right => by
    simp only [lower?, lower?_congr σ σ' hload hstore left, lower?_congr σ σ' hload hstore right]
  | _, .unsigned e => lower?_congr σ σ' hload hstore e
  | _, .first e => lower?_congr σ σ' hload hstore e
  | _, .signed _ e => by simp only [lower?, lower?_congr σ σ' hload hstore e]
  | _, .sum left _ right => by
    simp only [lower?, lower?_congr σ σ' hload hstore left, lower?_congr σ σ' hload hstore right]
  | _, .single e => lower?_congr σ σ' hload hstore e
  | _, .comparison left _ right => by
    simp only [lower?, lower?_congr σ σ' hload hstore left, lower?_congr σ σ' hload hstore right]

/-- So it does not depend on how much code there is before the expression. -/
theorem Expr.lower?_ahead (σ : Site) (n : Nat) {r : Rung} (e : Expr r) :
    e.lower? (σ.ahead n) = e.lower? σ :=
  lower?_congr σ (σ.ahead n) (fun _ => rfl) (fun _ => rfl) e

/-- Only symbols stand for operators, so an operator that was found names the symbol ahead. -/
theorem Token.Kind.operator?_eq_some {ω : Type} {select : Symbol → Option ω} {k : Token.Kind}
    {op : ω} (h : k.operator? select = some op) :
    ∃ mark, k = .symbol mark ∧ select mark = some op := by
  cases k with
  | symbol mark => exact ⟨mark, rfl, h⟩
  | _ => cases h

/-- A term is an operand with multiplicative operators behind it, which are joined from the left. -/
theorem Expr.spine_term : ∀ e : Expr .term, ∃ (e₁ : Expr .primary)
    (ops : List (MultiplicativeOp × Expr .primary)),
    e = ops.foldl (fun left op => .product left op.1 op.2) (.factor e₁)
  | .factor e => ⟨e, [], rfl⟩
  | .product left op right => by
    obtain ⟨e₁, ops, h⟩ := spine_term left
    exact ⟨e₁, ops ++ [(op, right)], by rw [List.foldl_append, ← h]; rfl⟩

/-- A sum is a first operand with additive operators behind it, which are joined from the left. -/
theorem Expr.spine_sum : ∀ e : Expr .sum, ∃ (e₁ : Expr .signed)
    (ops : List (AdditiveOp × Expr .term)),
    e = ops.foldl (fun left op => .sum left op.1 op.2) (.first e₁)
  | .first e => ⟨e, [], rfl⟩
  | .sum left op right => by
    obtain ⟨e₁, ops, h⟩ := spine_sum left
    exact ⟨e₁, ops ++ [(op, right)], by rw [List.foldl_append, ← h]; rfl⟩

namespace State.At

variable {s : State} {σ : Site} {o : Outline} {d : Draft} (h : s.At σ o d)
include h

/-- The entities that the tables find for a name are the bindings that the site has for it. -/
theorem find?_eq (x : String) : σ.find? x = (s.scopes.find? x).map Entity.binding := by
  rw [Scopes.find?_binding h.steady.scopes, h.names]
  rfl

theorem declaredHere_eq (x : String) : s.scopes.declaredHere x = σ.declaredHere x := by
  rw [Scopes.declaredHere_eq h.steady.scopes, h.names]
  rfl

theorem within_iff (owner : MethodId) : s.methods.head? = some owner ↔ owner = σ.method := by
  rw [h.steady.current, Option.some.injEq, eq_comm]

/-- A local variable is reached from its own method, and from everywhere if it is the entry
method's. -/
theorem reaches_iff (owner : MethodId) :
    s.methods.head? = some owner ∨ s.methods.getLast? = some owner ↔ σ.reaches owner = true := by
  rw [h.within_iff, h.entry, Option.some.injEq, Site.reaches, decide_eq_true_eq]
  exact or_congr_right eq_comm

end State.At

namespace Production

variable {s s₁ : State} {ks : List Token.Kind} {added : List Diagnostic} {σ : Site} {o : Outline}
  {d : Draft} {ms : List Draft} {options : Options} {E : Halt → State → Prop}

instance {entity : Entity} {name : String} {p : Position} {value : Ty} {valuePosition : Position} :
    Onward (store entity name p value valuePosition) :=
  onward_fine.store entity name p value valuePosition

/-! ### Names -/

section

variable (h : s.Goes o ks added s₁ σ d ms) {x : String} {entity : Entity}
  (hfind : σ.find? x = some entity.binding)
include h hfind

/-- What can be loaded is loaded: one operation is emitted, and the type is that of the site's
rules. -/
theorem load_goes (hoptions : σ.options = options) {ty : Ty} {operation : Operation}
    (hload : σ.load? x = some (ty, operation)) (p : Position) :
    Ends (load options entity x p) s₁ (fun r s₂ => r = some ty ∧
      s.Goes o ks added s₂ (σ.ahead 1) (d.grow [] [.plain operation] []) ms) E := by
  unfold Site.load? at hload
  rw [hfind] at hload
  cases entity with
  | type _ _ => cases hload
  | method _ _ _ _ => cases hload
  | «local» _ declared slot =>
    simp only [Entity.binding, Option.ite_none_right_eq_some, Option.some.injEq,
      Prod.mk.injEq] at hload
    obtain ⟨hreaches, rfl, rfl⟩ := hload
    refine ends_bind.mpr (ends_view.mpr ?_)
    rw [if_pos (by simpa using (h.here.reaches_iff _).mpr hreaches)]
    refine (emit_goes h _).bind fun _ s₂ h₂ => ends_bind.mpr ?_
    -- the operation does not depend on the rules for types, the type does
    unfold localType Site.variableType
    rw [hoptions]
    cases options.typing with
    | declared => exact ⟨rfl, h₂⟩
    | legacy =>
      refine ends_view.mpr ⟨?_, h₂⟩
      rw [h₂.here.declaredHere_eq]
      rfl
  | parameter _ declared ordinal slot =>
    rcases slot with _ | ⟨method, ordinal⟩
    · cases hload
    · simp only [Entity.binding, Option.ite_none_right_eq_some, Option.some.injEq,
        Prod.mk.injEq] at hload
      obtain ⟨rfl, rfl, rfl⟩ := hload
      refine ends_bind.mpr (ends_view.mpr ?_)
      rw [if_pos (by simpa using h.here.steady.current)]
      refine (loadParameter_goes h ordinal).bind fun _ s₂ h₂ => ?_
      exact ⟨rfl, h₂⟩

/-- What cannot be loaded is reported, and nothing is done before that. -/
theorem load_eq_refuse (hload : σ.load? x = none) (p : Position) :
    ∃ e, load options entity x p s₁ = refuse p e s₁ := by
  unfold Site.load? at hload
  rw [hfind] at hload
  cases entity with
  | type _ _ => exact ⟨_, rfl⟩
  | method _ _ _ _ => exact ⟨_, rfl⟩
  | «local» _ declared slot =>
    simp only [Entity.binding, ite_eq_right_iff, reduceCtorEq, imp_false] at hload
    refine ⟨.captured x, ?_⟩
    show (if decide _ then _ else _ : Production _) s₁ = _
    rw [if_neg (by simpa using mt (h.here.reaches_iff _).mp hload)]
  | parameter _ declared ordinal slot =>
    rcases slot with _ | ⟨method, ordinal⟩
    · exact ⟨_, rfl⟩
    · simp only [Entity.binding, ite_eq_right_iff, reduceCtorEq, imp_false] at hload
      refine ⟨.captured x, ?_⟩
      show (if decide _ then _ else _ : Production _) s₁ = _
      rw [if_neg (by simpa using mt (h.here.within_iff _).mp hload)]

/-- What is loaded without an error could be loaded.  If it could not, it would have been
refused. -/
theorem load_accepts (hoptions : σ.options = options) (p : Position) :
    Accepts (load options entity x p) s₁ fun r s₂ => ∃ ty operation, r = some ty ∧
      σ.load? x = some (ty, operation) ∧
      s.Goes o ks added s₂ (σ.ahead 1) (d.grow [] [.plain operation] []) ms := by
  cases hload : σ.load? x with
  | none =>
    obtain ⟨e, heq⟩ : ∃ e, load options entity x p s₁ = refuse p e s₁ :=
      load_eq_refuse h hfind hload p
    have hrefuse : Accepts (refuse p e) s₁ fun _ _ => False :=
      accepts_errorAt h.here.ready.settled p e
    exact fun r s₂ hrun hclean => (hrefuse (heq ▸ hrun) hclean).elim
  | some loaded =>
    refine (load_goes (E := fun _ _ => True) h hfind hoptions hload p).accepts.mono ?_
    rintro r s₂ ⟨rfl, h₂⟩
    exact ⟨_, _, rfl, rfl, h₂⟩

/-- What can be stored is stored: the value is converted to the declared type first. -/
theorem store_goes {target value : Ty} {slot : LocalSlot}
    (hstore : σ.store? x = some (target, slot))
    (haccepts : target.accepts value = true) (p valuePosition : Position) :
    Ends (store entity x p value valuePosition) s₁ (fun _ s₂ => s.Goes o ks added s₂ (σ.ahead 2)
      (d.grow [] [.plain (.convert target value), .plain (.storeLocal slot)] []) ms) E := by
  unfold Site.store? at hstore
  rw [hfind] at hstore
  cases entity with
  | type _ _ => cases hstore
  | method _ _ _ _ => cases hstore
  -- parameters are never assigned to
  | parameter _ _ _ slot => cases slot <;> cases hstore
  | «local» _ declared slot =>
    simp only [Entity.binding, Option.ite_none_right_eq_some, Option.some.injEq,
      Prod.mk.injEq] at hstore
    obtain ⟨hreaches, rfl, rfl⟩ := hstore
    refine ends_bind.mpr (ends_view.mpr ?_)
    rw [if_pos (by simpa using (h.here.reaches_iff _).mpr hreaches), haccepts]
    refine ends_bind.mpr (ends_pure.mpr ?_)
    refine (emit_goes h _).bind fun _ s₂ h₂ => (emit_goes h₂ _).imp ?_
    intro _ s₃ h₃
    simpa using h₃

/-- What is stored without an error could be stored, and the value had a type that the variable
accepts. -/
theorem store_accepts (value : Ty) (p valuePosition : Position) :
    Accepts (store entity x p value valuePosition) s₁ fun _ s₂ => ∃ target slot,
      σ.store? x = some (target, slot) ∧ target.accepts value = true ∧
      s.Goes o ks added s₂ (σ.ahead 2)
        (d.grow [] [.plain (.convert target value), .plain (.storeLocal slot)] []) ms := by
  have hsettled := h.here.ready.settled
  cases hentity : entity with
  | type _ _ => exact accepts_errorAt (f := pure) hsettled p _
  | method _ _ _ _ => exact accepts_errorAt (f := pure) hsettled p _
  | parameter _ _ _ _ => exact accepts_errorAt (f := pure) hsettled p _
  | «local» _ declared slot =>
    rw [hentity] at hfind
    refine accepts_view ?_
    split
    · next hreaches =>
      refine (check_accepts hsettled).then fun _ s₂ ⟨haccepts, hs₂⟩ => ?_
      subst hs₂
      -- the slot is the one that the site gives, since the scopes are the same
      have hstore : σ.store? x = some (declared, slot) := by
        simp only [Site.store?, hfind, Entity.binding]
        rw [if_pos ((h.here.reaches_iff _).mp (by simpa using hreaches))]
      refine (emit_goes (E := fun _ _ => True) h _).then fun _ s₃ h₃ => ?_
      refine (emit_goes (E := fun _ _ => True) h₃ _).accepts.mono fun _ s₄ h₄ => ?_
      exact ⟨declared, slot, hstore, haccepts, by simpa using h₄⟩
    · exact accepts_errorAt (f := pure) hsettled p _

end

/-! ### Reading a rung -/

/-- The production reads the expressions of a rung if there are not more tokens ahead than
the bound: what no expression begins with is left alone, a tree that lies ahead is read if
it does not go on, and only such trees are read without errors. -/
structure Reads (options : Options) (bound : Nat) (r : Rung) (p : Production (Option Ty)) :
    Prop where
  onward : Onward p
  refuses : ∀ {s : State}, s.recovering = false →
    (∀ e : Expr r, e.kinds.head? ≠ some s.lookahead.kind) → p s = .ok none s
  complete : ∀ {s : State} {σ : Site} {o : Outline} {d : Draft}, s.At σ o d →
    σ.options = options → s.tokens.length ≤ bound →
    ∀ {e : Expr r} {k : Token.Kind} {rest : List Token.Kind} {ty : Ty} {code : List Operation},
      s.kinds = e.kinds ++ k :: rest → e.goesOn k = false → e.lower? σ = some (ty, code) →
      Ends p s (fun a s' => a = some ty ∧ s.Moves σ o d e.kinds (.plain code) [] s')
        fun _ _ => False
  sound : ∀ {s : State} {σ : Site} {o : Outline} {d : Draft}, s.At σ o d →
    σ.options = options → s.tokens.length ≤ bound →
    Accepts p s fun a s' => match a with
      | none => s' = s
      | some ty => ∃ (e : Expr r) (code : List Operation), e.lower? σ = some (ty, code) ∧
        e.goesOn s'.lookahead.kind = false ∧ s.Moves σ o d e.kinds (.plain code) [] s'

namespace Reads

/-- Fewer tokens are read as well, so a reader for many tokens may be used where few are left. -/
theorem mono {bound bound' : Nat} {r : Rung} {p : Production (Option Ty)}
    (hp : Reads options bound r p) (hle : bound' ≤ bound) : Reads options bound' r p where
  onward := hp.onward
  refuses := hp.refuses
  complete {_ _ _ _} h hoptions hbound := hp.complete h hoptions (Nat.le_trans hbound hle)
  sound h hoptions hbound := hp.sound h hoptions (Nat.le_trans hbound hle)

variable {bound : Nat} {r : Rung} {p : Production (Option Ty)} (hp : Reads options bound r p)
  {c : List Operation} (h : s.Moves σ o d ks (.plain c) added s₁) (hoptions : σ.options = options)
  (hbound : s₁.tokens.length ≤ bound)
include hp h hoptions hbound

/-- A tree that lies ahead after other operations is read, and its operations come after them. -/
theorem goes {e : Expr r} {k : Token.Kind} {rest : List Token.Kind} {ty : Ty}
    {code : List Operation} (hkinds : s₁.kinds = e.kinds ++ k :: rest) (hk : e.goesOn k = false)
    (hlower : e.lower? σ = some (ty, code)) :
    Ends p s₁ (fun a s₂ => a = some ty ∧
      s.Moves σ o d (ks ++ e.kinds) (.plain (c ++ code)) added s₂) fun _ _ => False := by
  have hlower' : e.lower? (σ.past (.plain c)) = some (ty, code) := by
    rw [Site.past_plain, Expr.lower?_ahead, hlower]
  refine (hp.complete h.here hoptions hbound hkinds hk hlower').imp ?_
  rintro a s₂ ⟨rfl, h₂⟩
  exact ⟨rfl, by simpa using h.trans h₂⟩

/-- What is accepted after other operations is a tree, and its operations come after them. -/
theorem accepts : Accepts p s₁ fun a s₂ => match a with
    | none => s₂ = s₁
    | some ty => ∃ (e : Expr r) (code : List Operation), e.lower? σ = some (ty, code) ∧
      e.goesOn s₂.lookahead.kind = false ∧
      s.Moves σ o d (ks ++ e.kinds) (.plain (c ++ code)) added s₂ := by
  refine (hp.sound h.here hoptions hbound).mono fun a s₂ h₂ => ?_
  cases a with
  | none => exact h₂
  | some ty =>
    obtain ⟨e, code, hlower, hk, h₂⟩ := h₂
    rw [Site.past_plain, Expr.lower?_ahead] at hlower
    exact ⟨e, code, hlower, hk, by simpa using h.trans h₂⟩

/-- An operand that is there is read, and its type is the answer. -/
theorem operand_goes {e : Expr r} {k : Token.Kind} {rest : List Token.Kind} {ty : Ty}
    {code : List Operation} (hkinds : s₁.kinds = e.kinds ++ k :: rest) (hk : e.goesOn k = false)
    (hlower : e.lower? σ = some (ty, code)) :
    Ends (operand p) s₁ (fun a s₂ => a = ty ∧
      s.Moves σ o d (ks ++ e.kinds) (.plain (c ++ code)) added s₂) fun _ _ => False := by
  refine (hp.goes h hoptions hbound hkinds hk hlower).bind ?_
  rintro _ s₂ ⟨rfl, h₂⟩
  exact ⟨rfl, h₂⟩

/-- If an operand was accepted, there is one: without it an error is reported. -/
theorem operand_accepts : Accepts (operand p) s₁ fun ty s₂ =>
    ∃ (e : Expr r) (code : List Operation), e.lower? σ = some (ty, code) ∧
      e.goesOn s₂.lookahead.kind = false ∧
      s.Moves σ o d (ks ++ e.kinds) (.plain (c ++ code)) added s₂ := by
  refine (hp.accepts h hoptions hbound).bind fun a s₂ h₂ => ?_
  cases a with
  | none =>
    refine .of_clean fun hclean => ?_
    rw [h₂ hclean]
    exact accepts_error h.here.ready.settled _
  | some ty => exact .of_clean fun hclean => accepts_pure (h₂ hclean)

end Reads

/-! ### Operands -/

/-- If a result is known up to equality, it is the result. -/
theorem eq_ok_of_ends {α : Type} {p : Production α} {a : α} {t : State}
    (h : Ends p s (fun b s' => b = a ∧ s' = t) fun _ _ => False) : p s = .ok a t := by
  unfold Ends at h
  split at h
  · next hrun =>
    obtain ⟨rfl, rfl⟩ := h
    exact hrun
  · exact h.elim

theorem Atom.ofKind?_eq_some {k : Token.Kind} {atom : Atom} (h : Atom.ofKind? k = some atom) :
    k = match atom with
      | .number value => .number value
      | .boolean value => .boolean value
      | .name text => .identifier text := by
  cases k <;> cases h <;> rfl

section

variable {bound : Nat} {expression : Production (Option Ty)} {x : String}
  (hoptions : σ.options = options) (h : s.Goes o [.identifier x] [] s₁ σ d []) (p : Position)
include hoptions h

/-- A name that no equal sign follows is loaded. -/
theorem named_goes_load (hk : s₁.lookahead.kind ≠ .symbol .equal) {ty : Ty} {operation : Operation}
    (hload : σ.load? x = some (ty, operation)) :
    Ends (named options expression x p) s₁ (fun a s₂ => a = ty ∧
      s.Moves σ o d [.identifier x] (.plain [operation]) [] s₂) fun _ _ => False := by
  refine ends_bind.mpr (ends_view.mpr ?_)
  have hfind := h.here.find?_eq x
  cases hentity : s₁.scopes.find? x with
  | none => simp [Site.load?, hfind, hentity] at hload
  | some entity =>
    rw [hentity] at hfind
    refine ends_bind.mpr ((accept_goes h (by simp)).imp ?_)
    rintro (_ | _) s₂ ⟨hequal, h₂⟩
    · subst h₂
      refine (load_goes h hfind hoptions hload p).bind fun r s₃ ⟨hr, h₃⟩ => ?_
      subst hr
      exact ⟨rfl, moves_plain (f := {}) [operation] rfl (by simpa using h₃)⟩
    · exact absurd hequal hk

variable (he : Reads options bound .relation expression) (hbound : s.tokens.length ≤ bound + 1)
include he hbound

/-- An assignment is read to its semicolon.  The bound is for its value, which is behind the name
and the equal sign. -/
theorem named_goes_assign {value : Expr .relation} {rest : List Token.Kind}
    (hkinds : s.kinds = (Expr.assign x value).kinds ++ rest) {ty : Ty} {code : List Operation}
    (hlower : (Expr.assign x value).lower? σ = some (ty, code)) :
    Ends (named options expression x p) s₁ (fun a s₂ => a = ty ∧
      s.Moves σ o d (Expr.assign x value).kinds (.plain code) [] s₂) fun _ _ => False := by
  obtain ⟨found, values, target, slot, hvalue, hstore, haccepts, rfl, rfl⟩ :=
    Expr.lower?_assign.mp hlower
  have hkinds : s.kinds =
      [.identifier x] ++ .symbol .equal :: (value.kinds ++ .symbol .semicolon :: rest) := by
    simpa [Expr.kinds] using hkinds
  have hequal := State.lookahead_of_kinds (h.passes.kinds_eq hkinds)
  refine ends_bind.mpr (ends_view.mpr ?_)
  -- the variable was looked up before the value was read, and reading it declares nothing
  have hfind := h.here.find?_eq x
  cases hentity : s₁.scopes.find? x with
  | none => simp [Site.store?, hfind, hentity] at hstore
  | some entity =>
    rw [hentity] at hfind
    refine (accept_takes h (by simp) hequal).bind ?_
    rintro _ s₂ ⟨rfl, h₂⟩
    have hbound₂ : s₂.tokens.length ≤ bound := by
      have := h₂.passes.length_tokens
      simp only [List.length_append, List.length_singleton] at this
      omega
    refine ends_bind.mpr (ends_view.mpr ?_)
    refine (he.operand_goes (c := []) h₂.moves hoptions hbound₂
      (h₂.passes.kinds_eq (by simpa using hkinds)) value.goesOn_semicolon hvalue).bind ?_
    rintro found s₃ ⟨rfl, h₃⟩
    refine (store_goes h₃ (by simpa using hfind) (by simpa using hstore) haccepts p _).bind
      fun _ s₄ h₄ => ?_
    have h₄ := moves_plain [.convert target found, .storeLocal slot] rfl h₄
    have hmark := State.lookahead_of_kinds (h₄.passes.kinds_eq (by simpa using hkinds))
    refine (expect_goes h₄ hmark).bind fun _ s₅ h₅ => ⟨rfl, ?_⟩
    simpa [Expr.kinds] using h₅.behind

/-- What a name begins is a name that is loaded, or an assignment.  The equal sign decides which it
is. -/
theorem named_accepts : Accepts (named options expression x p) s₁ fun ty s₂ =>
    ∃ (e : Expr .primary) (code : List Operation), e.lower? σ = some (ty, code) ∧
      e.goesOn s₂.lookahead.kind = false ∧ s.Moves σ o d e.kinds (.plain code) [] s₂ := by
  have hsettled := h.here.ready.settled
  have hfind := h.here.find?_eq x
  have := he.onward
  refine accepts_view ?_
  cases hentity : s₁.scopes.find? x with
  | none => exact accepts_errorAt hsettled p _
  | some entity =>
    rw [hentity] at hfind
    refine (accept_goes (E := fun _ _ => True) h (by simp)).then ?_
    rintro (_ | _) s₂ ⟨hequal, h₂⟩
    · subst h₂
      refine (load_accepts h hfind hoptions p).then ?_
      rintro _ s₃ ⟨ty, operation, rfl, hload, h₃⟩
      -- nothing was read behind the name, and there is no equal sign
      have hlook := h₃.passes.lookahead_eq h.passes
      refine accepts_pure ⟨.name x, [operation], Expr.lower?_name.mpr ⟨operation, hload, rfl⟩, ?_,
        moves_plain (f := {}) [operation] rfl (by simpa [Expr.kinds] using h₃)⟩
      simpa [Expr.goesOn, hlook] using hequal
    · have hbound₂ : s₂.tokens.length ≤ bound := by
        have := h₂.passes.length_tokens
        simp only [List.length_append, List.length_singleton] at this
        omega
      refine accepts_view ?_
      refine (he.operand_accepts (c := []) h₂.moves hoptions hbound₂).then ?_
      rintro found s₃ ⟨value, values, hvalue, -, h₃⟩
      refine (store_accepts h₃ (by simpa using hfind) found p _).then ?_
      rintro _ s₄ ⟨target, slot, hstore, haccepts, h₄⟩
      have h₄ := moves_plain [.convert target found, .storeLocal slot] rfl h₄
      refine (expect_accepts h₄ .semicolon).then fun _ s₅ h₅ => accepts_pure ?_
      refine ⟨.assign x value, _, Expr.lower?_assign.mpr ⟨found, values, target, slot, hvalue,
        by simpa using hstore, haccepts, rfl, rfl⟩, rfl, ?_⟩
      simpa [Expr.kinds] using h₅.behind

end

/-- Literals, names and assignments are read if the values of the assignments are.  A value has one
token less ahead than the assignment that it is part of, so its bound is one less. -/
theorem reads_primary {bound : Nat} {expression : Production (Option Ty)}
    (he : Reads options bound .relation expression) :
    Reads options (bound + 1) .primary (primary options expression) where
  onward := (onward_fine.grammar options).primary he.onward
  refuses {s} hsettled hnone := by
    -- any other token begins a primary
    have hatom : Atom.ofKind? s.lookahead.kind = none := by
      cases hk : s.lookahead.kind with
      | number value => exact absurd (by simp [hk, Expr.kinds]) (hnone (.number value))
      | boolean value => exact absurd (by simp [hk, Expr.kinds]) (hnone (.boolean value))
      | identifier text => exact absurd (by simp [hk, Expr.kinds]) (hnone (.name text))
      | _ => rfl
    have hcurrent : s.current? = some s.lookahead.kind := State.current?_eq_some.mpr ⟨hsettled, rfl⟩
    refine eq_ok_of_ends (ends_bind.mpr (ends_view.mpr (ends_bind.mpr (ends_accept? ?_ ?_))))
    · intro atom hsome
      simp [hcurrent, hatom] at hsome
    · exact fun _ => ⟨rfl, rfl⟩
  complete {s σ o d} h hoptions hbound {e k rest ty code} hkinds hk hlower := by
    cases e with
    | number value =>
      obtain ⟨rfl, rfl⟩ := Prod.mk.inj (Option.some.inj hlower)
      refine ends_bind.mpr (ends_view.mpr
        ((accept?_takes h.goes Atom.ofKind? rfl (State.lookahead_of_kinds hkinds) rfl).bind ?_))
      rintro _ s₁ ⟨rfl, h₁⟩
      exact (emit_moves h₁.moves _).bind fun _ s₂ h₂ => ⟨rfl, by simpa [Expr.kinds] using h₂⟩
    | boolean value =>
      obtain ⟨rfl, rfl⟩ := Prod.mk.inj (Option.some.inj hlower)
      refine ends_bind.mpr (ends_view.mpr
        ((accept?_takes h.goes Atom.ofKind? rfl (State.lookahead_of_kinds hkinds) rfl).bind ?_))
      rintro _ s₁ ⟨rfl, h₁⟩
      exact (emit_moves h₁.moves _).bind fun _ s₂ h₂ => ⟨rfl, by simpa [Expr.kinds] using h₂⟩
    | name x =>
      obtain ⟨operation, hload, rfl⟩ := Expr.lower?_name.mp hlower
      refine ends_bind.mpr (ends_view.mpr
        ((accept?_takes h.goes Atom.ofKind? rfl (State.lookahead_of_kinds hkinds) rfl).bind ?_))
      rintro _ s₁ ⟨rfl, h₁⟩
      -- a name is told from an assignment by the token behind it
      have hnext := State.lookahead_of_kinds (h₁.passes.kinds_eq hkinds)
      have hequal : s₁.lookahead.kind ≠ .symbol .equal := by simpa [hnext, Expr.goesOn] using hk
      refine (named_goes_load hoptions h₁ _ hequal hload).bind ?_
      rintro _ s₂ ⟨rfl, h₂⟩
      exact ⟨rfl, h₂⟩
    | assign x value =>
      refine ends_bind.mpr (ends_view.mpr
        ((accept?_takes h.goes Atom.ofKind? rfl (State.lookahead_of_kinds hkinds) rfl).bind ?_))
      rintro _ s₁ ⟨rfl, h₁⟩
      refine (named_goes_assign hoptions h₁ _ he hbound hkinds hlower).bind ?_
      rintro _ s₂ ⟨rfl, h₂⟩
      exact ⟨rfl, h₂⟩
  sound {s σ o d} h hoptions hbound := by
    have := he.onward
    refine accepts_view ((accept?_goes (E := fun _ _ => True) h.goes Atom.ofKind? rfl).then ?_)
    rintro (_ | atom) s₁ ⟨hatom, h₁⟩
    · exact accepts_pure h₁
    -- the token that was taken says which tree it is
    have hkind := Atom.ofKind?_eq_some hatom
    cases atom with
    | number value =>
      refine (emit_moves (E := fun _ _ => True) h₁.moves _).then fun _ s₂ h₂ => accepts_pure ?_
      exact ⟨.number value, _, rfl, rfl, by simpa [hkind, Expr.kinds] using h₂⟩
    | boolean value =>
      refine (emit_moves (E := fun _ _ => True) h₁.moves _).then fun _ s₂ h₂ => accepts_pure ?_
      exact ⟨.boolean value, _, rfl, rfl, by simpa [hkind, Expr.kinds] using h₂⟩
    | name x =>
      rw [hkind] at h₁
      exact (named_accepts hoptions h₁ _ he hbound).then fun ty s₂ h₂ => accepts_pure h₂

/-! ### Operators -/

/-- A binary operation is accepted only if the types of its operands go together. -/
theorem binaryType_accepts {operator : Symbol} {left right : Ty} (hsettled : s.recovering = false)
    (p : Position) : Accepts (binaryType p operator left right) s fun ty s' =>
      Ty.binary? operator left right = some ty ∧ s' = s := by
  unfold binaryType
  cases hty : Ty.binary? operator left right with
  | none => exact accepts_errorAt hsettled p _
  | some ty => exact accepts_pure ⟨rfl, rfl⟩

/-- A sign is accepted only if its operand has a type that signs go with. -/
theorem signedType_accepts {sign : Symbol} {operand : Ty} (hsettled : s.recovering = false)
    (p : Position) : Accepts (signedType p sign operand) s fun ty s' =>
      Ty.unary? operand = some ty ∧ s' = s := by
  unfold signedType
  cases hty : Ty.unary? operand with
  | none => exact accepts_errorAt hsettled p _
  | some ty => exact accepts_pure ⟨rfl, rfl⟩

instance {p : Position} {sign : Symbol} {operand : Ty} : Onward (signedType p sign operand) :=
  onward_fine.signedType p sign operand

instance {sign : Symbol} : Onward (emitSign sign) := onward_fine.emitSign sign

instance {p : Position} {operator : Symbol} {left right : Ty} :
    Onward (binaryType p operator left right) := onward_fine.binaryType p operator left right

/-- How operators join trees: a tree of rung `r` is a tree of rung `r₁`, with operators of one
level behind it that have trees of rung `r₀` to their right. -/
structure Ladder {ω : Type} (operators : Operators ω) (r₁ r₀ r : Rung) where
  base : Expr r₁ → Expr r
  join : Expr r → ω → Expr r₀ → Expr r
  spine : ∀ e : Expr r, ∃ (e₁ : Expr r₁) (ops : List (ω × Expr r₀)),
    e = ops.foldl (fun left op => join left op.1 op.2) (base e₁)
  kinds_base : ∀ e, (base e).kinds = e.kinds
  isAssign_base : ∀ e, (base e).isAssign = e.isAssign
  pure_base : ∀ e, (base e).pure = e.pure
  tidy_base : ∀ e, (base e).tidy = e.tidy
  spills_base : ∀ σ e, (base e).spills σ = e.spills σ
  lower?_base : ∀ σ e, (base e).lower? σ = e.lower? σ
  goesOn_base : ∀ k e, (base e).goesOn k =
    (e.goesOn k || (!e.isAssign && (k.operator? operators.ofSymbol?).isSome))
  kinds_join : ∀ left op right,
    (join left op right).kinds = left.kinds ++ .symbol (operators.symbol op) :: right.kinds
  isAssign_join : ∀ left op right, (join left op right).isAssign = false
  pure_join : ∀ left op right, (join left op right).pure = (left.pure && right.pure)
  tidy_join : ∀ left op right, (join left op right).tidy = (left.pure && right.tidy)
  spills_join : ∀ σ left op right,
    (join left op right).spills σ = ((left.lower? σ).isSome && right.spills σ)
  lower?_join : ∀ {σ left op right ty code}, (join left op right).lower? σ = some (ty, code) ↔
    ∃ tl cl tr cr, left.lower? σ = some (tl, cl) ∧ right.lower? σ = some (tr, cr) ∧
      Ty.operate? (operators.symbol op) tl tr = some ty ∧
      cl ++ cr ++ [operators.operation op tl] = code
  goesOn_join : ∀ k left op right, (join left op right).goesOn k =
    (right.goesOn k || (k.operator? operators.ofSymbol?).isSome)
  closes_base : ∀ op (e : Expr r₁), e.goesOn (.symbol (operators.symbol op)) = false
  closes : ∀ op (e : Expr r₀), e.goesOn (.symbol (operators.symbol op)) = false
  ofSymbol?_symbol : ∀ op, operators.ofSymbol? (operators.symbol op) = some op
  eq_symbol : ∀ {mark op}, operators.ofSymbol? mark = some op → mark = operators.symbol op
  simple : ∀ op ty, (operators.operation op ty).Simple

namespace Ladder

variable {ω : Type} {operators : Operators ω} {r₁ r₀ r : Rung} (L : Ladder operators r₁ r₀ r)

/-- A tree with operators of its level behind it, joined from the left. -/
def fold (left : Expr r) (ops : List (ω × Expr r₀)) : Expr r :=
  ops.foldl (fun left op => L.join left op.1 op.2) left

@[simp] theorem fold_nil (left : Expr r) : L.fold left [] = left := rfl

@[simp] theorem fold_cons (left : Expr r) (op : ω × Expr r₀) (ops : List (ω × Expr r₀)) :
    L.fold left (op :: ops) = L.fold (L.join left op.1 op.2) ops := rfl

/-- A tree that means something begins with one that does, since the left operand is lowered
first. -/
theorem exists_lower?_of_fold {left : Expr r} {ops : List (ω × Expr r₀)} {ty : Ty}
    {code : List Operation} (h : (L.fold left ops).lower? σ = some (ty, code)) :
    ∃ tl cl, left.lower? σ = some (tl, cl) := by
  induction ops generalizing left with
  | nil => exact ⟨ty, code, h⟩
  | cons op ops ih =>
    obtain ⟨t, c, hjoin⟩ := ih h
    obtain ⟨tl, cl, -, -, hleft, -⟩ := L.lower?_join.mp hjoin
    exact ⟨tl, cl, hleft⟩

/-- The tokens of a tree begin with those of its left part.  If operators follow, one of them comes
next. -/
theorem kinds_fold (left : Expr r) (ops : List (ω × Expr r₀)) :
    ∃ ks, (L.fold left ops).kinds = left.kinds ++ ks ∧
      (ops ≠ [] → ∃ op rest, ks = .symbol (operators.symbol op) :: rest) := by
  induction ops generalizing left with
  | nil => exact ⟨[], by simp, by simp⟩
  | cons op ops ih =>
    obtain ⟨ks, hks, -⟩ := ih (L.join left op.1 op.2)
    refine ⟨.symbol (operators.symbol op.1) :: (op.2.kinds ++ ks), ?_, fun _ => ⟨_, _, rfl⟩⟩
    rw [L.kinds_join] at hks
    simpa using hks

/-- What follows the last operand of `left` is the next operator, or what follows the whole tree. -/
theorem goesOn_next {left : Expr r} {ops : List (ω × Expr r₀)} {ks more : List Token.Kind}
    {goesOn : Token.Kind → Bool} (hks : (L.fold left ops).kinds = left.kinds ++ ks)
    (hnext : ops ≠ [] → ∃ op rest, ks = .symbol (operators.symbol op) :: rest)
    (hk : ∀ k ∈ more.head?, (L.fold left ops).goesOn k = false)
    (hop : ∀ op, goesOn (.symbol (operators.symbol op)) = false)
    (hlast : ∀ k, left.goesOn k = false → goesOn k = false) :
    ∀ k ∈ (ks ++ more).head?, goesOn k = false := by
  cases ops with
  | nil =>
    obtain rfl : ks = [] := by simpa using hks
    exact fun k hmem => hlast k (hk k hmem)
  | cons op ops =>
    obtain ⟨op', rest, rfl⟩ := hnext (by simp)
    simp [hop op']

/-- So no operand to the right goes on: operators of its own level close it. -/
theorem goesOn_right {left : Expr r} {op : ω} {right : Expr r₀} {ops : List (ω × Expr r₀)}
    {ks more : List Token.Kind}
    (hks : (L.fold (L.join left op right) ops).kinds = (L.join left op right).kinds ++ ks)
    (hnext : ops ≠ [] → ∃ op rest, ks = .symbol (operators.symbol op) :: rest)
    (hk : ∀ k ∈ more.head?, (L.fold (L.join left op right) ops).goesOn k = false) :
    ∀ k ∈ (ks ++ more).head?, right.goesOn k = false := by
  refine L.goesOn_next hks hnext hk (L.closes · right) fun k hjoin => ?_
  rw [L.goesOn_join, Bool.or_eq_false_iff] at hjoin
  exact hjoin.1

/-- Nor does the first one. -/
theorem goesOn_first {e : Expr r₁} {ops : List (ω × Expr r₀)} {ks more : List Token.Kind}
    (hks : (L.fold (L.base e) ops).kinds = (L.base e).kinds ++ ks)
    (hnext : ops ≠ [] → ∃ op rest, ks = .symbol (operators.symbol op) :: rest)
    (hk : ∀ k ∈ more.head?, (L.fold (L.base e) ops).goesOn k = false) :
    ∀ k ∈ (ks ++ more).head?, e.goesOn k = false := by
  refine L.goesOn_next hks hnext hk (L.closes_base · e) fun k hbase => ?_
  rw [L.goesOn_base, Bool.or_eq_false_iff] at hbase
  exact hbase.1

/-- A tree that does not go on is not followed by an operator of its level.  The last join decides,
or the first operand if nothing is joined to it. -/
theorem operator?_eq_none_of_fold {k : Token.Kind} {left : Expr r} {ops : List (ω × Expr r₀)}
    (hleft : left.goesOn k = false → k.operator? operators.ofSymbol? = none)
    (h : (L.fold left ops).goesOn k = false) : k.operator? operators.ofSymbol? = none := by
  induction ops generalizing left with
  | nil => exact hleft h
  | cons op ops ih =>
    refine ih (fun hjoin => ?_) h
    rw [L.goesOn_join, Bool.or_eq_false_iff] at hjoin
    exact Option.isSome_eq_false_iff.mp hjoin.2 |> Option.isNone_iff_eq_none.mp

section

variable {bound : Nat} {level : Production (Option Ty)} (hlevel : Reads options bound r₀ level)
  (hoptions : σ.options = options)
include L hlevel hoptions

/-- Operators and their right operands are read if they lie ahead. -/
theorem chain_goes {k : Token.Kind} {rest : List Token.Kind} {ty : Ty} {code : List Operation}
    (hop : k.operator? operators.ofSymbol? = none) :
    ∀ {ops : List (ω × Expr r₀)} {left : Expr r} {s₁ : State} {tl : Ty} {cl : List Operation}
      {budget : Nat}, s.Moves σ o d left.kinds (.plain cl) [] s₁ → left.lower? σ = some (tl, cl) →
      s₁.tokens.length ≤ budget → s₁.tokens.length ≤ bound →
      s.kinds = (L.fold left ops).kinds ++ k :: rest → (L.fold left ops).goesOn k = false →
      (L.fold left ops).lower? σ = some (ty, code) →
      Ends (chain operators level budget tl) s₁ (fun a s' => a = ty ∧
        s.Moves σ o d (L.fold left ops).kinds (.plain code) [] s') fun _ _ => False := by
  -- by induction on the operators that lie ahead; `left` is the tree of what has been read
  intro ops
  induction ops with
  | nil =>
    intro left s₁ tl cl budget h₁ hleft hbudget hbound hkinds hk hlower
    obtain ⟨rfl, rfl⟩ := Prod.mk.inj (Option.some.inj (hleft.symm.trans hlower))
    have hlook := State.lookahead_of_kinds (h₁.passes.kinds_eq hkinds)
    obtain ⟨budget, rfl⟩ := State.exists_budget hbudget
    refine ends_bind.mpr (ends_view.mpr
      ((accept?_leaves h₁ (Token.Kind.operator? operators.ofSymbol?) (hlook ▸ hop)).bind ?_))
    rintro _ s₂ ⟨rfl, rfl⟩
    exact ⟨rfl, h₁⟩
  | cons op ops ih =>
    intro left s₁ tl cl budget h₁ hleft hbudget hbound hkinds hk hlower
    obtain ⟨op, right⟩ := op
    obtain ⟨budget, rfl⟩ := State.exists_budget hbudget
    rw [fold_cons] at hkinds hk hlower
    -- what is joined means something, since the whole tree does, and so does each operand
    obtain ⟨tj, cj, hjoin⟩ := L.exists_lower?_of_fold hlower
    obtain ⟨tl', cl', tr, cr, hleft', hright, hty, rfl⟩ := L.lower?_join.mp hjoin
    obtain ⟨rfl, rfl⟩ := Prod.mk.inj (Option.some.inj (hleft.symm.trans hleft'))
    obtain ⟨ks, hks, hnext⟩ := L.kinds_fold (L.join left op right) ops
    obtain ⟨k', rest', hrest⟩ : ∃ k' rest', ks ++ k :: rest = k' :: rest' :=
      List.exists_cons_of_ne_nil (by simp)
    have hk' : ∀ k' ∈ (ks ++ k :: rest).head?, right.goesOn k' = false :=
      L.goesOn_right hks hnext (by simpa using hk)
    -- behind the right operand comes the next operator, or what follows the whole tree
    replace hk' := hk' k' (by rw [hrest]; rfl)
    have hkinds : s.kinds = left.kinds ++
        .symbol (operators.symbol op) :: (right.kinds ++ k' :: rest') := by
      rw [hkinds, hks, L.kinds_join, ← hrest]
      simp
    have hlook := State.lookahead_of_kinds (h₁.passes.kinds_eq hkinds)
    refine ends_bind.mpr (ends_view.mpr ((accept?_takes h₁
      (Token.Kind.operator? operators.ofSymbol?) rfl hlook (L.ofSymbol?_symbol op)).bind ?_))
    rintro _ s₂ ⟨rfl, h₂⟩
    have hlength₂ := h₂.passes.length_tokens
    have hlength₁ := h₁.passes.length_tokens
    simp only [List.length_append, List.length_singleton] at hlength₂
    refine (hlevel.operand_goes h₂.behind hoptions (by omega)
      (h₂.passes.kinds_eq (by simpa using hkinds)) hk' hright).bind ?_
    rintro tr s₃ ⟨rfl, h₃⟩
    unfold binaryType
    rw [(Ty.operate?_eq_some.mp hty).2]
    refine ends_bind.mpr (ends_pure.mpr ((emit_moves h₃ _).bind fun _ s₄ h₄ => ?_))
    have hlength₄ := h₄.passes.length_tokens
    simp only [List.length_append, List.length_singleton] at hlength₄
    -- the tree of what has been read is now `left` with `right` joined to it
    refine ih (by simpa [L.kinds_join] using h₄) hjoin (by omega) (by omega) ?_ hk hlower
    rw [hks, hkinds, L.kinds_join]
    simp [← hrest]

/-- Only operators with right operands are read without errors, and they are joined from the left as
they come. -/
theorem chain_accepts {budget : Nat} :
    ∀ {left : Expr r} {s₁ : State} {tl : Ty} {cl : List Operation},
      s.Moves σ o d left.kinds (.plain cl) [] s₁ → left.lower? σ = some (tl, cl) → tl ≠ .void →
      (s₁.lookahead.kind.operator? operators.ofSymbol? = none →
        left.goesOn s₁.lookahead.kind = false) →
      s₁.tokens.length ≤ budget → s₁.tokens.length ≤ bound →
      Accepts (chain operators level budget tl) s₁ fun ty s' =>
        ∃ (e : Expr r) (code : List Operation), e.lower? σ = some (ty, code) ∧
          e.goesOn s'.lookahead.kind = false ∧ s.Moves σ o d e.kinds (.plain code) [] s' := by
  have := hlevel.onward
  have honward (budget : Nat) (left : Ty) : Onward (chain operators level budget left) :=
    onward_fine.chain L.simple hlevel.onward budget left
  -- each operator costs one, and the tokens ahead never get ahead of the budget
  induction budget with
  | zero =>
    intro left s₁ tl cl h₁ hleft hvoid hstop hbudget
    exact absurd (Nat.lt_of_lt_of_le s₁.length_tokens_pos hbudget) (by simp)
  | succ budget ih =>
    intro left s₁ tl cl h₁ hleft hvoid hstop hbudget hbound
    refine accepts_view ((accept?_goes (E := fun _ _ => True) h₁
      (Token.Kind.operator? operators.ofSymbol?) rfl).then ?_)
    rintro (_ | op) s₂ ⟨hop, h₂⟩
    · -- no operator follows, so `left` is the whole tree
      subst h₂
      exact accepts_pure ⟨left, cl, hleft, hstop hop, h₁⟩
    obtain ⟨mark, hmark, hsymbol⟩ := Token.Kind.operator?_eq_some hop
    obtain rfl := L.eq_symbol hsymbol
    rw [hmark] at h₂
    have hlength₂ := h₂.passes.length_tokens
    have hlength₁ := h₁.passes.length_tokens
    simp only [List.length_append, List.length_singleton] at hlength₂
    refine (hlevel.operand_accepts h₂.behind hoptions (by omega)).then ?_
    rintro tr s₃ ⟨right, cr, hright, hnext, h₃⟩
    refine (binaryType_accepts h₃.here.ready.settled _).then ?_
    rintro ty s₃ ⟨hty, rfl⟩
    refine (emit_moves (E := fun _ _ => True) h₃ _).then fun _ s₄ h₄ => ?_
    have hlength₄ := h₄.passes.length_tokens
    simp only [List.length_append, List.length_singleton] at hlength₄
    have hlook := h₄.passes.lookahead_eq h₃.passes
    have hjoin := L.lower?_join.mpr
      ⟨tl, cl, tr, cr, hleft, hright, Ty.operate?_eq_some.mpr ⟨hvoid, hty⟩, rfl⟩
    refine ih (by simpa [L.kinds_join] using h₄) hjoin (Ty.binary?_ne_void hty) ?_ (by omega)
      (by omega)
    intro hnone
    rw [L.goesOn_join, hlook, hnext, ← hlook, hnone]
    rfl

end

end Ladder

/-- A first operand and what may follow it.  Nothing is looked for behind an assignment. -/
def continued (first : Production (Option Ty)) (rest : Ty → Production Ty) :
    Production (Option Ty) := do
  match ← first with
  | none => return none
  | some left => if left = .void then return some .void else return some (← rest left)

/-- A level reads its rung if its first operands are read, and what may follow them.  For
completeness, a tree that lies ahead is to be given as a first operand with the rest of the tree
behind it; for soundness, what is accepted behind a first operand with a value is to be a tree that
begins with it. -/
theorem Reads.continued {r₁ r : Rung} {bound : Nat} {first : Production (Option Ty)}
    {rest : Ty → Production Ty} (hfirst : Reads options bound r₁ first)
    (hrest : ∀ left, Onward (rest left)) (base : Expr r₁ → Expr r)
    (hbase : ∀ e, (base e).kinds = e.kinds ∧ (base e).isAssign = e.isAssign ∧
      ∀ σ, (base e).lower? σ = e.lower? σ)
    (hcomplete : ∀ {s : State} {σ : Site} {o : Outline} {d : Draft}, s.At σ o d →
      σ.options = options → s.tokens.length ≤ bound →
      ∀ {e : Expr r} {k : Token.Kind} {ahead : List Token.Kind} {ty : Ty} {code : List Operation},
        s.kinds = e.kinds ++ k :: ahead → e.goesOn k = false → e.lower? σ = some (ty, code) →
        ∃ (e₁ : Expr r₁) (k' : Token.Kind) (ahead' : List Token.Kind) (tl : Ty)
          (cl : List Operation), s.kinds = e₁.kinds ++ k' :: ahead' ∧ e₁.goesOn k' = false ∧
          e₁.lower? σ = some (tl, cl) ∧ (tl = .void → e = base e₁) ∧
          ∀ {s₁ : State}, tl ≠ .void → s.Moves σ o d e₁.kinds (.plain cl) [] s₁ →
            Ends (rest tl) s₁ (fun a s' => a = ty ∧ s.Moves σ o d e.kinds (.plain code) [] s')
              fun _ _ => False)
    (hsound : ∀ {s s₁ : State} {σ : Site} {o : Outline} {d : Draft} {e₁ : Expr r₁} {tl : Ty}
      {cl : List Operation}, σ.options = options → s₁.tokens.length < bound →
      s.Moves σ o d e₁.kinds (.plain cl) [] s₁ → e₁.lower? σ = some (tl, cl) →
      e₁.goesOn s₁.lookahead.kind = false → tl ≠ .void →
      Accepts (rest tl) s₁ fun ty s' => ∃ (e : Expr r) (code : List Operation),
        e.lower? σ = some (ty, code) ∧ e.goesOn s'.lookahead.kind = false ∧
        s.Moves σ o d e.kinds (.plain code) [] s') :
    Reads options bound r (continued first rest) where
  onward := by
    refine onward_fine.bind hfirst.onward fun left => ?_
    cases left with
    | none => exact onward_fine.pure none
    | some left =>
      exact mem_ite (C := fun _ p => Onward p) (onward_fine.pure _)
        (onward_fine.bind (hrest left) fun _ => onward_fine.pure _)
  refuses {s} hsettled hnone := by
    have hrun := hfirst.refuses hsettled fun e => (hbase e).1 ▸ hnone (base e)
    exact bind_eq_ok.mpr ⟨none, s, hrun, rfl⟩
  complete {s σ o d} h hoptions hbound {e k ahead ty code} hkinds hk hlower := by
    obtain ⟨e₁, k', ahead', tl, cl, hkinds₁, hk', hleft, hvoid, hgoes⟩ :=
      hcomplete h hoptions hbound hkinds hk hlower
    refine (hfirst.complete h hoptions hbound hkinds₁ hk' hleft).bind ?_
    rintro _ s₁ ⟨rfl, h₁⟩
    by_cases hzero : tl = .void
    · -- an assignment has no value, and nothing may follow it
      obtain rfl := hvoid hzero
      obtain ⟨hkinds, -, hmeaning⟩ := hbase e₁
      rw [hmeaning, hleft] at hlower
      obtain ⟨rfl, rfl⟩ := Prod.mk.inj (Option.some.inj hlower)
      subst hzero
      exact ⟨rfl, by rwa [hkinds]⟩
    · show Ends (if tl = .void then _ else _) _ _ _
      rw [if_neg hzero]
      refine (hgoes hzero h₁).bind ?_
      rintro _ s₂ ⟨rfl, h₂⟩
      exact ⟨rfl, h₂⟩
  sound {s σ o d} h hoptions hbound := by
    refine (hfirst.sound h hoptions hbound).bind fun left s₁ h₁ => ?_
    cases left with
    | none => exact .of_clean fun hclean => accepts_pure (h₁ hclean)
    | some tl =>
      refine .of_clean fun hclean => ?_
      obtain ⟨e₁, cl, hleft, hnext, h₁⟩ := h₁ hclean
      -- if the first operand is an assignment, it is the whole tree
      by_cases hzero : tl = .void
      · obtain ⟨hkinds, hassign, hmeaning⟩ := hbase e₁
        subst hzero
        refine accepts_pure ⟨base e₁, cl, (hmeaning σ).trans hleft,
          Expr.goesOn_of_isAssign _ ?_, by rwa [hkinds]⟩
        rw [hassign]
        exact (Expr.eq_void_iff h.valued hleft).mp rfl
      · -- an operand has one token at least, so there are fewer ahead than the bound
        obtain ⟨k, ks, hks, -⟩ := e₁.kinds_eq_cons
        have hlength := h₁.passes.length_tokens
        rw [hks, List.length_cons] at hlength
        show Accepts (if tl = .void then _ else _) _ _
        rw [if_neg hzero]
        exact (hsound hoptions (by omega) h₁ hleft hnext hzero).then
          fun ty s₂ h₂ => accepts_pure h₂

/-- A level of operators reads its rung if its operands are read, and the loop has a round for each
token that may be left behind the first operand. -/
theorem Ladder.reads {ω : Type} {operators : Operators ω} {r₁ r₀ r : Rung}
    (L : Ladder operators r₁ r₀ r) {bound budget : Nat} {first level : Production (Option Ty)}
    (hfirst : Reads options bound r₁ first) (hlevel : Reads options bound r₀ level)
    (hbudget : bound ≤ budget + 1) :
    Reads options bound r (continued first (chain operators level budget)) := by
  refine hfirst.continued (onward_fine.chain L.simple hlevel.onward budget) L.base
    (fun e => ⟨L.kinds_base e, L.isAssign_base e, fun σ => L.lower?_base σ e⟩) ?_ ?_
  · intro s σ o d h hoptions hbound e k ahead ty code hkinds hk hlower
    obtain ⟨e₁, ops, hfold⟩ := L.spine e
    obtain rfl : e = L.fold (L.base e₁) ops := hfold
    obtain ⟨tl, cl, hleft⟩ := L.exists_lower?_of_fold hlower
    obtain ⟨ks, hks, hnext⟩ := L.kinds_fold (L.base e₁) ops
    have hvoid := Expr.eq_void_iff h.valued hleft
    rw [L.isAssign_base] at hvoid
    obtain ⟨k', ahead', hahead⟩ : ∃ k' ahead', ks ++ k :: ahead = k' :: ahead' :=
      List.exists_cons_of_ne_nil (by simp)
    have hk' : ∀ k' ∈ (ks ++ k :: ahead).head?, e₁.goesOn k' = false :=
      L.goesOn_first hks hnext (by simpa using hk)
    replace hk' := hk' k' (by rw [hahead]; rfl)
    refine ⟨e₁, k', ahead', tl, cl, ?_, hk', (L.lower?_base σ e₁).symm.trans hleft, ?_, ?_⟩
    · rw [hkinds, hks, L.kinds_base, List.append_assoc, hahead]
    · -- an assignment cannot be a left operand, so nothing is joined to it
      rintro rfl
      cases ops with
      | nil => rfl
      | cons op ops =>
        rw [fold_cons] at hlower
        obtain ⟨t, c, hjoin⟩ := L.exists_lower?_of_fold hlower
        obtain ⟨tl, cl', tr, cr, hleft', -, hty, -⟩ := L.lower?_join.mp hjoin
        rw [hleft] at hleft'
        obtain ⟨rfl, -⟩ := Prod.mk.inj (Option.some.inj hleft')
        exact absurd rfl (Ty.operate?_eq_some.mp hty).1
    · intro s₁ hne h₁
      have hlength := h₁.passes.length_tokens
      obtain ⟨k₁, ks₁, hks₁, -⟩ := e₁.kinds_eq_cons
      rw [hks₁, List.length_cons] at hlength
      refine L.chain_goes hlevel hoptions ?_ (by rwa [L.kinds_base]) hleft (by omega) (by omega)
        hkinds hk hlower
      -- the tree does not go on with `k`, so `k` is no operator of this level
      refine L.operator?_eq_none_of_fold (fun hstop => ?_) hk
      rw [L.goesOn_base, Bool.or_eq_false_iff, Bool.eq_false_iff.mpr (mt hvoid.mpr hne)] at hstop
      simpa using hstop.2
  · intro s s₁ σ o d e₁ tl cl hoptions hbound h₁ hleft hnext hne
    refine L.chain_accepts hlevel hoptions (by rwa [L.kinds_base])
      ((L.lower?_base σ e₁).trans hleft) hne (fun hnone => ?_) (by omega) (by omega)
    rw [L.goesOn_base, hnext, hnone]
    simp

/-- Multiplicative operators join operands to terms. -/
def multiplicativeLadder : Ladder multiplicativeOperators .primary .primary .term where
  base := .factor
  join := .product
  spine := Expr.spine_term
  kinds_base _ := rfl
  isAssign_base _ := rfl
  pure_base _ := rfl
  tidy_base _ := rfl
  spills_base _ _ := rfl
  lower?_base _ _ := rfl
  goesOn_base _ _ := rfl
  kinds_join _ _ _ := rfl
  isAssign_join _ _ _ := rfl
  pure_join _ _ _ := rfl
  tidy_join _ _ _ := rfl
  spills_join _ _ _ _ := rfl
  lower?_join := Expr.lower?_product
  goesOn_join _ _ _ _ := rfl
  closes_base op e := e.goesOn_primary (by cases op <;> decide)
  closes op e := e.goesOn_primary (by cases op <;> decide)
  ofSymbol?_symbol op := by cases op <;> rfl
  eq_symbol {mark op} h := by cases mark <;> cases h <;> rfl
  simple op _ := trivial

/-- Additive operators join terms to sums. -/
def additiveLadder : Ladder additiveOperators .signed .term .sum where
  base := .first
  join := .sum
  spine := Expr.spine_sum
  kinds_base _ := rfl
  isAssign_base _ := rfl
  pure_base _ := rfl
  tidy_base _ := rfl
  spills_base _ _ := rfl
  lower?_base _ _ := rfl
  goesOn_base _ _ := rfl
  kinds_join _ _ _ := rfl
  isAssign_join _ _ _ := rfl
  pure_join _ _ _ := rfl
  tidy_join _ _ _ := rfl
  spills_join _ _ _ _ := rfl
  lower?_join := Expr.lower?_sum
  goesOn_join _ _ _ _ := rfl
  closes_base op e := e.goesOn_signed (by cases op <;> decide) (by cases op <;> rfl)
  closes op e := e.goesOn_term (by cases op <;> decide) (by cases op <;> rfl)
  ofSymbol?_symbol op := by cases op <;> rfl
  eq_symbol {mark op} h := by cases mark <;> cases h <;> rfl
  simple op ty := by
    show (if _ then _ else _ : Operation).Simple
    split <;> trivial

/-! ### Signs -/

/-- The signs are plus and minus, and each is answered with itself. -/
theorem sign?_eq_some {mark mark' : Symbol} (h : sign? mark = some mark') :
    ∃ sign : Sign, mark = sign.symbol ∧ mark' = sign.symbol := by
  cases mark <;> cases h
  · exact ⟨.plus, rfl, rfl⟩
  · exact ⟨.minus, rfl, rfl⟩

/-- A sign does its operations: plus none at all, and minus a negation. -/
theorem emitSign_moves {f : Fragment} (h : s.Moves σ o d ks f added s₁) (sign : Sign) :
    Ends (emitSign sign.symbol) s₁
      (fun _ s₂ => s.Moves σ o d ks (f ++ .plain sign.operations) added s₂) E := by
  cases sign with
  | plus =>
    have hnone : f ++ .plain [] = f := Fragment.append_empty f
    refine ends_pure.mpr ?_
    rw [Sign.operations, hnone]
    exact h
  | minus => exact emit_moves h _

/-- No term begins with a sign, so it can be told at the first token whether a sum has one. -/
theorem kinds_term_eq_cons : ∀ e : Expr .term,
    ∃ k rest, e.kinds = k :: rest ∧ k.operator? sign? = none
  | .factor e => by cases e <;> exact ⟨_, _, rfl, rfl⟩
  | .product left op right => by
    obtain ⟨k, rest, hks, hk⟩ := kinds_term_eq_cons left
    exact ⟨k, rest ++ .symbol op.symbol :: right.kinds, by simp [Expr.kinds, hks], hk⟩

section

variable {bound budget : Nat} {primary : Production (Option Ty)}
  (hprimary : Reads options bound .primary primary) (hbudget : bound ≤ budget + 1)
include hprimary hbudget

/-- Terms are read if operands are.  Both sides of an operator are operands. -/
theorem reads_multiplicative : Reads options bound .term (multiplicative budget primary) :=
  multiplicativeLadder.reads hprimary hprimary hbudget

/-- The first operand of a sum is a term that may have a sign.  The sign is for the whole term, so
it is done after the products. -/
theorem reads_firstTerm : Reads options bound .signed (firstTerm budget primary) where
  onward := onward_fine.firstTerm hprimary.onward budget
  refuses {s} hsettled hnone := by
    have hcurrent : s.current? = some s.lookahead.kind := State.current?_eq_some.mpr ⟨hsettled, rfl⟩
    have hterm := (reads_multiplicative hprimary hbudget).refuses hsettled
      fun e => hnone (.unsigned e)
    refine eq_ok_of_ends (ends_bind.mpr (ends_view.mpr (ends_bind.mpr (ends_accept? ?_ ?_))))
    · -- any sign begins a signed term, so there is none ahead
      intro mark' hsome
      rw [hcurrent, Option.bind_some] at hsome
      obtain ⟨mark, hmark, hsign⟩ := Token.Kind.operator?_eq_some hsome
      obtain ⟨sign, rfl, -⟩ := sign?_eq_some hsign
      exact absurd (by simp [Expr.kinds, hmark]) (hnone (.signed sign (.factor (.number 0))))
    · exact fun _ => ends_of_ok hterm ⟨rfl, rfl⟩
  complete {s σ o d} h hoptions hbound {e k rest ty code} hkinds hk hlower := by
    have hterm := reads_multiplicative hprimary hbudget
    cases e with
    | unsigned e =>
      -- no term begins with a sign, so none is taken
      obtain ⟨k', ks, hks, hsign⟩ := kinds_term_eq_cons e
      have hahead : s.kinds = k' :: (ks ++ k :: rest) := by simp [hkinds, Expr.kinds, hks]
      have hlook := State.lookahead_of_kinds hahead
      refine ends_bind.mpr (ends_view.mpr
        ((accept?_leaves h.goes (Token.Kind.operator? sign?) (hlook ▸ hsign)).bind ?_))
      rintro _ s₁ ⟨rfl, rfl⟩
      exact hterm.complete h hoptions hbound hkinds hk hlower
    | signed sign e =>
      obtain ⟨operand, operations, he, hty, rfl⟩ := Expr.lower?_signed.mp hlower
      refine ends_bind.mpr (ends_view.mpr ((accept?_takes h.goes (Token.Kind.operator? sign?) rfl
        (State.lookahead_of_kinds hkinds) (a := sign.symbol) (by cases sign <;> rfl)).bind ?_))
      rintro _ s₁ ⟨rfl, h₁⟩
      have hlength := h₁.passes.length_tokens
      refine (hterm.operand_goes (c := []) h₁.moves hoptions (by omega)
        (h₁.passes.kinds_eq hkinds) hk he).bind ?_
      rintro operand s₂ ⟨rfl, h₂⟩
      unfold signedType
      rw [hty]
      refine ends_bind.mpr (ends_pure.mpr ((emitSign_moves h₂ sign).bind fun _ s₃ h₃ => ⟨rfl, ?_⟩))
      simpa [Expr.kinds] using h₃
  sound {s σ o d} h hoptions hbound := by
    have hterm := reads_multiplicative hprimary hbudget
    have := hterm.onward
    refine accepts_view ((accept?_goes (E := fun _ _ => True) h.goes
      (Token.Kind.operator? sign?) rfl).then ?_)
    rintro (_ | mark') s₁ ⟨hsign, h₁⟩
    · subst h₁
      refine (hterm.sound h hoptions hbound).mono fun a s₂ h₂ => ?_
      cases a with
      | none => exact h₂
      | some ty =>
        obtain ⟨e, code, h₂⟩ := h₂
        exact ⟨.unsigned e, code, h₂⟩
    obtain ⟨mark, hmark, hsign⟩ := Token.Kind.operator?_eq_some hsign
    obtain ⟨sign, rfl, rfl⟩ := sign?_eq_some hsign
    rw [hmark] at h₁
    have hlength := h₁.passes.length_tokens
    refine (hterm.operand_accepts (c := []) h₁.moves hoptions (by omega)).then ?_
    rintro operand s₂ ⟨e, operations, he, hnext, h₂⟩
    refine (signedType_accepts h₂.here.ready.settled _).then ?_
    rintro ty s₂ ⟨hty, rfl⟩
    refine (emitSign_moves (E := fun _ _ => True) h₂ sign).then fun _ s₃ h₃ => accepts_pure ?_
    have hlook := h₃.passes.lookahead_eq h₂.passes
    refine ⟨.signed sign e, _, Expr.lower?_signed.mpr ⟨operand, operations, he, hty, rfl⟩, ?_, ?_⟩
    · rw [hlook]
      exact hnext
    · simpa [Expr.kinds] using h₃

/-- Sums are read if operands are.  Only the first of their terms may have a sign. -/
theorem reads_additive : Reads options bound .sum (additive budget primary) :=
  additiveLadder.reads (reads_firstTerm hprimary hbudget) (reads_multiplicative hprimary hbudget)
    hbudget

/-! ### Comparisons -/

section

variable (hoptions : σ.options = options) {left : Expr .sum} {tl : Ty} {cl : List Operation}
  (h₁ : s.Moves σ o d left.kinds (.plain cl) [] s₁)
include hoptions h₁

/-- A comparison and its right operand are read if they lie ahead. -/
theorem comparison_goes {op : ComparisonOp} {right : Expr .sum} {k : Token.Kind}
    {ahead : List Token.Kind} {tr : Ty} {cr : List Operation} (hbound : s.tokens.length ≤ bound)
    (hkinds : s.kinds = left.kinds ++ .symbol op.symbol :: (right.kinds ++ k :: ahead))
    (hk : right.goesOn k = false) (hright : right.lower? σ = some (tr, cr))
    (hcomparable : tl.comparable tr = true) :
    Ends (comparison budget primary tl) s₁ (fun a s' => a = .bool ∧
      s.Moves σ o d (Expr.comparison left op right).kinds
        (.plain (cl ++ cr ++ [.compare op])) [] s')
      fun _ _ => False := by
  have hlook := State.lookahead_of_kinds (h₁.passes.kinds_eq hkinds)
  refine ends_bind.mpr (ends_view.mpr ((accept?_takes h₁
    (Token.Kind.operator? ComparisonOp.ofSymbol?) rfl hlook (a := op)
      (by cases op <;> rfl)).bind ?_))
  rintro _ s₂ ⟨rfl, h₂⟩
  have hlength := h₂.passes.length_tokens
  refine ((reads_additive hprimary hbudget).operand_goes h₂.behind hoptions (by omega)
    (h₂.passes.kinds_eq (by simpa using hkinds)) hk hright).bind ?_
  rintro tr s₃ ⟨rfl, h₃⟩
  rw [hcomparable]
  refine ends_bind.mpr (ends_pure.mpr ((emit_moves h₃ _).bind fun _ s₄ h₄ => ⟨rfl, ?_⟩))
  simpa [Expr.kinds] using h₄

/-- What is accepted behind an operand with a value makes a comparison of it, or leaves it as it
is. -/
theorem comparison_accepts (hbound : s₁.tokens.length < bound)
    (hleft : left.lower? σ = some (tl, cl)) (hnext : left.goesOn s₁.lookahead.kind = false)
    (hne : tl ≠ .void) :
    Accepts (comparison budget primary tl) s₁ fun ty s' =>
      ∃ (e : Expr .relation) (code : List Operation), e.lower? σ = some (ty, code) ∧
        e.goesOn s'.lookahead.kind = false ∧ s.Moves σ o d e.kinds (.plain code) [] s' := by
  have hsum := reads_additive hprimary hbudget
  have := hsum.onward
  refine accepts_view ((accept?_goes (E := fun _ _ => True) h₁
    (Token.Kind.operator? ComparisonOp.ofSymbol?) rfl).then ?_)
  rintro (_ | op) s₂ ⟨hop, h₂⟩
  · -- no comparison follows, so `left` is the whole tree
    subst h₂
    refine accepts_pure ⟨.single left, cl, hleft, ?_, h₁⟩
    simp [Expr.goesOn, hnext, hop]
  obtain ⟨mark, hmark, hsymbol⟩ := Token.Kind.operator?_eq_some hop
  obtain rfl : mark = op.symbol := by cases mark <;> cases hsymbol <;> rfl
  rw [hmark] at h₂
  have hlength₁ := h₁.passes.length_tokens
  have hlength₂ := h₂.passes.length_tokens
  simp only [List.length_append, List.length_singleton] at hlength₂
  refine (hsum.operand_accepts h₂.behind hoptions (by omega)).then ?_
  rintro tr s₃ ⟨right, cr, hright, hnext, h₃⟩
  refine (check_accepts h₃.here.ready.settled).then ?_
  rintro _ s₃ ⟨hcomparable, rfl⟩
  refine (emit_moves (E := fun _ _ => True) h₃ _).then fun _ s₄ h₄ => accepts_pure ?_
  have hlook := h₄.passes.lookahead_eq h₃.passes
  refine ⟨.comparison left op right, _, Expr.lower?_comparison.mpr
    ⟨tl, cl, tr, cr, hleft, hright, ⟨hne, hcomparable⟩, rfl, rfl⟩, ?_, ?_⟩
  · rw [hlook]
    exact hnext
  · simpa [Expr.kinds] using h₄

end

/-- Comparisons are read if operands are.  There is one at most, so a comparison is not an operand
of another. -/
theorem reads_relational : Reads options bound .relation (relational budget primary) := by
  refine (reads_additive hprimary hbudget).continued
    (onward_fine.comparison hprimary.onward budget) .single (fun _ => ⟨rfl, rfl, fun _ => rfl⟩)
    ?_ ?_
  · intro s σ o d h hoptions hbound e k ahead ty code hkinds hk hlower
    cases e with
    | single e =>
      simp only [Expr.goesOn, Bool.or_eq_false_iff] at hk
      refine ⟨e, k, ahead, ty, code, hkinds, hk.1, hlower, fun _ => rfl, fun {s₁} hne h₁ => ?_⟩
      -- an operand with a value is no assignment, so a comparison would go on
      have hassign : e.isAssign = false :=
        Bool.eq_false_iff.mpr (mt (Expr.eq_void_iff h.valued hlower).mpr hne)
      have hop : k.operator? ComparisonOp.ofSymbol? = none := by simpa [hassign] using hk.2
      have hlook := State.lookahead_of_kinds (h₁.passes.kinds_eq hkinds)
      refine ends_bind.mpr (ends_view.mpr ((accept?_leaves h₁
        (Token.Kind.operator? ComparisonOp.ofSymbol?) (hlook ▸ hop)).bind ?_))
      rintro _ s₂ ⟨rfl, rfl⟩
      exact ⟨rfl, h₁⟩
    | comparison left op right =>
      obtain ⟨tl, cl, tr, cr, hleft, hright, ⟨hne, hcomparable⟩, rfl, rfl⟩ :=
        Expr.lower?_comparison.mp hlower
      have hkinds : s.kinds =
          left.kinds ++ .symbol op.symbol :: (right.kinds ++ k :: ahead) := by
        simpa [Expr.kinds] using hkinds
      -- a comparison ends the sum to its left
      have hclosed : left.goesOn (.symbol op.symbol) = false :=
        left.goesOn_sum (by cases op <;> decide) (by cases op <;> rfl) (by cases op <;> rfl)
      exact ⟨left, _, _, tl, cl, hkinds, hclosed, hleft, fun hvoid => absurd hvoid hne,
        fun _ h₁ => comparison_goes hprimary hbudget hoptions h₁ hbound hkinds hk hright
          hcomparable⟩
  · intro s s₁ σ o d e₁ tl cl hoptions hbound h₁ hleft hnext hne
    exact comparison_accepts hprimary hbudget hoptions h₁ hbound hleft hnext hne

end

/-- **Expressions are read as they are meant**, if there are not more tokens ahead than the budget.
Each level of nesting costs one of the budget and at least one token. -/
theorem reads_expression (options : Options) (budget : Nat) :
    Reads options budget .relation (expression options budget) := by
  -- the values of assignments are the only expressions inside primaries
  induction budget with
  | zero =>
    refine ⟨onward_fine.pure none, fun _ _ => rfl, ?_, ?_⟩
    · intro s σ o d h hoptions hbound
      exact absurd (Nat.lt_of_lt_of_le s.length_tokens_pos hbound) (Nat.lt_irrefl 0)
    · intro s σ o d h hoptions hbound
      exact accepts_pure rfl
  | succ budget ih => exact reads_relational (reads_primary ih) (Nat.le_refl _)

end Production

end OnePass
