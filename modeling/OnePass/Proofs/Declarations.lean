import OnePass.Proofs.Statements

/-!
# Declarations are read as they are meant

A field is a local variable of the method around it.  A method is read in a scope of its
own, and its code is written into a method of its own; behind it the method around goes on
where it was.

## Main definitions

* `Site.Fresh` — names that can be declared one after the other.
* `Site.header` — the site at the beginning of the parameters of a method.

## Main results

* `Production.matches_declarationForm` — declarations are read if items are.
* `Production.matches_item` — **whatever is read as an item is meant as one**, and whatever
  is meant as one is read.
-/

namespace OnePass

/-! ### Names that are declared one after the other -/

/-- The names differ, and the innermost scope declares none of them.  Then they can be declared
there one after the other. -/
def Site.Fresh (σ : Site) (names : List String) : Prop :=
  names.Nodup ∧ ∀ x ∈ names, σ.declaredHere x = false

theorem Site.declaredHere_declare {σ : Site} (hσ : σ.names ≠ []) (x y : String) (b : Binding) :
    (σ.declare [(x, b)]).declaredHere y = (y = x || σ.declaredHere y) := by
  unfold declaredHere declare
  cases hnames : σ.names with
  | nil => exact absurd hnames hσ
  | cons names rest =>
    by_cases hxy : y = x <;> simp [Names.declareAll, Names.declare, hxy]

theorem Site.fresh_cons {σ : Site} (hσ : σ.names ≠ []) (x : String) (xs : List String)
    (b : Binding) :
    σ.Fresh (x :: xs) ↔ σ.declaredHere x = false ∧ (σ.declare [(x, b)]).Fresh xs := by
  simp only [Fresh, List.nodup_cons, List.forall_mem_cons, declaredHere_declare hσ,
    Bool.or_eq_false_iff, decide_eq_false_iff_not]
  constructor
  · -- a name later in the list is another one, so declaring the first one leaves it fresh
    rintro ⟨⟨hx, hxs⟩, hhere, hall⟩
    exact ⟨hhere, hxs, fun y hy => ⟨fun heq => hx (heq ▸ hy), hall y hy⟩⟩
  · rintro ⟨hhere, hxs, hall⟩
    exact ⟨⟨fun hx => (hall x hx).1 rfl, hxs⟩, hhere, fun y hy => (hall y hy).2⟩

theorem Site.declare_cons (σ : Site) (b : String × Binding) (bs : List (String × Binding)) :
    σ.declare (b :: bs) = (σ.declare [b]).declare bs := by
  simp [declare, Names.declareAll, List.modifyHead_modifyHead, Function.comp_def]

theorem Site.declare_nil (σ : Site) : σ.declare [] = σ := by
  obtain ⟨options, names, method, returnType, locals, offset, methods, loop⟩ := σ
  cases names <;> rfl

/-- What a parameter is declared as. -/
def Declarator.declared (q : Declarator) : String × Ty := (q.name, q.type.ty)

/-- A comma that may follow the last parameter. -/
def Declarator.commaKinds (comma : Bool) : List Token.Kind := if comma then [.symbol .comma] else []

/-- The tokens of a method between the parenthesis and the brace that open its parameters and
its body. -/
def Declarator.parameterKinds (ds : List Declarator) (comma : Bool) : List Token.Kind :=
  listKinds ds ++ commaKinds comma ++ [.symbol .rightParen]

theorem Declarator.headerKinds_eq (type : TypeName) (x : String) (ds : List Declarator)
    (comma : Bool) : headerKinds type x ds comma =
      [.keyword type.word, .identifier x, .symbol .leftParen] ++ parameterKinds ds comma ++
        [.symbol .leftBrace] := by
  simp [headerKinds, parameterKinds, commaKinds]

theorem Declarator.length_headerKinds (type : TypeName) (x : String) (ds : List Declarator)
    (comma : Bool) :
    3 + ((parameterKinds ds comma).length + 1) = (headerKinds type x ds comma).length := by
  rw [headerKinds_eq]
  simp only [List.length_append, List.length_cons, List.length_nil]
  omega

/-- Behind a parameter the list ends, or a comma follows and then the rest of the list.  A comma
that ends the list is seen as one in front of no parameters. -/
theorem Declarator.listKinds_cons_comma (q : Declarator) (ds : List Declarator) (comma : Bool) :
    (ds = [] ∧ comma = false) ∨ ∃ comma', (comma' = true → ds ≠ []) ∧
      listKinds (q :: ds) ++ commaKinds comma =
        q.kinds ++ .symbol .comma :: (listKinds ds ++ commaKinds comma') := by
  by_cases hds : ds = []
  · subst hds
    cases comma with
    | false => exact .inl ⟨rfl, rfl⟩
    | true => exact .inr ⟨false, by simp, by simp [listKinds, commaKinds]⟩
  · exact .inr ⟨comma, fun _ => hds, by rw [listKinds_cons q hds, List.append_assoc]; rfl⟩

/-- A parameter and a comma before a list are a list.  If the list is empty, the comma is the one
that may follow the last parameter. -/
theorem Declarator.exists_listKinds_cons (q : Declarator) {ds : List Declarator} {comma : Bool}
    (hcomma : comma = true → ds ≠ []) :
    ∃ comma', listKinds (q :: ds) ++ commaKinds comma' =
      q.kinds ++ .symbol .comma :: (listKinds ds ++ commaKinds comma) := by
  by_cases hds : ds = []
  · subst hds
    obtain rfl : comma = false := by simpa using hcomma
    exact ⟨true, by simp [listKinds, commaKinds]⟩
  · exact ⟨comma, by rw [listKinds_cons q hds, List.append_assoc]; rfl⟩

/-- Every parameter is written down, so there are not more of them than tokens. -/
theorem Declarator.length_le_listKinds (ds : List Declarator) :
    ds.length ≤ (listKinds ds).length := by
  induction ds with
  | nil => simp
  | cons q ds ih =>
    by_cases hds : ds = []
    · simp [hds, listKinds, kinds]
    · rw [listKinds_cons q hds]
      simp only [List.length_cons, List.length_append]
      omega

/-- After `n` parameters the rest of the list can be declared at the site: no parameter is of type
`void`, their names are fresh, and there are not too many.  A comma may follow only a parameter.
Reading takes one parameter after the other from such a list. -/
structure Site.Lists (σ : Site) (n : Nat) (ds : List Declarator) (comma : Bool) : Prop where
  valued : ∀ q ∈ ds, q.type.ty ≠ .void
  fresh : σ.Fresh (ds.map Declarator.name)
  length_le : n + ds.length ≤ Method.maxParameters
  comma : comma = true → ds ≠ []

namespace Site.Lists

variable {σ : Site} {n : Nat} {q : Declarator} {ds : List Declarator} {comma : Bool}

theorem nil (hn : n ≤ Method.maxParameters) : σ.Lists n [] false :=
  ⟨by simp, ⟨by simp, by simp⟩, hn, by simp⟩

theorem cons (hσ : σ.names ≠ []) (hvoid : q.type.ty ≠ .void) (hq : σ.declaredHere q.name = false)
    (h : (σ.declare [(q.name, .inert)]).Lists (n + 1) ds comma) (comma' : Bool) :
    σ.Lists n (q :: ds) comma' := by
  refine ⟨List.forall_mem_cons.mpr ⟨hvoid, h.valued⟩,
    (Site.fresh_cons hσ _ _ .inert).mpr ⟨hq, h.fresh⟩, ?_, by simp⟩
  have hle := h.length_le
  rw [List.length_cons]
  omega

theorem tail (hσ : σ.names ≠ []) (h : σ.Lists n (q :: ds) comma) {comma' : Bool}
    (hcomma : comma' = true → ds ≠ []) :
    (σ.declare [(q.name, .inert)]).Lists (n + 1) ds comma' := by
  refine ⟨(List.forall_mem_cons.mp h.valued).2, ((Site.fresh_cons hσ _ _ .inert).mp h.fresh).2, ?_,
    hcomma⟩
  have hle := h.length_le
  rw [List.length_cons] at hle
  omega

end Site.Lists

/-- What the parameters of a method stand for: their slots are numbered from one on. -/
theorem Scopes.formalBindings_declared (method : MethodId) (ds : List Declarator) :
    Scopes.formalBindings (fun k => some ⟨method, k⟩) 1 (ds.map Declarator.declared) =
      Declarator.bindings method ds := by
  -- the ordinal of the first one has to be left open for the induction
  suffices h : ∀ i, Scopes.formalBindings (fun k => some ⟨method, k⟩) (i + 1)
      (ds.map Declarator.declared) = (ds.zipIdx i).map fun q =>
        (q.1.name, Binding.parameter q.1.type.ty ⟨method, q.2 + 1⟩) from h 0
  induction ds with
  | nil => exact fun _ => rfl
  | cons q ds ih =>
    intro i
    rw [List.zipIdx_cons, List.map_cons, List.map_cons, ← ih (i + 1)]
    rfl

/-- A method that ends is the method its fragment stands for.  A return is added to both under the
same condition. -/
theorem Draft.close_headed (x : String) (ty : Ty) (ds : List Declarator) (f : Fragment) :
    ((Draft.headed x ty (ds.map Declarator.declared)).extend f).close =
      (f.method x ty ds).draft := by
  unfold Draft.close Fragment.method Method.draft Fragment.closedCode
  split
  · next hlast =>
    rw [if_pos (by simpa [Draft.extend, Draft.grow, Draft.headed] using hlast)]
    simp [Draft.extend, Draft.grow, Draft.headed, Declarator.declared, Function.comp_def,
      LabelState.offset?]
  · next hlast =>
    rw [if_neg (by simpa [Draft.extend, Draft.grow, Draft.headed] using hlast)]
    simp [Draft.extend, Draft.grow, Draft.headed, Draft.add, Declarator.declared, Function.comp_def,
      LabelState.offset?]

/-- The site inside one more scope, where the loops around it are out of reach. -/
def Site.inside (σ : Site) (names : Names) : Site :=
  { σ with names := names :: σ.names, loop := none }

/-- The site at the beginning of the parameters of a method.  Its name has been declared, and its
scope is empty. -/
def Site.header (σ : Site) (x : String) : Site := (σ.declare [(x, .inert)]).inside .none

/-- What parameters a method can have.  In its own scope nothing is declared before them, so their
names only have to differ. -/
theorem Site.lists_header (σ : Site) (x : String) (ds : List Declarator) (comma : Bool) :
    (σ.header x).Lists 0 ds comma ↔ Declarator.wellFormed ds comma = true := by
  have hfresh : (σ.header x).Fresh (ds.map Declarator.name) ↔ (ds.map Declarator.name).Nodup :=
    ⟨fun h => h.1, fun h => ⟨h, fun _ _ => rfl⟩⟩
  have hcomma : (comma = true → ds ≠ []) ↔ (comma && ds.isEmpty) = false := by
    cases comma <;> simp
  simp only [Declarator.wellFormed, Bool.and_eq_true, List.all_eq_true, decide_eq_true_eq,
    Bool.not_eq_true']
  constructor
  · exact fun h => ⟨⟨⟨h.valued, hfresh.mp h.fresh⟩, by simpa using h.length_le⟩, hcomma.mp h.comma⟩
  · rintro ⟨⟨⟨hvalued, hnodup⟩, hlength⟩, h⟩
    exact ⟨hvalued, hfresh.mpr hnodup, by simpa using hlength, hcomma.mpr h⟩

/-- The tokens a declaration can begin with. -/
def Token.Kind.beginsDecl (k : Token.Kind) : Bool := k.type?.isSome

/-- The tokens an item can begin with. -/
def Token.Kind.beginsItem (k : Token.Kind) : Bool := k.beginsDecl || k.beginsStmt

theorem Item.kinds_eq_cons_of_declaration {item : Item} (h : ¬ item.IsStatement) :
    ∃ k rest, item.kinds = k :: rest ∧ k.beginsDecl = true := by
  rcases item with ⟨type, x⟩ | ⟨type, x, ds, comma, items⟩ | t
  · exact ⟨_, _, rfl, Option.isSome_of_eq_some type.named⟩
  · exact ⟨_, _, rfl, Option.isSome_of_eq_some type.named⟩
  · exact absurd ⟨t, rfl⟩ h

theorem Item.kinds_eq_cons_of_item (item : Item) :
    ∃ k rest, item.kinds = k :: rest ∧ k.beginsItem = true := by
  by_cases h : item.IsStatement
  · obtain ⟨t, rfl⟩ := h
    obtain ⟨k, rest, hkinds, hk⟩ := t.kinds_eq_cons
    exact ⟨k, rest, hkinds, by simp [Token.Kind.beginsItem, hk]⟩
  · obtain ⟨k, rest, hkinds, hk⟩ := Item.kinds_eq_cons_of_declaration h
    exact ⟨k, rest, hkinds, by simp [Token.Kind.beginsItem, hk]⟩

/-- Where an item begins, the input does not end.  So there is something to pass. -/
theorem State.lookahead_ne_endOfInput {s : State} {item : Item} {rest : List Token.Kind}
    (h : s.kinds = item.kinds ++ rest) : s.lookahead.kind ≠ .endOfInput := by
  obtain ⟨k, ks, hks, hk⟩ := item.kinds_eq_cons_of_item
  rw [hks, List.cons_append] at h
  rw [State.lookahead_of_kinds h]
  rintro rfl
  cases hk

/-- No statement begins with a type, so the first token decides between declarations and
statements. -/
theorem Token.Kind.beginsDecl_of_beginsStmt {k : Token.Kind} (h : k.beginsStmt = true) :
    k.beginsDecl = false := by
  cases k with
  | keyword word => cases word <;> first | rfl | cases h
  | _ => rfl

/-- There are always the scope of the program and the outermost one.  So leaving a scope that was
entered always succeeds. -/
theorem State.At.two_le_length_names {s : State} {σ : Site} {o : Outline} {d : Draft}
    (h : s.At σ o d) : 2 ≤ σ.names.length := by
  rw [← h.names]
  simp [Scopes.names, Scopes.chain]

theorem State.At.names_ne_nil {s : State} {σ : Site} {o : Outline} {d : Draft} (h : s.At σ o d) :
    σ.names ≠ [] :=
  List.ne_nil_of_length_pos (Nat.lt_of_lt_of_le Nat.two_pos h.two_le_length_names)

namespace Production

variable {options : Options} {bound : Nat} {s s₁ : State} {ks : List Token.Kind}
  {added added' : List Diagnostic} {σ : Site} {o : Outline} {d : Draft} {ms : List Draft}
  {E : Halt → State → Prop}

/-- A name that is not declared yet passes, and nothing changes. -/
theorem checkFresh_eq (h : s₁.At σ o d) {x : String} (hx : σ.declaredHere x = false)
    (kind : DeclarationKind) (p : Position) : checkFresh kind x p s₁ = .ok () s₁ := by
  show check (!s₁.scopes.declaredHere x) p _ s₁ = _
  rw [h.declaredHere_eq, hx]
  rfl

theorem checkFresh_accepts (h : s₁.At σ o d) (kind : DeclarationKind) (x : String)
    (p : Position) : Accepts (checkFresh kind x p) s₁ fun _ s₂ =>
      σ.declaredHere x = false ∧ s₂ = s₁ := by
  refine accepts_view ((check_accepts h.ready.settled).mono ?_)
  rintro _ s₂ ⟨hfresh, hs₂⟩
  rw [h.declaredHere_eq] at hfresh
  exact ⟨by simpa using hfresh, hs₂⟩

/-- A declaration in the innermost scope.  Only the names of the site change. -/
theorem declare_goes (h : s.Goes o ks added s₁ σ d ms) {c : Scopes.Call} {entity : Entity}
    {x : c.Answer} (hc : c.run s₁.scopes = .ok x (s₁.scopes.declare entity).2)
    (hentity : entity.binding.Valued) :
    Ends (scope c) s₁ (fun y s₂ => y = x ∧ s₂.scopes = (s₁.scopes.declare entity).2 ∧
      s.Goes o ks added s₂ (σ.declare [(entity.name, entity.binding)]) d ms) E := by
  obtain ⟨log, hok⟩ := scope_ok hc
  have hhere := h.here
  have hready := hhere.ready
  -- all but the scopes is as it was
  refine ends_of_ok hok ⟨rfl, rfl, ⟨⟨hready.settled, hready.quiet, hready.last⟩, h.passes.kinds,
    h.passes.tokens, h.passes.reports⟩, ⟨⟨hhere.steady.shows, hhere.steady.opened,
    hhere.steady.current, hhere.steady.draft, hhere.steady.loops,
    hhere.steady.scopes.declare hentity,
    List.suffix_refl _⟩, hhere.entry, ⟨hhere.fits.returnType, hhere.fits.locals,
    hhere.fits.offset, hhere.fits.loop⟩, hhere.methods, ?_,
    ⟨hready.settled, hready.quiet, hready.last⟩⟩, h.inside, h.loops⟩
  show (s₁.scopes.declare entity).2.names = _
  rw [Scopes.names_declare hhere.steady.scopes, hhere.names]
  rfl

/-! ### Fields -/

/-- A local variable is added to the method: the assembler makes room for it, and then the scope
takes its name. -/
theorem declareLocal_moves (h : s.Goes o ks added s₁ σ d []) (x : String) {type : TypeName}
    (hty : type.ty ≠ .void) : Ends (declareLocal x type.ty) s₁
      (fun _ s₂ => s.Moves σ o d ks (σ.field x type.ty) added s₂) E := by
  have hassemble := grow_goes (c := .declareLocal x type.ty)
    (x := ⟨σ.method, d.locals.length⟩) (E := E)
    h [⟨x, type.ty⟩] [] [] fun hshows hd => by
      obtain ⟨a', ha', hshows'⟩ := Assembler.Call.declareLocal_shows hshows hd x type.ty
      exact ⟨a', ha', by simpa [Draft.grow, Draft.addLocal] using hshows'⟩
  refine hassemble.bind ?_
  rintro _ s₂ ⟨rfl, h₂⟩
  have hscope := declare_goes (E := E) (c := .declareLocal x type.ty ⟨σ.method, d.locals.length⟩) h₂
    (run_modifyGet_declare s₂.scopes (.local x type.ty ⟨σ.method, d.locals.length⟩))
    ⟨hty, type.ty_ne_unknown⟩
  refine hscope.bind ?_
  rintro _ s₃ ⟨-, -, h₃⟩
  rw [h.here.fits.locals] at h₃
  exact h₃

instance {name : String} {ty : Ty} : Onward (declareLocal name ty) :=
  onward_fine.bind (onward_fine.assemble (.declareLocal name ty)) fun slot =>
    onward_fine.bind (onward_fine.scope (.declareLocal name ty slot)) fun _ => onward_fine.pure ()

/-- A field is read to its semicolon, if its name is fresh and its type is not `void`. -/
theorem field_moves (h : s.Goes o ks added s₁ σ d []) {type : TypeName} {x : String}
    {rest : List Token.Kind} (hkinds : s₁.kinds = .symbol .semicolon :: rest) {f : Fragment}
    (hlower : (Item.field type x).lower? σ = some f) (p : Position) :
    Ends (field type.ty x p) s₁
      (fun _ s₂ => s.Moves σ o d (ks ++ [.symbol .semicolon]) f added s₂) E := by
  obtain ⟨⟨hfresh, hvoid⟩, rfl⟩ := Item.lower?_field.mp hlower
  refine ends_bind.mpr (ends_of_ok (checkFresh_eq h.here hfresh _ _) ?_)
  rw [if_neg hvoid]
  refine (declareLocal_moves h x hvoid).bind fun _ s₂ h₂ => ?_
  have hmark := State.lookahead_of_kinds
    (h₂.passes.kinds_eq (h.passes.kinds.trans (by rw [hkinds])))
  exact expect_goes h₂ hmark

theorem field_accepts (h : s.Goes o ks added s₁ σ d []) (type : TypeName) (x : String)
    (p : Position) : Accepts (field type.ty x p) s₁ fun _ s₂ => ∃ f,
      (Item.field type x).lower? σ = some f ∧
      s.Moves σ o d (ks ++ [.symbol .semicolon]) f added s₂ := by
  refine (checkFresh_accepts h.here _ _ _).then ?_
  rintro _ _ ⟨hfresh, rfl⟩
  -- a type without values is an error, and so nothing is accepted
  by_cases hvoid : type.ty = .void
  · rw [if_pos hvoid]
    exact accepts_errorAt (f := pure) h.here.ready.settled _ _
  · rw [if_neg hvoid]
    refine (declareLocal_moves (E := fun _ _ => True) h x hvoid).then fun _ s₂ h₂ => ?_
    refine (expect_accepts h₂ .semicolon).mono fun _ s₃ h₃ => ?_
    exact ⟨_, Item.lower?_field.mpr ⟨⟨hfresh, hvoid⟩, rfl⟩, h₃⟩

/-! ### Parameters -/

/-- What a parameter is declared as. -/
def Formal.declared (p : Formal) : String × Ty := (p.name, p.ty)

/-- A parameter is declared, with a number of its own.  It has no slot yet, so that its name stands
for nothing of value. -/
theorem declareFormal_goes (h : s.Goes o ks added s₁ σ d ms) (x : String) (ty : Ty) {ordinal : Nat}
    (hmax : ordinal ≤ Method.maxParameters) :
    Ends (declareFormal x ty ordinal) s₁ (fun parameter s₂ => parameter.declared = (x, ty) ∧
      s.Goes o ks added s₂ (σ.declare [(x, .inert)]) d ms) E := by
  unfold declareFormal
  rw [if_pos hmax]
  have hscope := declare_goes (E := E) (c := .declareParameter x ty ordinal) h
    (run_modifyGet_declare s₁.scopes (.parameter x ty ordinal none)) trivial
  refine hscope.bind ?_
  rintro _ s₂ ⟨-, -, h₂⟩
  exact ⟨rfl, h₂⟩

theorem declareFormal_accepts (h : s.Goes o ks added s₁ σ d ms) (x : String) (ty : Ty)
    (ordinal : Nat) : Accepts (declareFormal x ty ordinal) s₁ fun parameter s₂ =>
      ordinal ≤ Method.maxParameters ∧ parameter.declared = (x, ty) ∧
      s.Goes o ks added s₂ (σ.declare [(x, .inert)]) d ms := by
  by_cases hmax : ordinal ≤ Method.maxParameters
  · exact (declareFormal_goes (E := fun _ _ => True) h x ty hmax).accepts.mono
      fun _ _ h₂ => ⟨hmax, h₂⟩
  · unfold declareFormal
    rw [if_neg hmax]
    exact fun _ _ hrun => by cases hrun

instance {name : String} {ty : Ty} {ordinal : Nat} : Onward (declareFormal name ty ordinal) :=
  mem_ite (C := fun _ p => Onward p)
    (onward_fine.bind (onward_fine.scope (.declareParameter name ty ordinal)) fun _ =>
      onward_fine.pure _)
    (onward_fine.halt _)

/-- A parameter that lies ahead is read, and its name is declared. -/
theorem formal_goes (h : s.Goes o ks added s₁ σ d ms) {q : Declarator} {rest : List Token.Kind}
    (hkinds : s₁.kinds = q.kinds ++ rest) (hvoid : q.type.ty ≠ .void)
    (hfresh : σ.declaredHere q.name = false) {ordinal : Nat}
    (hmax : ordinal ≤ Method.maxParameters) :
    Ends (formal ordinal) s₁ (fun r s₂ => ∃ parameter, r = some parameter ∧
      parameter.declared = q.declared ∧
      s.Goes o (ks ++ q.kinds) added s₂ (σ.declare [(q.name, .inert)]) d ms) E := by
  have hkinds' := h.passes.kinds.trans (congrArg (ks ++ ·) hkinds)
  have hlook := State.lookahead_of_kinds hkinds
  refine (accept?_takes h Token.Kind.type? rfl hlook q.type.named).bind ?_
  rintro _ s₂ ⟨rfl, h₂⟩
  refine ends_bind.mpr (ends_view.mpr ?_)
  have hlook := State.lookahead_of_kinds
    (h₂.passes.kinds_eq (by simpa [Declarator.kinds] using hkinds'))
  refine (accept?_takes h₂ Token.Kind.name? rfl hlook rfl).bind ?_
  rintro _ s₃ ⟨rfl, h₃⟩
  show Ends (if q.type.ty = .void then _ else _) _ _ _
  rw [if_neg hvoid]
  refine ends_bind.mpr (ends_of_ok (checkFresh_eq h₃.here hfresh _ _) ?_)
  refine (declareFormal_goes h₃ _ _ hmax).bind fun parameter s₄ h₄ => ?_
  obtain ⟨hparameter, h₄⟩ := h₄
  exact ⟨parameter, rfl, hparameter, by simpa [Declarator.kinds] using h₄⟩

theorem formal_accepts (h : s.Goes o ks added s₁ σ d ms) (ordinal : Nat) :
    Accepts (formal ordinal) s₁ fun r s₂ => match r with
      | none => s₂ = s₁
      | some parameter => ∃ q : Declarator, q.type.ty ≠ .void ∧ σ.declaredHere q.name = false ∧
        ordinal ≤ Method.maxParameters ∧ parameter.declared = q.declared ∧
        s.Goes o (ks ++ q.kinds) added s₂ (σ.declare [(q.name, .inert)]) d ms := by
  refine (accept?_goes (E := fun _ _ => True) h Token.Kind.type? rfl).then ?_
  rintro (_ | ty) s₂ ⟨htype, h₂⟩
  · exact accepts_pure h₂
  · obtain ⟨type, hword, rfl⟩ := Token.Kind.type?_eq_some htype
    rw [hword] at h₂
    refine accepts_view ((accept?_goes (E := fun _ _ => True) h₂ Token.Kind.name? rfl).then ?_)
    rintro (_ | x) s₃ ⟨hname, h₃⟩
    · rw [h₃]
      exact accepts_error h₂.here.ready.settled _
    · rw [Token.Kind.name?_eq_some hname] at h₃
      show Accepts (if type.ty = .void then _ else _) _ _
      -- the three mistakes that can be made in a parameter are errors, and without them it is
      -- declared
      by_cases hvoid : type.ty = .void
      · rw [if_pos hvoid]
        exact accepts_errorAt h₃.here.ready.settled _ _
      · rw [if_neg hvoid]
        refine (checkFresh_accepts h₃.here _ _ _).then ?_
        rintro _ _ ⟨hfresh, rfl⟩
        refine (declareFormal_accepts h₃ x type.ty ordinal).then ?_
        rintro parameter s₄ ⟨hmax, hparameter, h₄⟩
        refine accepts_pure ⟨⟨type, x⟩, hvoid, hfresh, hmax, hparameter, ?_⟩
        simpa [Declarator.kinds] using h₄

instance {budget : Nat} {done : Array Formal} : Onward (formals budget done) :=
  onward_fine.formals budget done

/-- Without a type there is no parameter, and nothing happens. -/
theorem formals_leaves (h : s.Goes o ks added s₁ σ d ms) (hlook : s₁.lookahead.kind.type? = none)
    (budget : Nat) (done : Array Formal) :
    Ends (formals budget done) s₁ (fun r s₂ => r = done ∧ s₂ = s₁) E := by
  cases budget with
  | zero => exact ⟨rfl, rfl⟩
  | succ budget =>
    refine ends_bind.mpr ?_
    refine (accept?_leaves h Token.Kind.type? hlook).bind ?_
    rintro _ _ ⟨rfl, rfl⟩
    exact ⟨rfl, rfl⟩

/-- Parameters that lie ahead are read, up to the parenthesis behind them.  By recursion on the
list; the site takes up the names on the way. -/
theorem formals_goes {rest : List Token.Kind} : ∀ {ds : List Declarator} {comma : Bool}
    {budget : Nat} {done : Array Formal} {s₁ : State} {ks : List Token.Kind} {σ : Site},
    s.Goes o ks added s₁ σ d ms →
    s₁.kinds = Declarator.listKinds ds ++
      (Declarator.commaKinds comma ++ .symbol .rightParen :: rest) →
    σ.Lists done.size ds comma → ds.length ≤ budget →
    Ends (formals budget done) s₁ (fun r s₂ =>
      r.toList.map Formal.declared = done.toList.map Formal.declared ++ ds.map Declarator.declared ∧
      s.Goes o (ks ++ (Declarator.listKinds ds ++ Declarator.commaKinds comma)) added s₂
        (σ.declare (ds.map fun q => (q.name, .inert))) d ms) E
  | [], comma, budget, done, s₁, ks, σ, h, hkinds, hds, _ => by
    obtain rfl : comma = false := by simpa using hds.comma
    have hlook := State.lookahead_of_kinds hkinds
    refine (formals_leaves h (by rw [hlook]; rfl) budget done).imp ?_
    rintro _ _ ⟨rfl, rfl⟩
    exact ⟨by simp,
      by simpa [Declarator.listKinds, Declarator.commaKinds, Site.declare_nil] using h⟩
  | q :: ds, comma, 0, _, _, _, _, _, _, _, hbudget => by simp at hbudget
  | q :: ds, comma, budget + 1, done, s₁, ks, σ, h, hkinds, hds, hbudget => by
    have hvoid := (List.forall_mem_cons.mp hds.valued).1
    have hhere := ((Site.fresh_cons h.here.names_ne_nil _ _ .inert).mp hds.fresh).1
    have hmax := hds.length_le
    rw [List.length_cons] at hmax hbudget
    -- a parameter is the last one, or a comma follows it, be it the one that ends the list
    rcases Declarator.listKinds_cons_comma q ds comma with ⟨rfl, rfl⟩ | ⟨comma', hcomma, hlist⟩
    · refine (formal_goes h hkinds hvoid hhere (by omega)).bind ?_
      rintro _ s₂ ⟨parameter, rfl, hparameter, h₂⟩
      have hkinds₂ : s₂.kinds = .symbol .rightParen :: rest := by
        refine h₂.passes.kinds_eq ?_
        rw [h.passes.kinds, hkinds, List.append_assoc]
        rfl
      refine ends_bind.mpr ((accept_goes h₂ (by simp)).imp ?_)
      rintro (_ | _) s₃ ⟨hcomma, h₃⟩
      · subst h₃
        exact ⟨by simp [hparameter],
          by simpa [Declarator.listKinds, Declarator.commaKinds] using h₂⟩
      · simp [State.lookahead_of_kinds hkinds₂] at hcomma
    · rw [← List.append_assoc, hlist, List.append_assoc] at hkinds
      refine (formal_goes h hkinds hvoid hhere (by omega)).bind ?_
      rintro _ s₂ ⟨parameter, rfl, hparameter, h₂⟩
      have hkinds₂ := h₂.passes.kinds_eq (by rw [h.passes.kinds, hkinds, List.append_assoc])
      refine (accept_takes h₂ (by simp) (State.lookahead_of_kinds hkinds₂)).bind ?_
      rintro _ s₃ ⟨rfl, h₃⟩
      have hkinds₃ : s₃.kinds = Declarator.listKinds ds ++
          (Declarator.commaKinds comma' ++ .symbol .rightParen :: rest) := by
        refine h₃.passes.kinds_eq ?_
        rw [h₂.passes.kinds, hkinds₂]
        simp
      have htail := hds.tail h.here.names_ne_nil hcomma
      rw [← Array.size_push parameter] at htail
      refine (formals_goes h₃ hkinds₃ htail (by omega)).imp ?_
      rintro r s₄ ⟨hr, h₄⟩
      simp only [List.map_cons]
      rw [hlist, Site.declare_cons]
      exact ⟨by simp [hr, hparameter], by simpa using h₄⟩

/-- Only parameters are read.  A comma that is not followed by one is taken for the one that ends
the list. -/
theorem formals_accepts {budget : Nat} : ∀ {done : Array Formal} {s₁ : State} {ks : List Token.Kind}
    {σ : Site}, s.Goes o ks added s₁ σ d ms → done.size ≤ Method.maxParameters →
    Accepts (formals budget done) s₁ fun r s₂ => ∃ (ds : List Declarator) (comma : Bool),
      σ.Lists done.size ds comma ∧
      r.toList.map Formal.declared = done.toList.map Formal.declared ++ ds.map Declarator.declared ∧
      s.Goes o (ks ++ (Declarator.listKinds ds ++ Declarator.commaKinds comma)) added s₂
        (σ.declare (ds.map fun q => (q.name, .inert))) d ms := by
  induction budget with
  | zero =>
    intro done s₁ ks σ h hdone
    refine accepts_pure ⟨[], false, .nil hdone, by simp, ?_⟩
    simpa [Declarator.listKinds, Declarator.commaKinds, Site.declare_nil] using h
  | succ budget ih =>
    intro done s₁ ks σ h hdone
    refine (formal_accepts h _).bind ?_
    rintro (_ | parameter) s₂ h₂
    · refine .of_clean fun hclean => ?_
      obtain rfl : s₂ = s₁ := h₂ hclean
      refine accepts_pure ⟨[], false, .nil hdone, by simp, ?_⟩
      simpa [Declarator.listKinds, Declarator.commaKinds, Site.declare_nil] using h
    · refine .of_clean fun hclean => ?_
      obtain ⟨q, hvoid, hhere, hmax, hparameter, h₂⟩ := h₂ hclean
      refine (accept_goes (E := fun _ _ => True) h₂ (by simp)).then ?_
      rintro (_ | _) s₃ ⟨-, h₃⟩
      · -- no comma follows, so this was the last one
        subst h₃
        refine accepts_pure ⟨[q], false, .cons h.here.names_ne_nil hvoid hhere (.nil hmax) false,
          by simp [hparameter], ?_⟩
        simpa [Declarator.listKinds, Declarator.commaKinds] using h₂
      · -- behind the comma come the rest of the parameters, or none
        refine (ih h₃ (by rw [Array.size_push]; exact hmax)).mono ?_
        rintro r s₄ ⟨ds, comma, hds, hr, h₄⟩
        obtain ⟨comma', hlist⟩ := Declarator.exists_listKinds_cons q hds.comma
        rw [Array.size_push] at hds
        refine ⟨q :: ds, comma', hds.cons h.here.names_ne_nil hvoid hhere comma',
          by simp [hr, hparameter], ?_⟩
        rw [hlist, List.map_cons, Site.declare_cons]
        simpa using h₄

/-! ### Methods -/

theorem Formal.map_declared_list (id : EntityId) (ordinal : Nat) (parameters : List (String × Ty)) :
    (Formal.list id ordinal parameters).map Formal.declared = parameters := by
  induction parameters generalizing id ordinal with
  | nil => rfl
  | cons p parameters ih => simp [Formal.list, Formal.declared, ih]

/-- The parameters `ds` have been read from a state on, and the second one is reached.  Which
entities they are has to be known too, since slots are attached to them later. -/
structure HeaderRead (s : State) (o : Outline) (d : Draft) (σ : Site) (ds : List Declarator)
    (ks : List Token.Kind) (s' : State) : Prop where
  goes : s.Goes o ks [] s' (σ.declare (ds.map fun q => (q.name, .inert))) d []
  scopes : s'.scopes = s.scopes.declareFormals (fun _ => none) 1 (ds.map Declarator.declared)

section

variable (h : s.At σ o d)
include h

/-- The parameters of a method are read, and declared with consecutive numbers.  What is read and
what is declared are known from two different lemmas, put together here. -/
theorem header_goes {ds : List Declarator} {comma : Bool} {rest : List Token.Kind} {budget : Nat}
    (hkinds : s.kinds = Declarator.listKinds ds ++ (Declarator.commaKinds comma ++
      .symbol .rightParen :: rest))
    (hds : σ.Lists 0 ds comma) (hbudget : ds.length ≤ budget) :
    Ends (formals budget #[]) s (fun r s' =>
      r.toList = Formal.list s.scopes.entities.size 1 (ds.map Declarator.declared) ∧
      HeaderRead s o d σ ds (Declarator.listKinds ds ++ Declarator.commaKinds comma) s')
      fun _ _ => False := by
  have hends : Ends (formals budget #[]) s _ _ := formals_ends h.ready.last (by simp)
  have hgoes : Ends (formals budget #[]) s _ fun _ _ => False :=
    formals_goes h.goes hkinds hds hbudget
  refine (hgoes.and hends).mono ?_ fun _ _ he => he.1
  rintro r s' ⟨⟨hr, h'⟩, parameters, -, hlist, -, hscopes⟩
  have hparameters : parameters = ds.map Declarator.declared := by
    simpa [hlist, Formal.map_declared_list] using hr
  subst hparameters
  exact ⟨by simpa using hlist, by simpa using h', by simpa using hscopes⟩

theorem header_accepts (budget : Nat) : Accepts (formals budget #[]) s fun r s' =>
    ∃ (ds : List Declarator) (comma : Bool), σ.Lists 0 ds comma ∧
      r.toList = Formal.list s.scopes.entities.size 1 (ds.map Declarator.declared) ∧
      HeaderRead s o d σ ds (Declarator.listKinds ds ++ Declarator.commaKinds comma) s' := by
  have hends : Ends (formals budget #[]) s _ _ := formals_ends h.ready.last (by simp)
  refine ((formals_accepts h.goes (by simp)).and_ends hends).mono ?_
  rintro r s' ⟨⟨ds, comma, hds, hr, h'⟩, parameters, -, hlist, -, hscopes⟩
  have hparameters : parameters = ds.map Declarator.declared := by
    simpa [hlist, Formal.map_declared_list] using hr
  subst hparameters
  exact ⟨ds, comma, hds, by simpa using hlist, by simpa using h', by simpa using hscopes⟩

end

section

variable {ds : List Declarator} (h : HeaderRead s o d σ ds ks s₁)
include h

theorem HeaderRead.expect_goes (hmark : s₁.lookahead.kind = .symbol .rightParen) :
    Ends (expect .rightParen) s₁
      (fun _ s₂ => HeaderRead s o d σ ds (ks ++ [.symbol .rightParen]) s₂)
      fun _ _ => False := by
  have hsame := expect_ends .rightParen s₁ (E := fun _ _ => False)
  refine ((Production.expect_goes h.goes hmark).and hsame).mono ?_ fun _ _ he => he.1
  rintro _ s₂ ⟨h₂, hsame, -⟩
  exact ⟨h₂, hsame.scopes.trans h.scopes⟩

theorem HeaderRead.expect_accepts : Accepts (expect .rightParen) s₁ fun _ s₂ =>
    HeaderRead s o d σ ds (ks ++ [.symbol .rightParen]) s₂ := by
  have hsame := expect_ends .rightParen s₁ (E := fun _ _ => False)
  refine ((Production.expect_accepts h.goes .rightParen).and_ends hsame).mono ?_
  rintro _ s₂ ⟨h₂, hsame, -⟩
  exact ⟨h₂, hsame.scopes.trans h.scopes⟩

end

/-- Once its parameters have been read, a method is opened, and its body begins.  The assembler
makes the method, the parameters get their slots, and the method entity its number. -/
theorem openMethod_at {x : String} {type : TypeName} {ds : List Declarator} {comma : Bool}
    {entity : EntityId} (h₀ : s.At (σ.header x) o d) (hloops : s.loops = [])
    (hentity : s.scopes.entities[entity]? = some (.method x type.ty [] none))
    (hds : (σ.header x).Lists 0 ds comma) (h : HeaderRead s o d (σ.header x) ds ks s₁) :
    ∃ assembler scopes log,
      openMethod entity type.ty x
          (Formal.list s.scopes.entities.size 1 (ds.map Declarator.declared)) s₁ =
        .ok o.drafts.length { s₁ with assembler, scopes, log } ∧
      State.At { s₁ with assembler, scopes, methods := o.drafts.length :: s₁.methods, log }
        (σ.body type.ty x ds)
        ⟨o.title, o.drafts ++ [.headed x type.ty (ds.map Declarator.declared)],
          o.drafts.length :: o.opened⟩
        (.headed x type.ty (ds.map Declarator.declared)) := by
  have hsteady := h.goes.here.steady
  have hput : o.put (σ.header x).method d [] = o := Outline.put_self h₀.steady.draft
  have hshows : s₁.assembler.Shows o := hput ▸ hsteady.shows
  have hopened : o.opened = s₁.methods := hsteady.opened
  have hvalued : ∀ p ∈ ds.map Declarator.declared, p.2 ≠ .void ∧ p.2 ≠ .unknown := by
    simp only [List.forall_mem_map]
    exact fun q hq => ⟨hds.valued q hq, q.type.ty_ne_unknown⟩
  obtain ⟨assembler, scopes, log, hopen, hshows', hsound, -, hnames⟩ :=
    openMethod_eq hshows h₀.steady.scopes hvalued hentity h.scopes
  have hmethods : o.drafts.length = σ.methods := h₀.methods
  have hloops' : s₁.loops = [] := h.goes.loops.trans hloops
  have hready := h.goes.here.ready
  -- the new draft is the last one and its method the innermost; everything else is as in the header
  refine ⟨assembler, scopes, log, hopen, ⟨hshows', ?_, ?_, ?_, ?_, hsound, List.suffix_refl _⟩,
    ?_, ⟨rfl, rfl, rfl, ?_⟩, ?_, ?_, hready.settled, hready.quiet, hready.last⟩
  · exact congrArg (o.drafts.length :: ·) hopened
  · exact congrArg some hmethods
  · simp [Site.body, ← hmethods]
  · simp [hloops']
  · have hentry := h.goes.here.entry
    show (o.drafts.length :: s₁.methods).getLast? = some 0
    rw [List.getLast?_cons, hentry]
    rfl
  · simp [hloops', Site.body]
  · simp [Site.body, ← hmethods]
  · show scopes.names = _
    rw [hnames, h₀.names, Scopes.formalBindings_declared, hmethods]
    rfl

/-- Behind its body a method is ended, and the method around it goes on.  It is where it was, with
more methods in the program. -/
theorem endMethod_goes {s₂ : State} {e e' : Draft} {σ₁ : Site} {ks' : List Token.Kind}
    {assembler : Assembler} {scopes : Scopes} {log : Array Event} (h : s.Goes o ks added s₁ σ d [])
    (h' : State.Goes { s₁ with assembler, scopes, methods := o.drafts.length :: s₁.methods, log }
      ⟨o.title, o.drafts ++ [e], o.drafts.length :: o.opened⟩ ks' added' s₂ σ₁ e' ms)
    (hd : o.drafts[σ.method]? = some d) (hmethod : σ₁.method = o.drafts.length)
    (hlabels : ∀ label ∈ e'.labels, label.isSome) :
    Ends (assemble .endMethod) { s₂ with methods := s₂.methods.tail } (fun _ s₃ =>
      s.Goes o (ks ++ ks') (added ++ added') s₃
        { σ with names := σ₁.names, methods := σ₁.methods } d (e'.close :: ms)) E := by
  have hsteady := h.here.steady
  have hsteady' := h'.here.steady
  have hready := h'.here.ready
  have hput : Outline.put ⟨o.title, o.drafts ++ [e], o.drafts.length :: o.opened⟩ σ₁.method e' ms =
      ⟨o.title, o.drafts ++ e' :: ms, o.drafts.length :: o.opened⟩ := by
    simp [Outline.put, hmethod]
  -- the method around it was not written on in between
  have hself : o.put σ.method d (e'.close :: ms) =
      ⟨o.title, o.drafts ++ e'.close :: ms, o.opened⟩ := by
    simp [Outline.put, set_of_getElem? hd]
  obtain ⟨closed, a, ha, hshows⟩ := Assembler.Call.endMethod_shows (hput ▸ hsteady'.shows)
    (by simp) hlabels
  have hset : (o.drafts ++ e' :: ms).set o.drafts.length e'.close = o.drafts ++ e'.close :: ms := by
    simp
  rw [hset] at hshows
  have hopened : o.drafts.length :: o.opened = s₂.methods := hsteady'.opened
  have htail : o.opened = s₂.methods.tail := congrArg List.tail hopened
  have hopened₁ : o.opened = s₁.methods := hsteady.opened
  have hloops : s₂.loops = s₁.loops := h'.loops
  have hpasses : s₁.Passes ks' added' s₂ :=
    ⟨hready, h'.passes.kinds, h'.passes.tokens, h'.passes.reports⟩
  obtain ⟨log', hok⟩ := assemble_ok (s := { s₂ with methods := s₂.methods.tail }) ha
  have hpasses' := h.passes.trans hpasses
  refine ends_of_ok hok ⟨⟨⟨hready.settled, hready.quiet, hready.last⟩, hpasses'.kinds,
    hpasses'.tokens, hpasses'.reports⟩, ?_, h.inside, hloops.trans h.loops⟩
  rw [hself]
  refine ⟨⟨hshows, htail, ?_, ?_, ?_, hsteady'.scopes, List.suffix_refl _⟩, ?_,
    ⟨h.here.fits.returnType, h.here.fits.locals, h.here.fits.offset, ?_⟩, ?_, h'.here.names,
    hready.settled, hready.quiet, hready.last⟩
  · show s₂.methods.tail.head? = _
    rw [← htail, hopened₁]
    exact hsteady.current
  · exact (List.getElem?_append_left h.inside).trans hd
  · exact fun loop hloop => hsteady.loops loop (hloops ▸ hloop)
  · show s₂.methods.tail.getLast? = _
    rw [← htail, hopened₁]
    exact h.here.entry
  · show σ.loop = s₂.loops.head?.map d.exits
    rw [hloops]
    exact h.here.fits.loop
  · have hmethods := h'.here.methods
    rw [hput] at hmethods
    simpa using hmethods

/-! ### Scopes -/

/-- Leaves a scope, behind which the given loops are within reach. -/
def leaveScope (loops : List Loop) : Production Unit := do
  modify fun s => { s with loops := loops }
  scope .exit

instance {loops : List Loop} : Onward (leaveScope loops) :=
  onward_fine.bind (onward_fine.adjust fun _ => ⟨_, _, _, _, rfl⟩) fun _ => onward_fine.scope .exit

/-- A step inside one more scope: the scope is entered before it, and left however it ends. -/
theorem inScope_eq {α : Type} (step : Production α) (s : State) :
    ∃ log, inScope step s = ensuring step (leaveScope s.loops)
      { s with scopes := s.scopes.enter, loops := [], log } := by
  have hrun : Scopes.Call.enter.run s.scopes = .ok () s.scopes.enter := rfl
  obtain ⟨log, henter⟩ := scope_ok hrun
  refine ⟨log, ?_⟩
  simp only [inScope, bind, EStateM.bind, henter]
  rfl

theorem enterScope_at (h : s.At σ o d) (log : Array Event) :
    State.At { s with scopes := s.scopes.enter, loops := [], log } (σ.inside .none) o d where
  steady := ⟨h.steady.shows, h.steady.opened, h.steady.current, h.steady.draft, by simp,
    h.steady.scopes.enter, List.suffix_refl _⟩
  entry := h.entry
  fits := ⟨h.fits.returnType, h.fits.locals, h.fits.offset, rfl⟩
  methods := h.methods
  names := by
    show s.scopes.enter.names = _
    rw [Scopes.names_enter, h.names]
    rfl
  ready := ⟨h.ready.settled, h.ready.quiet, h.ready.last⟩

/-- Behind a scope the loops around it are within reach again, and its names are gone. -/
theorem leaveScope_goes {names : Names} {σ' : Site} {log : Array Event} (h : s.At σ o d)
    (h' : State.Goes { s with scopes := s.scopes.enter, loops := [], log } o ks added s₁
      (σ'.inside names) d ms)
    (hloop : σ'.loop = σ.loop) (hmethod : σ'.method = σ.method) (hnames : 2 ≤ σ'.names.length) :
    Ends (leaveScope s.loops) s₁ (fun _ s₂ => s.Goes o ks added s₂ σ' d ms) E := by
  have hhere := h'.here
  have hready := hhere.ready
  have hlength := congrArg List.length hhere.names
  -- a scope is open that can be left, as there are three names at least
  have hnested : s₁.scopes.nested ≠ [] := by
    intro hnil
    simp [Scopes.names, Scopes.chain, hnil, Site.inside] at hlength
    omega
  obtain ⟨scopes, hexit, -, hsound, hnames'⟩ := Scopes.exit_eq_ok hhere.steady.scopes hnested
  obtain ⟨log', hscope⟩ := scope_ok (c := .exit) (s := { s₁ with loops := s.loops }) hexit
  refine ends_bind.mpr (ends_modify.mpr (ends_of_ok hscope ?_))
  refine ⟨⟨⟨hready.settled, hready.quiet, hready.last⟩, h'.passes.kinds, h'.passes.tokens,
    h'.passes.reports⟩, ⟨⟨hhere.steady.shows, hhere.steady.opened, hhere.steady.current,
    hhere.steady.draft, ?_, hsound, List.suffix_refl _⟩, hhere.entry, ⟨hhere.fits.returnType,
    hhere.fits.locals, hhere.fits.offset, hloop.trans h.fits.loop⟩, hhere.methods, ?_,
    hready.settled, hready.quiet, hready.last⟩, h'.inside, rfl⟩
  · rw [hmethod]
    exact h.steady.loops
  · exact hnames'.trans (congrArg List.tail hhere.names)

/-- Behind its body a method is the one its fragment stands for, and the site is the one behind its
declaration, still inside its scope. -/
theorem HeaderRead.endMethod_goes {x : String} {type : TypeName} {ds : List Declarator} {s₂ : State}
    {ks' : List Token.Kind} {assembler : Assembler} {scopes : Scopes} {log : Array Event}
    {f : Fragment} (h₀ : s.At (σ.header x) o d) (h : HeaderRead s o d (σ.header x) ds ks s₁)
    (h' : State.Moves { s₁ with assembler, scopes, methods := o.drafts.length :: s₁.methods, log }
      (σ.body type.ty x ds)
      ⟨o.title, o.drafts ++ [.headed x type.ty (ds.map Declarator.declared)],
        o.drafts.length :: o.opened⟩
      (.headed x type.ty (ds.map Declarator.declared)) ks' f added s₂) :
    Ends (assemble .endMethod) { s₂ with methods := s₂.methods.tail } (fun _ s₃ =>
      s.Goes o (ks ++ ks') added s₃
        ((σ.past (f.declaration x type.ty ds)).inside
          ((Names.none.declareAll (Declarator.bindings σ.methods ds)).declareAll f.names)) d
        ((f.declaration x type.ty ds).methods.map Method.draft)) E := by
  have hmethods : o.drafts.length = σ.methods := h₀.methods
  have hlabels : ∀ label ∈ ((Draft.headed x type.ty (ds.map Declarator.declared)).extend f).labels,
      label.isSome := by
    simp [Draft.extend, Draft.grow, Draft.headed]
  refine (Production.endMethod_goes h.goes h' h₀.steady.draft hmethods.symm hlabels).imp
    fun _ s₃ h₃ => ?_
  rw [Draft.close_headed] at h₃
  have hsite : { (σ.header x).declare (ds.map fun q => (q.name, .inert)) with
      names := ((σ.body type.ty x ds).past f).names
      methods := ((σ.body type.ty x ds).past f).methods } =
      (σ.past (f.declaration x type.ty ds)).inside
        ((Names.none.declareAll (Declarator.bindings σ.methods ds)).declareAll f.names) := by
    simp [Site.header, Site.inside, Site.past, Site.declare, Site.body, Fragment.declaration,
      Nat.add_assoc, Nat.add_comm 1]
  rw [hsite] at h₃
  simpa [Fragment.declaration] using h₃

section

variable {item : Production Bool} {budget : Nat}

instance {entity : EntityId} {returnType : Ty} {name : String} {parameters : List Formal} :
    Onward (openMethod entity returnType name parameters) := onward_fine.openMethod _ _ _ _

instance {id : MethodId} [hi : Onward item] : Onward (inMethod id (body budget item)) :=
  onward_fine.inMethod hi budget id

instance {name : String} {returnType : Ty} [hi : Onward item] : Onward (do
    let entity ← scope (.declareMethod name returnType)
    inScope (methodRest budget item entity returnType name)) :=
  onward_fine.bind (onward_fine.scope (.declareMethod name returnType)) fun _ =>
    onward_fine.inScope hi budget _ _ _

instance : Onward (do let _ ← assemble .endMethod : Production Unit) :=
  onward_fine.bind (onward_fine.assemble .endMethod) fun _ => onward_fine.pure ()

end

section

variable {item : Production Bool} {budget : Nat}

/-- The body of a method is a block. -/
theorem body_goes {bodyKinds : List Token.Kind} {R : Fragment → List Diagnostic → Prop}
    (h : Yields (block budget item) true s σ o d bodyKinds R) :
    Ends (body budget item) s
      (fun _ s' => ∃ f added, R f added ∧ s.Moves σ o d bodyKinds f added s') fun _ _ => False := by
  refine Ends.bind h ?_
  rintro _ s₁ ⟨rfl, h₁⟩
  exact h₁

/-- If the parameters of a method lie ahead, the method is opened, and its body comes next.  How the
body is read is left to what follows. -/
theorem methodRest_opens {x : String} {type : TypeName} {entity : EntityId}
    (h₀ : s.At (σ.header x) o d) (hloops : s.loops = [])
    (hentity : s.scopes.entities[entity]? = some (.method x type.ty [] none))
    (hbudget : s.tokens.length ≤ budget + 1) {ds : List Declarator} {comma : Bool}
    {rest : List Token.Kind} (hkinds : s.kinds = Declarator.parameterKinds ds comma ++ rest)
    (hds : (σ.header x).Lists 0 ds comma) {Q : Unit → State → Prop} {E : Halt → State → Prop}
    (hrest : ∀ {s₂ : State} (assembler : Assembler) (scopes : Scopes) (log : Array Event),
      HeaderRead s o d (σ.header x) ds (Declarator.parameterKinds ds comma) s₂ →
      State.At { s₂ with assembler, scopes, methods := o.drafts.length :: s₂.methods, log }
        (σ.body type.ty x ds)
        ⟨o.title, o.drafts ++ [.headed x type.ty (ds.map Declarator.declared)],
          o.drafts.length :: o.opened⟩ (.headed x type.ty (ds.map Declarator.declared)) →
      Ends (do
        inMethod o.drafts.length (body budget item)
        let _ ← assemble .endMethod) { s₂ with assembler, scopes, log } Q E) :
    Ends (methodRest budget item entity type.ty x) s Q E := by
  have hlist : s.kinds = Declarator.listKinds ds ++ (Declarator.commaKinds comma ++
      .symbol .rightParen :: rest) := by
    simpa [Declarator.parameterKinds] using hkinds
  -- there are not more parameters than tokens, so the budget is enough for them
  have hlength := congrArg List.length hlist
  simp only [State.kinds, List.length_map, List.length_append, List.length_cons] at hlength
  have hle := Declarator.length_le_listKinds ds
  refine (header_goes h₀ hlist hds (by omega)).safely.bind ?_
  rintro parameters s₁ ⟨hparameters, h₁⟩
  have hmark := State.lookahead_of_kinds (h₁.goes.passes.kinds_eq (by simpa using hlist))
  refine (h₁.expect_goes hmark).safely.bind fun _ s₂ h₂ => ?_
  obtain ⟨assembler, scopes, log, hopen, hat⟩ := openMethod_at h₀ hloops hentity hds h₂
  rw [← hparameters] at hopen
  exact ends_bind.mpr (ends_of_ok hopen (hrest assembler scopes log h₂ hat))

/-- A method is read if its parameters lie ahead and its body is read, up to the closing brace. -/
theorem methodRest_goes {x : String} {type : TypeName} {entity : EntityId}
    (h₀ : s.At (σ.header x) o d) (hloops : s.loops = [])
    (hentity : s.scopes.entities[entity]? = some (.method x type.ty [] none))
    (hbudget : s.tokens.length ≤ budget + 1) {ds : List Declarator} {comma : Bool}
    {bodyKinds rest : List Token.Kind} {R : Fragment → List Diagnostic → Prop}
    (hkinds : s.kinds = Declarator.parameterKinds ds comma ++ rest)
    (hds : (σ.header x).Lists 0 ds comma)
    (hbody : YieldsAt (block budget item) true (σ.body type.ty x ds)
      (s.tokens.drop (Declarator.parameterKinds ds comma).length) bodyKinds R) :
    Ends (methodRest budget item entity type.ty x) s (fun _ s' => ∃ f added names, R f added ∧
      s.Goes o (Declarator.parameterKinds ds comma ++ bodyKinds) added s'
        ((σ.past (f.declaration x type.ty ds)).inside names) d
        ((f.declaration x type.ty ds).methods.map Method.draft)) fun _ _ => False := by
  refine methodRest_opens h₀ hloops hentity hbudget hkinds hds fun {s₂} _ _ _ h₂ hat => ?_
  have hyields := hbody hat h₂.goes.passes.tokens
  refine ends_bind.mpr (bracket_ends ((body_goes hyields).imp ?_))
  intro _ s₃ h₃
  obtain ⟨f, added, hf, h₃⟩ := h₃
  exact (h₂.endMethod_goes h₀ h₃).bind fun _ s₄ h₄ => ⟨f, added, _, hf, h₄⟩

end

section

variable {first : Token.Kind → Bool} {item : Production Bool} {budget : Nat}
  (hi : Matches options bound first (fun _ => True) item)
  (hbrace : first (.symbol .rightBrace) = false) (hbudget : bound ≤ budget + 1)
include hi hbrace hbudget

theorem body_accepts (h : s.At σ o d) (hoptions : σ.options = options)
    (hbound : s.tokens.length ≤ bound + 1) : Accepts (body budget item) s fun _ s' =>
      ∃ (items : Items) (f : Fragment), items.closed = true ∧ items.lower? σ = some f ∧
        s.Moves σ o d (Stmt.block items).kinds f (items.warnings (s.tokens.drop 1)) s' := by
  refine ((matches_block hi hbrace hbudget).sound h hoptions hbound).then fun a s₁ h₁ => ?_
  cases a with
  | false =>
    obtain rfl : s₁ = s := h₁
    exact accepts_error (f := pure) h.ready.settled _
  | true =>
    obtain ⟨_, f, ⟨items, rfl⟩, hclosed, hlower, -, h₁⟩ := h₁
    exact accepts_pure ⟨items, f, hclosed, hlower, h₁⟩

variable {x : String} {type : TypeName} {entity : EntityId} (h₀ : s.At (σ.header x) o d)
  (hloops : s.loops = []) (hoptions : σ.options = options)
  (hentity : s.scopes.entities[entity]? = some (.method x type.ty [] none))
include h₀ hloops hoptions hentity

theorem methodRest_accepts (hbound : s.tokens.length ≤ bound) :
    Accepts (methodRest budget item entity type.ty x) s fun _ s' =>
      ∃ (ds : List Declarator) (comma : Bool) (items : Items) (f : Fragment) (names : Names),
        (σ.header x).Lists 0 ds comma ∧ items.closed = true ∧
        items.lower? (σ.body type.ty x ds) = some f ∧
        s.Goes o (Declarator.parameterKinds ds comma ++ (Stmt.block items).kinds)
          (items.warnings (s.tokens.drop ((Declarator.parameterKinds ds comma).length + 1))) s'
          ((σ.past (f.declaration x type.ty ds)).inside names) d
          ((f.declaration x type.ty ds).methods.map Method.draft) := by
  have := hi.onward
  refine (header_accepts h₀ budget).then ?_
  rintro parameters s₁ ⟨ds, comma, hds, hparameters, h₁⟩
  refine h₁.expect_accepts.then fun _ s₂ h₂ => ?_
  obtain ⟨assembler, scopes, log, hopen, hat⟩ := openMethod_at h₀ hloops hentity hds h₂
  rw [← hparameters] at hopen
  refine (ends_of_ok (E := fun _ _ => True) hopen ?_).then fun _ _ h => h
  have hlength₂ := h₂.goes.passes.length_tokens
  have hbound₂ : s₂.tokens.length ≤ bound + 1 := by omega
  refine Accepts.then (bracket_accepts (fun _ => ⟨_, _, _, _, rfl⟩)
    ((body_accepts hi hbrace hbudget hat hoptions hbound₂).mono ?_)) fun _ _ h => h
  rintro _ s₃ ⟨items, f, hclosed, hlower, h₃⟩
  refine (h₂.endMethod_goes (E := fun _ _ => True) h₀ h₃).then fun _ s₄ h₄ => accepts_pure ?_
  have h₄ : s.Goes o _ (items.warnings (s₂.tokens.drop 1)) s₄ _ d _ := h₄
  rw [h₂.goes.passes.tokens, List.drop_drop] at h₄
  exact ⟨ds, comma, items, f, _, hds, hclosed, hlower, h₄⟩

end

/-! ### Declarations -/

/-- The name of a method is declared before its scope is entered, so that it is known in its own
body. -/
theorem declareMethod_goes (h : s.At σ o d) (x : String) (ty : Ty) :
    Ends (scope (.declareMethod x ty)) s (fun entity s₁ =>
      s₁.scopes.entities[entity]? = some (.method x ty [] none) ∧
      s.Goes o [] [] s₁ (σ.declare [(x, .inert)]) d [] ∧
      s₁.At (σ.declare [(x, .inert)]) o d) E := by
  have hput : o.put (σ.declare [(x, .inert)]).method d [] = o := Outline.put_self h.steady.draft
  refine (declare_goes (c := .declareMethod x ty) h.goes
    (run_modifyGet_declare s.scopes (.method x ty [] none)) trivial).imp ?_
  rintro _ s₁ ⟨rfl, hscopes, h₁⟩
  exact ⟨by simp [hscopes], h₁, hput ▸ h₁.here⟩

/-- Behind a method the method around it goes on where it was, with the name of the method
declared. -/
theorem leaveMethod_moves {s₂ : State} {x : String} {ty : Ty} {ds : List Declarator} {f : Fragment}
    {names : Names} {log : Array Event} (h : s.Goes o [] [] s₁ (σ.declare [(x, .inert)]) d [])
    (hat : s₁.At (σ.declare [(x, .inert)]) o d)
    (h' : State.Goes { s₁ with scopes := s₁.scopes.enter, loops := [], log } o ks added s₂
      ((σ.past (f.declaration x ty ds)).inside names) d
      ((f.declaration x ty ds).methods.map Method.draft)) :
    Ends (leaveScope s₁.loops) s₂
      (fun _ s₃ => s.Moves σ o d ks (f.declaration x ty ds) added s₃) E := by
  refine (leaveScope_goes hat h' rfl rfl hat.two_le_length_names).imp fun _ s₃ h₃ => ?_
  have hput : o.put σ.method d [] = o := Outline.put_self hat.steady.draft
  rw [← hput] at h₃
  have h₃ := h.trans h₃ rfl
  -- the declaration adds nothing to the draft of the method around it
  have hextend : d.extend (f.declaration x ty ds) = d := Draft.grow_nil d
  rw [State.Moves, hextend]
  exact h₃

/-- The declaration of a method adds the method to the program, and its name to the innermost
scope. -/
theorem method_goes {item : Production Bool} {budget : Nat} {x : String} {type : TypeName}
    (h : s.At σ o d) (hbudget : s.tokens.length ≤ budget + 1) {ds : List Declarator} {comma : Bool}
    {bodyKinds rest : List Token.Kind} {R : Fragment → List Diagnostic → Prop}
    (hkinds : s.kinds = Declarator.parameterKinds ds comma ++ rest)
    (hfresh : σ.declaredHere x = false) (hwell : Declarator.wellFormed ds comma = true)
    (hbody : YieldsAt (block budget item) true (σ.body type.ty x ds)
      (s.tokens.drop (Declarator.parameterKinds ds comma).length) bodyKinds R) (p : Position) :
    Ends (method budget item type.ty x p) s (fun _ s' => ∃ f added, R f added ∧
      s.Moves σ o d (Declarator.parameterKinds ds comma ++ bodyKinds) (f.declaration x type.ty ds)
        added s') fun _ _ => False := by
  refine ends_bind.mpr (ends_of_ok (checkFresh_eq h hfresh _ _) ?_)
  refine (declareMethod_goes h x type.ty).bind fun entity s₁ h₁ => ?_
  obtain ⟨hentity, h₁, hat⟩ := h₁
  obtain ⟨log, hscope⟩ := inScope_eq (methodRest budget item entity type.ty x) s₁
  have hlength₁ := h₁.passes.length_tokens
  have hbudget₁ : s₁.tokens.length ≤ budget + 1 := by omega
  have htokens : s₁.tokens = s.tokens := h₁.passes.tokens
  rw [← htokens] at hbody
  unfold Ends
  rw [hscope]
  refine Ends.ensuring ((methodRest_goes (enterScope_at hat log) rfl hentity hbudget₁
    (h₁.passes.kinds_eq hkinds) ((σ.lists_header x ds comma).mpr hwell) hbody).mono ?_
    fun _ _ he => he.elim)
  intro _ s₂ h₂
  obtain ⟨f, added, names, hf, h₂⟩ := h₂
  exact (leaveMethod_moves h₁ hat h₂).imp fun _ s₃ h₃ => ⟨f, added, hf, h₃⟩

section

variable {first : Token.Kind → Bool} {item : Production Bool} {budget : Nat}
  (hi : Matches options bound first (fun _ => True) item)
  (hbrace : first (.symbol .rightBrace) = false) (hbudget : bound ≤ budget + 1)
  {x : String} {type : TypeName} (h : s.At σ o d) (hoptions : σ.options = options)
  (hbound : s.tokens.length ≤ bound) (p : Position)
include hi hbrace hbudget h hoptions hbound

theorem method_accepts : Accepts (method budget item type.ty x p) s fun _ s' =>
    ∃ (ds : List Declarator) (comma : Bool) (items : Items) (f : Fragment), items.closed = true ∧
      (Item.method type x ds comma items).lower? σ = some f ∧
      s.Moves σ o d (Declarator.parameterKinds ds comma ++ (Stmt.block items).kinds) f
        (items.warnings (s.tokens.drop ((Declarator.parameterKinds ds comma).length + 1))) s' := by
  have := hi.onward
  refine (checkFresh_accepts h _ _ _).then ?_
  rintro _ _ ⟨hfresh, rfl⟩
  refine (declareMethod_goes (E := fun _ _ => True) h x type.ty).then fun entity s₁ h₁ => ?_
  obtain ⟨hentity, h₁, hat⟩ := h₁
  obtain ⟨log, hscope⟩ := inScope_eq (methodRest budget item entity type.ty x) s₁
  have hlength₁ := h₁.passes.length_tokens
  have hbound₁ : s₁.tokens.length ≤ bound := by omega
  unfold Accepts
  rw [hscope]
  refine Accepts.ensuring (methodRest_accepts hi hbrace hbudget (enterScope_at hat log) rfl hoptions
    hentity hbound₁) ?_
  rintro _ s₂ ⟨ds, comma, items, f, names, hds, hclosed, hlower, h₂⟩
  have h₂ : State.Goes _ _ _ (items.warnings (s₁.tokens.drop _)) _ _ _ _ := h₂
  rw [h₁.passes.tokens] at h₂
  refine (leaveMethod_moves (E := fun _ _ => True) h₁ hat h₂).accepts.mono fun _ s₃ h₃ => ?_
  exact ⟨ds, comma, items, _, hclosed, Item.lower?_method.mpr
    ⟨f, hlower, ⟨hfresh, (σ.lists_header x ds comma).mp hds⟩, rfl⟩, h₃⟩

end

section

variable {item : Production Bool} {budget : Nat} (h : s.At σ o d) {type : TypeName} {x : String}
include h

/-- A declaration begins with a type and a name.  The position of the name is saved for errors about
it. -/
theorem declarationForm_goes {more : List Token.Kind} {Q : State → Prop}
    (hkinds : s.kinds = .keyword type.word :: .identifier x :: more)
    (hrest : ∀ {s₁ : State} {p : Position}, (∃ t ∈ s.tokens.take 2, t.position = p) →
      s.Goes o [.keyword type.word, .identifier x] [] s₁ σ d [] →
      Ends (declarationRest budget item type.ty x p) s₁ (fun _ => Q) E) :
    Ends (declarationForm budget item) s (fun a s' => a = true ∧ Q s') E := by
  refine (accept?_takes h.goes Token.Kind.type? rfl (State.lookahead_of_kinds hkinds)
    type.named).bind ?_
  rintro _ s₁ ⟨rfl, h₁⟩
  have hname := State.lookahead_of_kinds (h₁.passes.kinds_eq hkinds)
  refine Ends.bind (ends_bind.mpr (ends_view.mpr ((accept?_takes h₁ Token.Kind.name? rfl hname
    rfl).bind ?_))) fun _ s₃ h₃ => ⟨rfl, h₃⟩
  rintro _ s₂ ⟨rfl, h₂⟩
  refine hrest ⟨s₁.lookahead, ?_, rfl⟩ h₂
  obtain ⟨t, ts, hts⟩ : ∃ t ts, s.tokens = t :: ts := ⟨_, _, rfl⟩
  have hnext : s₁.tokens = ts := by simpa [hts] using h₁.passes.tokens
  rw [hts, ← hnext]
  exact .tail _ (.head _)

/-- A declaration of a field: no parenthesis follows the name. -/
theorem fieldForm_goes {rest : List Token.Kind} {Q : State → Prop}
    (hkinds : s.kinds = .keyword type.word :: .identifier x :: .symbol .semicolon :: rest)
    (hfield : ∀ {s₁ : State} {p : Position}, (∃ t ∈ s.tokens.take 2, t.position = p) →
      s.Goes o [.keyword type.word, .identifier x] [] s₁ σ d [] →
      Ends (field type.ty x p) s₁ (fun _ => Q) fun _ _ => False) :
    Ends (declarationForm budget item) s (fun a s' => a = true ∧ Q s') fun _ _ => False := by
  refine declarationForm_goes h hkinds fun hp h₁ => ?_
  refine ends_bind.mpr ((accept_goes h₁ (by simp)).imp ?_)
  rintro (_ | _) s₂ ⟨hparen, h₂⟩
  · subst h₂
    exact hfield hp h₁
  · simp [State.lookahead_of_kinds (h₁.passes.kinds_eq hkinds)] at hparen

/-- A declaration of a method: a parenthesis follows the name. -/
theorem methodForm_goes (hbudget : s.tokens.length ≤ budget + 4) {ds : List Declarator}
    {comma : Bool} {bodyKinds rest : List Token.Kind} {R : Fragment → List Diagnostic → Prop}
    (hkinds : s.kinds = .keyword type.word :: .identifier x :: .symbol .leftParen ::
      (Declarator.parameterKinds ds comma ++ rest))
    (hfresh : σ.declaredHere x = false) (hwell : Declarator.wellFormed ds comma = true)
    (hbody : YieldsAt (block budget item) true (σ.body type.ty x ds)
      (s.tokens.drop ((Declarator.parameterKinds ds comma).length + 3)) bodyKinds R) :
    Ends (declarationForm budget item) s (fun a s' => a = true ∧ ∃ f added, R f added ∧
      s.Moves σ o d (.keyword type.word :: .identifier x :: .symbol .leftParen ::
          (Declarator.parameterKinds ds comma ++ bodyKinds))
        (f.declaration x type.ty ds) added s') fun _ _ => False := by
  refine declarationForm_goes h hkinds fun _ h₁ => ?_
  refine (accept_takes h₁ (by simp) (State.lookahead_of_kinds (h₁.passes.kinds_eq hkinds))).bind ?_
  rintro _ s₂ ⟨rfl, h₂⟩
  have hlength₂ := h₂.passes.length_tokens
  simp only [List.length_append, List.length_cons, List.length_nil] at hlength₂
  have hbody' : YieldsAt (block budget item) true (σ.body type.ty x ds)
      (s₂.tokens.drop (Declarator.parameterKinds ds comma).length) bodyKinds R := by
    rw [drop_tokens h₂]
    exact hbody
  refine (method_goes h₂.here (by omega) (h₂.passes.kinds_eq hkinds) hfresh hwell hbody' _).imp ?_
  intro _ s₃ h₃
  obtain ⟨f, added, hf, h₃⟩ := h₃
  exact ⟨f, added, hf, h₂.trans h₃ rfl⟩

end

section

variable {first : Token.Kind → Bool} {item : Production Bool} {budget : Nat}
  (hi : Matches options bound first (fun _ => True) item)
  (hbrace : first (.symbol .rightBrace) = false) (hbudget : bound ≤ budget + 1)
include hi hbrace hbudget

theorem declarationRest_accepts {type : TypeName} {x : String}
    (h : s.Goes o [.keyword type.word, .identifier x] [] s₁ σ d []) (hoptions : σ.options = options)
    (hbound : s₁.tokens.length ≤ bound) (p : Position) :
    Accepts (declarationRest budget item type.ty x p) s₁ fun _ s' =>
      ∃ (i : Item) (f : Fragment), ¬ i.IsStatement ∧ i.closed = true ∧ i.lower? σ = some f ∧
        i.goesOn s'.lookahead.kind = false ∧ s.Moves σ o d i.kinds f (i.warnings s.tokens) s' := by
  refine (accept_goes (E := fun _ _ => True) h (by simp)).then ?_
  rintro (_ | _) s₂ ⟨-, h₂⟩
  · -- without a parenthesis it is a field
    subst h₂
    refine (field_accepts h type x p).mono ?_
    rintro _ s₃ ⟨f, hlower, h₃⟩
    exact ⟨.field type x, f, by simp [Item.IsStatement], rfl, hlower, rfl, h₃⟩
  · -- with one it is a method, whose tokens are counted from its type on
    have hlength₁ := h.passes.length_tokens
    have hlength₂ := h₂.passes.length_tokens
    simp only [List.length_append, List.length_cons, List.length_nil] at hlength₁ hlength₂
    refine (method_accepts hi hbrace hbudget h₂.here hoptions (by omega) p).mono ?_
    rintro _ s₃ ⟨ds, comma, items, f, hclosed, hlower, h₃⟩
    have h₃ := h₂.trans h₃ rfl
    rw [h₂.passes.tokens, List.drop_drop] at h₃
    have h₃ : s.Goes o _ (items.warnings (s.tokens.drop (3 + _))) s₃ (σ.past f) _ _ := h₃
    rw [Declarator.length_headerKinds type x] at h₃
    refine ⟨.method type x ds comma items, f, by simp [Item.IsStatement], hclosed, hlower, rfl, ?_⟩
    simpa [Item.kinds, Stmt.kinds, Item.warnings, Declarator.headerKinds_eq] using h₃.behind

/-- Declarations are read if items are: the body of a method is a block of items, with fewer
tokens. -/
theorem matches_declarationForm : Matches options (bound + 1) Token.Kind.beginsDecl
    (fun i => ¬ i.IsStatement) (declarationForm budget item) where
  onward := onward_fine.declarationForm hi.onward budget
  begins hitem := Item.kinds_eq_cons_of_declaration hitem
  refuses {s} hsettled hlook := by
    have hnone : s.current?.bind Token.Kind.type? = none := by
      simpa [State.current?, hsettled, Token.Kind.beginsDecl] using hlook
    have haccept : type? s = .ok none s :=
      eq_ok_of_ends (ends_accept? (fun ty hty => absurd (hnone.symm.trans hty) (by simp))
        fun _ => ⟨rfl, rfl⟩)
    exact bind_eq_ok.mpr ⟨none, s, haccept, rfl⟩
  complete {s σ o d} h hoptions hbound {i k rest f} hitem hkinds hk hclosed hlower := by
    cases i with
    | field type x =>
      exact fieldForm_goes h hkinds fun _ h₁ =>
        field_moves h₁ (h₁.passes.kinds_eq hkinds) hlower _
    | method type x ds comma items =>
      obtain ⟨g, hg, ⟨hfresh, hwell⟩, rfl⟩ := Item.lower?_method.mp hlower
      have hkinds : s.kinds = .keyword type.word :: .identifier x :: .symbol .leftParen ::
          (Declarator.parameterKinds ds comma ++ ((Stmt.block items).kinds ++ k :: rest)) := by
        simpa [Item.kinds, Stmt.kinds, Declarator.headerKinds_eq] using hkinds
      have hlength : (s.tokens.drop ((Declarator.parameterKinds ds comma).length + 3)).length ≤
          bound + 1 := by
        rw [List.length_drop]
        omega
      have hblock : ∃ items', Item.statement (.block items) = .statement (.block items') :=
        ⟨items, rfl⟩
      have hbody := (matches_block hi hbrace hbudget).yieldsAt hlength hblock
        (kinds_drop (.keyword type.word :: .identifier x :: .symbol .leftParen ::
          Declarator.parameterKinds ds comma) hkinds)
        rfl hclosed (σ := σ.body type.ty x ds) hoptions hg
      refine (methodForm_goes h (by omega) hkinds hfresh hwell hbody).imp ?_
      rintro a s₁ ⟨ha, _, _, ⟨rfl, rfl⟩, h₁⟩
      have hdrop : (Declarator.parameterKinds ds comma).length + 3 + 1 =
          (Declarator.headerKinds type x ds comma).length := by
        rw [← Declarator.length_headerKinds, Nat.add_comm 3, Nat.add_right_comm]
      simp only [Item.warnings, Stmt.warnings, List.drop_drop, hdrop] at h₁
      exact ⟨ha,
        by simpa [Item.kinds, Stmt.kinds, Item.warnings, Declarator.headerKinds_eq] using h₁⟩
    | statement t => exact absurd ⟨t, rfl⟩ hitem
  sound {s σ o d} h hoptions hbound := by
    have := hi.onward
    refine (accept?_goes (E := fun _ _ => True) h.goes Token.Kind.type? rfl).then ?_
    rintro (_ | ty) s₁ ⟨htype, h₁⟩
    · exact accepts_pure h₁
    · obtain ⟨type, hword, rfl⟩ := Token.Kind.type?_eq_some htype
      rw [hword] at h₁
      refine Accepts.then (accepts_view ((accept?_goes (E := fun _ _ => True) h₁ Token.Kind.name?
        rfl).then ?_)) fun _ s₃ h₃ => accepts_pure h₃
      rintro (_ | x) s₂ ⟨hname, h₂⟩
      · rw [h₂]
        exact accepts_error (f := pure) h₁.here.ready.settled _
      · rw [Token.Kind.name?_eq_some hname] at h₂
        have hlength₂ := h₂.passes.length_tokens
        simp only [List.nil_append, List.length_append, List.length_cons,
          List.length_nil] at hlength₂
        exact declarationRest_accepts hi hbrace hbudget h₂ hoptions (by omega) _

end

/-! ### Items -/

/-- Items are read if declarations and statements are.  The two begin with different tokens. -/
theorem matches_itemOf {declaration statement : Production Bool}
    (hd : Matches options bound Token.Kind.beginsDecl (fun i => ¬ i.IsStatement) declaration)
    (hs : Matches options bound Token.Kind.beginsStmt Item.IsStatement statement) :
    Matches options bound Token.Kind.beginsItem (fun _ => True) (itemOf declaration statement) := by
  have hstatement := hs.firstOf_cons (.firstOf_nil options bound) (by simp)
  have hforms := hd.firstOf_cons hstatement fun k hk =>
    Token.Kind.beginsDecl_of_beginsStmt (by simpa using hk)
  refine (hforms.of_iff ?_ ?_ ?_).congr
    ((onward_fine.grammar options).itemOf hd.onward hs.onward) ?_
  · intro k hk
    simpa [Token.Kind.beginsItem] using hk
  · exact fun item _ => item.kinds_eq_cons_of_item
  · intro item _ _ _ _
    by_cases h : item.IsStatement <;> simp [h]
  · -- where no error is recovered from, settling changes nothing
    rintro s hsettled
    have hsame : { s with recovering := false } = s := by rw [← hsettled]
    show firstOf [declaration, statement] { s with recovering := false } = _
    rw [hsame]

/-- Declarations and statements are read if there are not more tokens than the budget.  The two are
proved together, as each contains the other. -/
theorem matches_declaration_and_statement (options : Options) (budget : Nat) :
    Matches options budget Token.Kind.beginsDecl (fun i => ¬ i.IsStatement)
        (declaration options budget) ∧
      Matches options budget Token.Kind.beginsStmt Item.IsStatement (statement options budget) := by
  induction budget with
  | zero =>
    simp only [declaration, statement]
    exact ⟨.zero Item.kinds_eq_cons_of_declaration,
      .zero fun hitem => by obtain ⟨t, rfl⟩ := hitem; exact t.kinds_eq_cons⟩
  | succ budget ih =>
    have hitem := matches_itemOf ih.1 ih.2
    simp only [declaration, statement]
    exact ⟨matches_declarationForm hitem rfl (Nat.le_succ budget),
      matches_statementForms (reads_expression options (budget + 1)) ih.2 hitem rfl
        (Nat.le_succ budget)⟩

/-- Whatever is read as an item is meant as one, and whatever is meant as one is read, with the code
and the reports that it is meant to have. -/
theorem matches_item (options : Options) (budget : Nat) :
    Matches options budget Token.Kind.beginsItem (fun _ => True) (item options budget) :=
  matches_itemOf (matches_declaration_and_statement options budget).1
    (matches_declaration_and_statement options budget).2

end Production

end OnePass
