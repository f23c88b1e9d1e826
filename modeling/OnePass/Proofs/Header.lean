import OnePass.Proofs.Outline
import OnePass.Proofs.Progress
import OnePass.Proofs.Scoping

/-!
# Method headers

The parameters of a method are declared while its header is read, and get their slots
once all of them are known and the method is in the program.

## Main definitions

* `Production.Formal.list` — parameters with consecutive numbers.
* `Production.LongHeader` — some tokens contain a header with too many parameters.

## Main results

* `Production.formals_ends` — **what is declared while the parameters are read**, errors or
  not, and that only a header that is too long stops the pass there.
* `Production.openMethod_eq` — the method is opened, and its parameters get their slots.
-/

namespace OnePass

namespace Production

/-! ### Calls -/

/-- A request to the assembler that is granted only changes the assembler and the log. -/
theorem assemble_ok {c : Assembler.Call} {s : State} {x : c.Answer} {a : Assembler}
    (h : c.run s.assembler = .ok x a) :
    ∃ log, assemble c s = .ok x { s with assembler := a, log } := by
  obtain ⟨log, hlog⟩ := Assembler.Call.perform_ok h s.log
  exact ⟨log, by rw [assemble_apply, hlog]⟩

/-- A change of the scopes that is made leaves all else as it was, save for the log. -/
theorem scope_ok {c : Scopes.Call} {s : State} {x : c.Answer} {scopes : Scopes}
    (h : c.run s.scopes = .ok x scopes) :
    ∃ log, scope c s = .ok x { s with scopes, log } := by
  refine ⟨s.log.appendList (c.events scopes.depth), ?_⟩
  rw [scope_apply]
  simp only [Scopes.Call.perform, bind, EStateM.bind, Logged.silently, Logged.record, h]
  rfl

/-- A declaration is a change of the scopes that is always made, and answers the next number. -/
theorem run_modifyGet_declare (s : Scopes) (entity : Entity) :
    (modifyGet (Scopes.declare entity) : EStateM Fault Scopes EntityId) s =
      .ok s.entities.size (s.declare entity).2 := by
  show EStateM.Result.ok (s.declare entity).1 (s.declare entity).2 = _
  rw [s.declare_eq entity]

/-! ### Reading the parameters -/

/-- Parameters with consecutive numbers, as entities and as parameters. -/
def Formal.list : (id : EntityId) → (ordinal : Nat) → List (String × Ty) → List Formal
  | _, _, [] => []
  | id, ordinal, (x, ty) :: rest => ⟨id, x, ty, ordinal⟩ :: Formal.list (id + 1) (ordinal + 1) rest

theorem Formal.map_ty_list (id : EntityId) (ordinal : Nat) (parameters : List (String × Ty)) :
    (Formal.list id ordinal parameters).map Formal.ty = parameters.map Prod.snd := by
  induction parameters generalizing id ordinal with
  | nil => rfl
  | cons p parameters ih => simp [Formal.list, ih]

/-- Among some tokens there is the header of a method with more parameters than a method
can have. -/
def LongHeader (kinds : List Token.Kind) : Prop :=
  ∃ (type : TypeName) (name : String) (parameters : List Declarator),
    Method.maxParameters < parameters.length ∧ (∀ d ∈ parameters, d.type.ty ≠ .void) ∧
    [.keyword type.word, .identifier name, .symbol .leftParen] ++ Declarator.listKinds parameters
      <:+: kinds

/-- A name that is declared twice is reported, and nothing else happens. -/
theorem checkFresh_ends {s : State} {E : Halt → State → Prop} (kind : DeclarationKind)
    (name : String) (p : Position) :
    Ends (checkFresh kind name p) s
      (fun _ s' => s' = s ∨ s.Same s' ∧ s'.recovering = true) E := by
  unfold checkFresh check
  refine ends_bind.mpr (ends_view.mpr ?_)
  split
  · exact .inl rfl
  · exact .inr ⟨.errorAt s _ _, State.recovering_errorAt s _ _⟩

section

variable {s : State} (hend : s.kinds.getLast? = some .endOfInput)
include hend

/-- One parameter, errors or not.  Only if it is one too many, the pass stops. -/
theorem formal_ends (ordinal : Nat) :
    Ends (formal ordinal) s
      (fun r s' => match r with
        | none => s.Same s'
        | some parameter => ∃ d : Declarator, d.type.ty ≠ .void ∧
          ordinal ≤ Method.maxParameters ∧
          parameter = ⟨s.scopes.entities.size, d.name, d.type.ty, ordinal⟩ ∧
          s.Same { s' with scopes := s.scopes } ∧
          s'.scopes = (s.scopes.declare (.parameter d.name d.type.ty ordinal none)).2 ∧
          s.recovering = false ∧ (s'.recovering = false → s.kinds = d.kinds ++ s'.kinds))
      (fun h _ => h = .broken .tooManyParameters ∧ s.recovering = false ∧
        Method.maxParameters < ordinal ∧
          ∃ d : Declarator, d.type.ty ≠ .void ∧ d.kinds <+: s.kinds) := by
  unfold formal
  refine ends_bind.mpr (ends_accept? ?_ fun _ => .refl s)
  -- the first token is the keyword of a type, or there is no parameter
  intro ty hty
  obtain ⟨k, hk, hty⟩ := Option.bind_eq_some_iff.mp hty
  obtain ⟨hsettled, rfl⟩ := State.current?_eq_some.mp hk
  obtain ⟨type, htype, rfl⟩ := Token.Kind.type?_eq_some hty
  have hkinds := State.kinds_advance hend (by simp [htype])
  have hsame := State.Same.advance s
  have hend₁ := (State.Leads.advance s).getLast?_kinds.trans hend
  generalize s.advance = s₁ at hkinds hsame hend₁
  unfold formalOf
  refine ends_bind.mpr (ends_view.mpr (ends_bind.mpr (ends_accept? ?_ ?_)))
  · intro name hname
    obtain ⟨k, hk, hname⟩ := Option.bind_eq_some_iff.mp hname
    obtain ⟨hrecovering, rfl⟩ := State.current?_eq_some.mp hk
    have hident := Token.Kind.name?_eq_some hname
    let d : Declarator := ⟨type, name⟩
    have hkinds₂ : s.kinds = d.kinds ++ s₁.advance.kinds := by
      rw [hkinds, State.kinds_advance hend₁ (by simp [hident]), htype, hident]
      rfl
    have hsame₂ := hsame.trans (State.Same.advance s₁)
    generalize s₁.advance = s₂ at hkinds₂ hsame₂
    -- a parameter without a value is reported, and not declared
    simp only []
    split
    · exact hsame₂.trans (.errorAt _ _ _)
    · next hvoid =>
      -- a name that is taken is reported, and the parameter is declared all the same
      refine ends_bind.mpr ((checkFresh_ends _ _ _).mono (fun _ s₃ hfresh => ?_) fun _ _ h => h)
      have hsame₃ : s.Same s₃ := by
        rcases hfresh with rfl | hfresh
        · exact hsame₂
        · exact hsame₂.trans hfresh.1
      have hkinds₃ : s₃.recovering = false → s.kinds = d.kinds ++ s₃.kinds := by
        intro hr
        rcases hfresh with rfl | hfresh
        · exact hkinds₂
        · simp [hfresh.2] at hr
      unfold declareFormal
      split
      · next hmax =>
        obtain ⟨log, hscope⟩ := scope_ok (c := .declareParameter name type.ty ordinal)
          (run_modifyGet_declare s₃.scopes (.parameter name type.ty ordinal none))
        refine ends_bind.mpr (ends_bind.mpr (ends_of_ok hscope ?_))
        rw [hsame₃.scopes]
        exact ⟨d, hvoid, hmax, rfl, ⟨hsame₃.assembler, rfl, hsame₃.methods, hsame₃.loops⟩, rfl,
          hsettled, hkinds₃⟩
      · next hmax => exact ⟨rfl, hsettled, by omega, d, hvoid, ⟨_, hkinds₂.symm⟩⟩
  · intro _
    exact hsame.trans (.errorAt _ _ _)

/-- **What is declared while the parameters are read**, errors or not: parameters with
consecutive numbers.  Only a header that is too long stops the pass. -/
theorem formals_ends {budget : Nat} {done : Array Formal}
    (hdone : done.size ≤ Method.maxParameters) :
    Ends (formals budget done) s
      (fun r s' => ∃ parameters : List (String × Ty),
        (∀ p ∈ parameters, p.2 ≠ .void ∧ p.2 ≠ .unknown) ∧
        r.toList = done.toList ++ Formal.list s.scopes.entities.size (done.size + 1) parameters ∧
        s.Same { s' with scopes := s.scopes } ∧
        s'.scopes = s.scopes.declareFormals (fun _ => none) (done.size + 1) parameters)
      (fun h _ => h = .broken .tooManyParameters ∧ s.recovering = false ∧
        ∃ ds : List Declarator, ds ≠ [] ∧ done.size + ds.length = Method.maxParameters + 1 ∧
          (∀ d ∈ ds, d.type.ty ≠ .void) ∧ Declarator.listKinds ds <+: s.kinds) := by
  induction budget generalizing done s with
  | zero => exact ⟨[], by simp, by simp [Formal.list], ⟨rfl, rfl, rfl, rfl⟩, rfl⟩
  | succ budget ih =>
    unfold formals
    refine ends_bind.mpr ((formal_ends hend _).mono (fun r s₁ h => ?_) fun e s₁ h => ?_)
    · cases r with
      | none =>
        exact ⟨[], by simp, by simp [Formal.list], ⟨h.assembler, rfl, h.methods, h.loops⟩, h.scopes⟩
      | some parameter =>
        obtain ⟨d, hvoid, hmax, rfl, hsame, hscopes, hsettled, hkinds⟩ := h
        refine ends_bind.mpr (ends_accept (fun hcomma => ?_) fun _ => ?_)
        · -- the header goes on, so no error has been met so far
          obtain ⟨hrecovering, hcomma⟩ := State.current?_eq_some.mp hcomma
          have hkinds := hkinds hrecovering
          have hend₁ : s₁.kinds.getLast? = some .endOfInput :=
            (State.getLast?_kinds_of_suffix ⟨_, hkinds.symm⟩).trans hend
          rw [State.kinds_advance hend₁ (by simp [hcomma]), hcomma] at hkinds
          have hend₂ := (State.Leads.advance s₁).getLast?_kinds.trans hend₁
          have hsame₂ := State.Same.advance s₁
          generalize s₁.advance = s₂ at hkinds hend₂ hsame₂
          refine (ih hend₂ (by rw [Array.size_push]; omega)).mono ?_ ?_
          · -- the header goes on well: this parameter comes first
            rintro r s' ⟨parameters, hvalued, hr, hsame', hscopes'⟩
            refine ⟨(d.name, d.type.ty) :: parameters, ?_, ?_, ?_, ?_⟩
            · exact List.forall_mem_cons.mpr ⟨⟨hvoid, d.type.ty_ne_unknown⟩, hvalued⟩
            · rw [hr, hsame₂.scopes, hscopes]
              simp [Formal.list]
            · exact ⟨(hsame'.assembler.trans hsame₂.assembler).trans hsame.assembler, rfl,
                (hsame'.methods.trans hsame₂.methods).trans hsame.methods,
                (hsame'.loops.trans hsame₂.loops).trans hsame.loops⟩
            · rw [hscopes', hsame₂.scopes, hscopes, Array.size_push]
              rfl
          · -- the header goes on to be too long: this parameter counts as well
            rintro e s' ⟨he, -, ds, hne, hlength, hds, hlist⟩
            refine ⟨he, hsettled, d :: ds, by simp, ?_, List.forall_mem_cons.mpr ⟨hvoid, hds⟩, ?_⟩
            · rw [Array.size_push] at hlength
              simp only [List.length_cons]
              omega
            · rw [Declarator.listKinds_cons d hne, hkinds]
              exact (List.prefix_append_right_inj _).mpr (List.cons_prefix_cons.mpr ⟨rfl, hlist⟩)
        · refine ⟨[(d.name, d.type.ty)], ?_, by simp [Formal.list], hsame, hscopes⟩
          simpa using ⟨hvoid, d.type.ty_ne_unknown⟩
    · obtain ⟨he, hsettled, hmax, d, hvoid, hkinds⟩ := h
      exact ⟨he, hsettled, [d], by simp, by simp only [List.length_singleton]; omega,
        by simpa using hvoid, hkinds⟩

end

/-! ### Opening the method -/

/-- The parameters of a method in the program get their names, and those in the scopes
their slots. -/
theorem attachFormals_eq {title : String} {opened : List MethodId} {method : MethodId}
    (parameters : List (String × Ty)) (done : List Parameter) (scopes : Scopes) (s : State)
    {drafts : List Draft} {d : Draft} (hshows : s.assembler.Shows ⟨title, drafts, opened⟩)
    (hd : drafts[method]? = some d)
    (hparameters : d.parameters = done ++ parameters.map (fun p => ⟨p.2, none⟩))
    (hscopes : s.scopes = scopes.declareFormals (fun _ => none) (done.length + 1) parameters) :
    ∃ assembler log,
      attachFormals method (Formal.list scopes.entities.size (done.length + 1) parameters) s =
        .ok () { s with
          assembler
          scopes := scopes.declareFormals (fun k => some ⟨method, k⟩) (done.length + 1) parameters
          log } ∧
      assembler.Shows ⟨title, drafts.set method
        { d with parameters := done ++ parameters.map fun p => ⟨p.2, some p.1⟩ }, opened⟩ := by
  induction parameters generalizing done scopes s drafts d with
  | nil =>
    have hscopes : s.scopes = scopes := hscopes
    subst hscopes
    refine ⟨s.assembler, s.log, rfl, ?_⟩
    have hsame :
        { d with parameters := done ++ [].map fun p : String × Ty => ⟨p.2, some p.1⟩ } = d := by
      rw [List.map_nil] at hparameters ⊢
      rw [← hparameters]
    rwa [hsame, set_of_getElem? hd]
  | cons p parameters ih =>
    have htype : d.parameters[done.length]?.map (·.type) = some p.2 := by simp [hparameters]
    obtain ⟨a₁, ha₁, hshows₁⟩ := Assembler.Call.declareParameter_shows hshows hd p.1 htype
    obtain ⟨log₁, hassemble⟩ := assemble_ok ha₁
    have hattach := scopes.attachParameter_declareFormals p.1 p.2 (done.length + 1) parameters
      ⟨method, done.length + 1⟩
    obtain ⟨log₂, hscope⟩ := scope_ok (s := { s with assembler := a₁, log := log₁ })
      (c := .attachParameter scopes.entities.size ⟨method, done.length + 1⟩)
      ((congrArg _ hscopes).trans hattach)
    -- the first parameter is done; the rest follow it
    let d₁ := d.nameParameter p.1 done.length p.2
    have hlt := (List.getElem?_eq_some_iff.mp hd).1
    have hd₁ : (drafts.set method d₁)[method]? = some d₁ := by simp [hlt]
    have hparameters₁ :
        d₁.parameters = done ++ [⟨p.2, some p.1⟩] ++ parameters.map (fun p => ⟨p.2, none⟩) := by
      simp [d₁, Draft.nameParameter, hparameters]
    obtain ⟨a₂, log₃, hrest, hshows₂⟩ := ih (done ++ [⟨p.2, some p.1⟩])
      (scopes.declare (.parameter p.1 p.2 (done.length + 1) (some ⟨method, done.length + 1⟩))).2
      { s with assembler := a₁, scopes := _, log := log₂ } hshows₁ hd₁ hparameters₁
      (by rw [List.length_append])
    refine ⟨a₂, log₃, ?_, ?_⟩
    · refine bind_eq_ok.mpr ⟨(), _, bind_eq_ok.mpr ⟨_, _, hassemble, hscope⟩, ?_⟩
      simp only [Scopes.entities_declare, Array.size_push, List.length_append,
        List.length_singleton] at hrest
      exact hrest
    · simpa [d₁, Draft.nameParameter] using hshows₂

/-- The method is in the program, with named parameters, and its parameters have their slots.
Nothing else has changed, and the names of its scope are those of its parameters. -/
theorem openMethod_eq {title : String} {drafts : List Draft} {opened : List MethodId}
    {scopes : Scopes} {s : State} {parameters : List (String × Ty)} {entity : EntityId}
    {name : String} {returnType : Ty}
    (hshows : s.assembler.Shows ⟨title, drafts, opened⟩) (hsound : scopes.Sound)
    (hvalued : ∀ p ∈ parameters, p.2 ≠ .void ∧ p.2 ≠ .unknown)
    (hentity : scopes.entities[entity]? = some (.method name returnType [] none))
    (hscopes : s.scopes = scopes.declareFormals (fun _ => none) 1 parameters) :
    ∃ assembler scopes' log,
      openMethod entity returnType name (Formal.list scopes.entities.size 1 parameters) s =
        .ok drafts.length { s with assembler, scopes := scopes', log } ∧
      assembler.Shows
        ⟨title, drafts ++ [.headed name returnType parameters], drafts.length :: opened⟩ ∧
      scopes'.Sound ∧ scopes'.nested.length = scopes.nested.length ∧
      scopes'.names = scopes.names.modifyHead
        (·.declareAll (Scopes.formalBindings (fun k => some ⟨drafts.length, k⟩) 1 parameters)) := by
  -- first the method itself, then its parameters one by one, and last the number of the method
  obtain ⟨a₁, ha₁, hshows₁⟩ := Assembler.Call.declareMethod_shows hshows name returnType
    (parameters.map Prod.snd)
  obtain ⟨log₁, hassemble⟩ := assemble_ok ha₁
  let d : Draft := .new name returnType (parameters.map Prod.snd)
  have hd : (drafts ++ [d])[drafts.length]? = some d := by simp
  obtain ⟨a₂, log₂, hattach, hshows₂⟩ := attachFormals_eq parameters [] scopes
    { s with assembler := a₁, log := log₁ } hshows₁ hd (by simp [d, Draft.new]) hscopes
  obtain ⟨hsound', hnames'⟩ := hsound.declareFormals (fun k => some ⟨drafts.length, k⟩) 1 hvalued
  have hentity' := Scopes.getElem?_declareFormals (fun k => some ⟨drafts.length, k⟩) 1 parameters
    hentity
  obtain ⟨scopes', hscopes', hnested, hsound'', hnames''⟩ := Scopes.attachMethod_eq_ok hsound'
    hentity' drafts.length ((Formal.list scopes.entities.size 1 parameters).map Formal.id)
  obtain ⟨log₃, hscope⟩ := scope_ok (c := .attachMethod entity drafts.length
    ((Formal.list scopes.entities.size 1 parameters).map Formal.id))
    (s := { s with assembler := a₂, scopes := _, log := log₂ }) hscopes'
  refine ⟨a₂, scopes', log₃, ?_, ?_, hsound'', ?_, hnames''.trans hnames'⟩
  · unfold openMethod
    rw [Formal.map_ty_list]
    exact bind_eq_ok.mpr ⟨_, _, hassemble, bind_eq_ok.mpr ⟨_, _, hattach,
      bind_eq_ok.mpr ⟨_, _, hscope, rfl⟩⟩⟩
  · have hset : (drafts ++ [d]).set drafts.length { d with
        parameters := [] ++ parameters.map fun p => ⟨p.2, some p.1⟩ } =
        drafts ++ [.headed name returnType parameters] := by
      simp [d, Draft.new, Draft.headed]
    rwa [hset] at hshows₂
  · rw [hnested, Scopes.length_nested_declareFormals]

end Production

end OnePass
