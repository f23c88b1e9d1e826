import Mathlib.Data.List.Forall2
import OnePass.Proofs.Patching
import OnePass.Proofs.Progress

/-!
# Layout does not matter

What a pass does depends on what the tokens and the scan errors of its source are, and not
on where they stand.  Positions are saved and reported, but nothing is decided by them: from
states that agree in all but positions, a production makes the same steps and leaves such
states again.

## Main definitions

* `Diagnostic.kind`, `Halt.cause`, `Reading.kind` — reports, reasons to end a pass and
  readings without their positions.
* `State.Alike` — two states agree in all but positions and the log.
* `Production.Lockstep` — two productions do the same from states alike.

## Main results

* `State.Alike.errorAt`, `State.Alike.skipUnexpected` — recovery does not look at positions.
* `Production.Lockstep.expression`, `Production.Lockstep.item` — **no production looks at a
  position**.
* `parse_of_same_readings` — **sources with the same readings are compiled in the same way**.
-/

namespace OnePass

/-! ### What is left without positions -/

/-- What a report says, apart from where it points. -/
inductive Diagnostic.Kind
  | scan (fault : ScanFault)
  | parse (error : ParseError)
  | warning (warning : Warning)
  deriving DecidableEq, Repr

/-- What a report says. -/
def Diagnostic.kind : Diagnostic → Diagnostic.Kind
  | .scan error => .scan error.fault
  | .parse _ error => .parse error
  | .warning _ w => .warning w

/-- Whether a report with this to say is an error, or only a warning. -/
def Diagnostic.Kind.isError : Diagnostic.Kind → Bool
  | .scan _ => true
  | .parse _ => true
  | .warning _ => false

/-- The severity of a report does not depend on its position. -/
theorem Diagnostic.isError_kind (d : Diagnostic) : d.kind.isError = d.isError := by
  cases d <;> rfl

/-- What ended a pass, apart from where it was. -/
def Halt.cause : Halt → Stray ⊕ Fault
  | .fatal error => .inl error.stray
  | .broken fault => .inr fault

/-- What a reading is, apart from where it stands. -/
def Reading.kind : Reading → Except ScanFault Token.Kind
  | .ok token => .ok token.kind
  | .error e => .error e.fault

/-- What a lexeme is, apart from where it stands: the faults before its token, and the token. -/
def Lexeme.shape (l : Lexeme) : List ScanFault × Token.Kind :=
  (l.errors.map ScanError.fault, l.token.kind)

/-- Readings alike are grouped alike, as they are grouped by whether they are errors. -/
theorem Lexeme.map_shape_groupOnto {readings readings' : List Reading}
    {errors errors' : List ScanError} {done done' : List Lexeme}
    (h : readings.map Reading.kind = readings'.map Reading.kind)
    (herrors : errors.map ScanError.fault = errors'.map ScanError.fault)
    (hdone : done.map shape = done'.map shape) :
    (groupOnto errors done readings).map shape = (groupOnto errors' done' readings').map shape := by
  induction readings generalizing readings' errors errors' done done' with
  | nil =>
    obtain rfl := List.map_eq_nil_iff.mp h.symm
    rw [groupOnto, groupOnto, List.map_reverse, List.map_reverse, hdone]
  | cons reading rest ih =>
    obtain ⟨reading', rest', rfl, hreading, hrest⟩ := List.map_eq_cons_iff.mp h.symm
    cases reading with
    | error e =>
      cases reading' with
      | ok token => cases hreading
      | error e' =>
        have hfault : e'.fault = e.fault := Except.error.inj hreading
        rw [groupOnto, groupOnto]
        exact ih hrest.symm (by rw [List.map_cons, List.map_cons, herrors, hfault]) hdone
    | ok token =>
      cases reading' with
      | error e' => cases hreading
      | ok token' =>
        have hkind : token'.kind = token.kind := Except.ok.inj hreading
        rw [groupOnto, groupOnto]
        refine ih hrest.symm rfl ?_
        rw [List.map_cons, List.map_cons, hdone]
        simp only [shape, List.map_reverse, herrors, hkind]

/-! ### States -/

namespace State

/-- The states agree in all but positions and the log.  The log has positions in it and is not
looked at by any production. -/
structure Alike (s t : State) : Prop where
  lookahead : s.lookahead.kind = t.lookahead.kind
  rest : s.rest.map Lexeme.shape = t.rest.map Lexeme.shape
  scopes : s.scopes = t.scopes
  assembler : s.assembler = t.assembler
  reports : s.reports.map Diagnostic.kind = t.reports.map Diagnostic.kind
  loops : s.loops = t.loops
  methods : s.methods = t.methods
  recovering : s.recovering = t.recovering

namespace Alike

variable {s t : State} (h : s.Alike t)
include h

/-- The current token is the same, if there is one at all. -/
theorem current? : s.current? = t.current? := by
  rw [State.current?, State.current?, h.recovering, h.lookahead]

theorem atEnd : s.atEnd = t.atEnd := by rw [State.atEnd, State.atEnd, h.lookahead]

theorem withLog (log log' : Array Event) :
    State.Alike { s with log := log } { t with log := log' } :=
  ⟨h.lookahead, h.rest, h.scopes, h.assembler, h.reports, h.loops, h.methods, h.recovering⟩

theorem withAssembler (a : Assembler) (log log' : Array Event) :
    State.Alike { s with assembler := a, log := log } { t with assembler := a, log := log' } :=
  ⟨h.lookahead, h.rest, h.scopes, rfl, h.reports, h.loops, h.methods, h.recovering⟩

theorem withScopes (scopes : Scopes) (log log' : Array Event) :
    State.Alike { s with scopes := scopes, log := log } { t with scopes := scopes, log := log' } :=
  ⟨h.lookahead, h.rest, rfl, h.assembler, h.reports, h.loops, h.methods, h.recovering⟩

theorem withLoops {loops loops' : List Loop} (hloops : loops = loops') :
    State.Alike { s with loops := loops } { t with loops := loops' } :=
  ⟨h.lookahead, h.rest, h.scopes, h.assembler, h.reports, hloops, h.methods, h.recovering⟩

theorem withMethods {methods methods' : List MethodId} (hmethods : methods = methods') :
    State.Alike { s with methods := methods } { t with methods := methods' } :=
  ⟨h.lookahead, h.rest, h.scopes, h.assembler, h.reports, h.loops, hmethods, h.recovering⟩

/-- Reports that say the same leave states alike, wherever they point. -/
theorem report {d d' : Diagnostic} (hd : d.kind = d'.kind) : (s.report d).Alike (t.report d') := by
  refine ⟨h.lookahead, h.rest, h.scopes, h.assembler, ?_, h.loops, h.methods, h.recovering⟩
  simp [h.reports, hd]

/-- Looking at the next lexeme reports the scan errors before its token. -/
theorem lookAt {l l' : Lexeme} {rest rest' : List Lexeme} (hl : l.shape = l'.shape)
    (hrest : rest.map Lexeme.shape = rest'.map Lexeme.shape) :
    (s.lookAt l rest).Alike (t.lookAt l' rest') := by
  obtain ⟨herrors, hkind⟩ := Prod.mk.inj hl
  have hs := Same.lookAt s l rest
  have ht := Same.lookAt t l' rest'
  refine ⟨hkind, hrest, ?_, ?_, ?_, ?_, ?_, ?_⟩
  · rw [hs.scopes, ht.scopes, h.scopes]
  · rw [hs.assembler, ht.assembler, h.assembler]
  · have hfaults (errors : List ScanError) : (errors.map Diagnostic.scan).map Diagnostic.kind =
        (errors.map ScanError.fault).map .scan := by simp [Function.comp_def, Diagnostic.kind]
    rw [reports_lookAt, reports_lookAt, List.map_append, List.map_append, h.reports, hfaults,
      hfaults, herrors]
  · rw [hs.loops, ht.loops, h.loops]
  · rw [hs.methods, ht.methods, h.methods]
  · rw [recovering_lookAt, recovering_lookAt, h.recovering]

theorem advance : s.advance.Alike t.advance := by
  have hrest := h.rest
  unfold State.advance
  cases hs : s.rest with
  | nil =>
    rw [hs] at hrest
    rw [List.map_eq_nil_iff.mp hrest.symm]
    exact h
  | cons l rest =>
    rw [hs] at hrest
    obtain ⟨l', rest', ht, hl, hrest⟩ := List.map_eq_cons_iff.mp hrest.symm
    rw [ht]
    exact h.lookAt hl.symm hrest.symm

omit h in
/-- Skipping stops at the same token in both states, since it looks at kinds only. -/
theorem skip : ∀ {rest rest' : List Lexeme} {s t : State}, s.Alike t →
    rest.map Lexeme.shape = rest'.map Lexeme.shape → (s.skip rest).Alike (t.skip rest')
  | [], [], _, _, h, _ => h
  | [], _ :: _, _, _, _, hrest => by simp at hrest
  | _ :: _, [], _, _, _, hrest => by simp at hrest
  | l :: rest, l' :: rest', s, t, h, hrest => by
    obtain ⟨hl, hrest⟩ := List.cons.inj hrest
    have hlook := h.lookAt hl hrest
    unfold State.skip
    rw [h.atEnd, h.lookahead]
    split
    · exact h
    · split
      · exact hlook
      · exact hlook.skip hrest

theorem recover : s.recover.Alike t.recover := by
  have hskip := h.skip h.rest
  exact ⟨hskip.lookahead, hskip.rest, hskip.scopes, hskip.assembler, hskip.reports, hskip.loops,
    hskip.methods, rfl⟩

/-- An error is reported and recovered from alike, at whatever positions it is reported. -/
theorem errorAt (p q : Position) (e : ParseError) : (s.errorAt p e).Alike (t.errorAt q e) := by
  unfold State.errorAt
  by_cases hs : s.recovering = true
  · -- in both states an error is being recovered from, or in none
    rw [if_pos hs, if_pos (h.recovering.symm.trans hs)]
    exact h.withLog _ _
  · rw [if_neg hs, if_neg (h.recovering ▸ hs)]
    have hreport : (s.report (.parse p e)).Alike (t.report (.parse q e)) := h.report rfl
    exact hreport.recover

theorem skipUnexpected : s.skipUnexpected.Alike t.skipUnexpected := by
  unfold State.skipUnexpected
  rw [h.recovering]
  refine recover ?_
  split
  · exact h
  · exact h.report (by rw [h.lookahead]; rfl)

/-- The number of errors does not depend on positions, and so the answer of the pass does not. -/
theorem errorCount : s.diagnostics.errorCount = t.diagnostics.errorCount := by
  have hcount (u : State) : u.diagnostics.errorCount =
      (u.reports.map Diagnostic.kind).countP Diagnostic.Kind.isError := by
    rw [List.countP_map, Diagnostics.errorCount, ← Array.countP_toList]
    exact List.countP_congr fun d _ => by rw [Function.comp, Diagnostic.isError_kind]
  rw [hcount, hcount, h.reports]

end Alike

end State

/-! ### Productions -/

namespace Production

variable {α β : Type}

/-- The runs ended in the same way, in states alike.  A stray statement is at a position of its own
in each. -/
inductive Meets : EStateM.Result Halt State α → EStateM.Result Halt State α → Prop
  | ok (a : α) {s t : State} (h : s.Alike t) : Meets (.ok a s) (.ok a t)
  | error {e e' : Halt} {s t : State} (hcause : e.cause = e'.cause) (h : s.Alike t) :
    Meets (.error e s) (.error e' t)

/-- From states alike the productions do the same.  They may differ in the positions that they have
saved. -/
def Lockstep (p q : Production α) : Prop := ∀ ⦃s t : State⦄, s.Alike t → Meets (p s) (q t)

namespace Lockstep

/-! ### Steps -/

theorem pure (a : α) : Lockstep (pure a) (pure a) := fun _ _ h => .ok _ h

/-- One step after the other.  The answers of the first ones are equal, so the second ones are
chosen alike. -/
theorem bind {p q : Production α} {f g : α → Production β} (hp : Lockstep p q)
    (hf : ∀ a, Lockstep (f a) (g a)) : Lockstep (p >>= f) (q >>= g) := by
  intro s t h
  have hmeets := hp h
  show Meets (EStateM.bind p f s) (EStateM.bind q g t)
  unfold EStateM.bind
  generalize p s = r, q t = r' at hmeets
  cases hmeets with
  | ok a h' => exact hf a h'
  | error hcause h' => exact .error hcause h'

theorem option {p q : Production (Option α)} {f g : Option α → Production β} (hp : Lockstep p q)
    (hnone : Lockstep (f none) (g none)) (hsome : ∀ a, Lockstep (f (some a)) (g (some a))) :
    Lockstep (p >>= f) (q >>= g) := by
  refine hp.bind fun a => ?_
  cases a with
  | none => exact hnone
  | some a => exact hsome a

theorem ite {c : Prop} [Decidable c] {p q p' q' : Production α} (hp : Lockstep p q)
    (hp' : Lockstep p' q') : Lockstep (if c then p else p') (if c then q else q') := by
  split
  · exact hp
  · exact hp'

/-- What is done at the end is done in both runs, whether they have failed or not. -/
theorem ensuring {p q : Production α} {last last' : Production Unit} (hp : Lockstep p q)
    (hlast : Lockstep last last') : Lockstep (ensuring p last) (ensuring q last') := by
  intro s t h
  have hmeets := hp h
  unfold Production.ensuring
  generalize p s = r, q t = r' at hmeets
  cases hmeets with
  | ok a h' =>
    have hends := hlast h'
    dsimp only
    generalize last _ = r, last' _ = r' at hends
    cases hends with
    | ok _ h'' => exact .ok a h''
    | error hcause h'' => exact .error hcause h''
  | error hcause h' =>
    -- whatever the last step does, the first failure counts
    have hends := hlast h'
    dsimp only
    generalize last _ = r, last' _ = r' at hends
    cases hends with
    | ok _ h'' => exact .error hcause h''
    | error _ h'' => exact .error hcause h''

theorem view {f : State → α} (hf : ∀ {s t : State}, s.Alike t → f s = f t) :
    Lockstep (view f) (view f) := by
  intro s t h
  show Meets (.ok (f s) s) (.ok (f t) t)
  rw [hf h]
  exact .ok (f t) h

/-- A position that is saved may be any other one in the other run.  This is the one step in which
the answers differ. -/
theorem position {f g : Position → Production β} (hf : ∀ p q, Lockstep (f p) (g q)) :
    Lockstep (position >>= f) (position >>= g) :=
  fun s t h => hf s.lookahead.position t.lookahead.position h

theorem modify {f : State → State} (hf : ∀ {s t : State}, s.Alike t → (f s).Alike (f t)) :
    Lockstep (modify f) (modify f) := fun _ _ h => .ok () (hf h)

/-- Tokens are taken by what they are. -/
theorem accept? (select : Token.Kind → Option α) :
    Lockstep (accept? select) (accept? select) := by
  intro s t h
  unfold Production.accept?
  rw [h.current?]
  cases t.current?.bind select with
  | none => exact .ok _ h
  | some a => exact .ok _ h.advance

theorem accept (kind : Token.Kind) : Lockstep (accept kind) (accept kind) := by
  intro s t h
  unfold Production.accept
  rw [h.current?]
  split
  · exact .ok _ h.advance
  · exact .ok _ h

theorem errorAt (p q : Position) (e : ParseError) :
    Lockstep (errorAt p e) (errorAt q e) := fun _ _ h => .ok () (h.errorAt p q e)

theorem error (e : ParseError) : Lockstep (error e) (error e) :=
  fun _ _ h => .ok () (h.errorAt _ _ e)

theorem warn (p q : Position) (w : Warning) : Lockstep (warn p w) (warn q w) :=
  fun _ _ h => .ok () (h.report rfl)

theorem check (well : Bool) (p q : Position) (e : ParseError) :
    Lockstep (check well p e) (check well q e) := .ite (.pure ()) (.errorAt p q e)

/-- A call to the assembler does not look at the log, and what it asks for has no positions in
it. -/
theorem assemble (c : Assembler.Call) : Lockstep (assemble c) (assemble c) := by
  intro s t h
  rw [assemble_apply, assemble_apply]
  simp only [Assembler.Call.perform, Bind.bind, EStateM.bind, Logged.record, Logged.silently,
    h.assembler]
  cases c.run t.assembler with
  | ok x a => exact .ok x (h.withAssembler a _ _)
  | error f a => exact .error rfl (h.withAssembler a _ _)

theorem scope (c : Scopes.Call) : Lockstep (scope c) (scope c) := by
  intro s t h
  rw [scope_apply, scope_apply]
  simp only [Scopes.Call.perform, Bind.bind, EStateM.bind, Logged.silently, h.scopes]
  cases c.run t.scopes with
  | ok x a => exact .ok x (h.withScopes a _ _)
  | error f a => exact .error rfl (h.withScopes a _ _)

theorem emit (operation : Operation) : Lockstep (emit operation) (emit operation) :=
  assemble (.emit operation)

theorem expect (mark : Symbol) : Lockstep (expect mark) (expect mark) :=
  (accept _).bind fun _ => .ite (.pure ()) (.error _)

theorem operand {level level' : Production (Option Ty)} (h : Lockstep level level') :
    Lockstep (operand level) (operand level') :=
  h.option ((error _).bind fun _ => .pure _) fun ty => .pure ty

theorem inLoop {p q : Production α} (loop : Loop) (h : Lockstep p q) :
    Lockstep (inLoop loop p) (inLoop loop q) :=
  (modify fun h => h.withLoops (congrArg (loop :: ·) h.loops)).bind fun _ =>
    h.ensuring (modify fun h => h.withLoops (congrArg List.tail h.loops))

theorem inMethod {p q : Production α} (method : MethodId) (h : Lockstep p q) :
    Lockstep (inMethod method p) (inMethod method q) :=
  (modify fun h => h.withMethods (congrArg (method :: ·) h.methods)).bind fun _ =>
    h.ensuring (modify fun h => h.withMethods (congrArg List.tail h.methods))

/-- The loops around a scope are put aside and brought back alike. -/
theorem inScope {p q : Production α} (h : Lockstep p q) : Lockstep (inScope p) (inScope q) := by
  refine (scope .enter).bind fun _ => (view State.Alike.loops).bind fun loops => ?_
  refine (modify fun h => h.withLoops rfl).bind fun _ => h.ensuring ?_
  exact (modify fun h => h.withLoops rfl).bind fun _ => scope .exit

/-! ### Variables -/

/-- The methods that are open are the same in both states. -/
theorem within (owner : MethodId) : Lockstep (within owner) (within owner) :=
  view fun h => by rw [h.methods]

theorem reaches (owner : MethodId) : Lockstep (reaches owner) (reaches owner) :=
  view fun h => by rw [h.methods]

theorem refuse (p q : Position) (e : ParseError) : Lockstep (refuse p e) (refuse q e) :=
  (errorAt p q e).bind fun _ => .pure none

theorem localType (options : Options) (name : String) (ty : Ty) :
    Lockstep (localType options name ty) (localType options name ty) := by
  unfold Production.localType
  split
  · exact .pure ty
  · exact view fun h => by rw [h.scopes]

theorem loadLocal (options : Options) (name : String) (p q : Position) (ty : Ty)
    (slot : LocalSlot) :
    Lockstep (loadLocal options name p ty slot) (loadLocal options name q ty slot) :=
  (reaches _).bind fun _ => .ite
    ((emit _).bind fun _ => (localType options name ty).bind fun _ => .pure _)
    (.refuse p q _)

theorem loadParameter (name : String) (p q : Position) (ty : Ty) (slot : ParameterSlot) :
    Lockstep (loadParameter name p ty slot) (loadParameter name q ty slot) :=
  (within _).bind fun _ => .ite ((assemble (.loadParameter slot)).bind fun _ => .pure _)
    (.refuse p q _)

/-- What a name stands for decides how it is loaded, and the position only where an error is
reported. -/
theorem load (options : Options) (entity : Entity) (name : String) (p q : Position) :
    Lockstep (load options entity name p) (load options entity name q) := by
  cases entity with
  | «local» _ ty slot => exact loadLocal options name p q ty slot
  | parameter _ ty _ slot =>
    cases slot with
    | none => exact refuse p q _
    | some slot => exact loadParameter name p q ty slot
  | method _ _ _ _ => exact refuse p q _
  | type _ _ => exact refuse p q _

theorem storeLocal (name : String) (p q : Position) (ty : Ty) (slot : LocalSlot) (value : Ty)
    (p' q' : Position) :
    Lockstep (storeLocal name p ty slot value p') (storeLocal name q ty slot value q') :=
  (reaches _).bind fun _ => .ite
    ((check _ p' q' _).bind fun _ => (emit _).bind fun _ => emit _)
    (.errorAt p q _)

theorem store (entity : Entity) (name : String) (p q : Position) (value : Ty) (p' q' : Position) :
    Lockstep (store entity name p value p') (store entity name q value q') := by
  cases entity with
  | «local» _ ty slot => exact storeLocal name p q ty slot value p' q'
  | parameter _ _ _ _ => exact errorAt p q _
  | method _ _ _ _ => exact errorAt p q _
  | type _ _ => exact errorAt p q _

/-! ### Expressions -/

section

variable {expression expression' : Production (Option Ty)} (h : Lockstep expression expression')
include h

/-- There are two positions in an assignment, that of the name and that of the value. -/
theorem assignment (entity : Entity) (name : String) (p q : Position) :
    Lockstep (assignment expression entity name p) (assignment expression' entity name q) :=
  position fun p' q' => h.operand.bind fun value =>
    (store entity name p q value p' q').bind fun _ => (expect _).bind fun _ => .pure _

theorem use (options : Options) (entity : Entity) (name : String) (p q : Position) :
    Lockstep (use options expression entity name p) (use options expression' entity name q) :=
  (accept _).bind fun _ => .ite (h.assignment entity name p q)
    ((load options entity name p q).bind fun _ => .pure _)

theorem named (options : Options) (name : String) (p q : Position) :
    Lockstep (named options expression name p) (named options expression' name q) :=
  (view fun h => by rw [h.scopes]).option ((errorAt p q _).bind fun _ => .pure _)
    fun entity => h.use options entity name p q

theorem primary (options : Options) :
    Lockstep (primary options expression) (primary options expression') := by
  refine position fun p q => (accept? _).option (.pure none) fun atom => ?_
  cases atom with
  | number value => exact (emit _).bind fun _ => .pure _
  | boolean value => exact (emit _).bind fun _ => .pure _
  | name name => exact (h.named options name p q).bind fun _ => .pure _

end

theorem binaryType (p q : Position) (operator : Symbol) (left right : Ty) :
    Lockstep (binaryType p operator left right) (binaryType q operator left right) := by
  unfold Production.binaryType
  split
  · exact .pure _
  · exact (errorAt p q _).bind fun _ => .pure _

/-- The position of an operator is saved in every round, for an error about its operands. -/
theorem chain {ω : Type} (operators : Operators ω) {level level' : Production (Option Ty)}
    (h : Lockstep level level') (budget : Nat) (left : Ty) :
    Lockstep (chain operators level budget left) (chain operators level' budget left) := by
  -- both runs have the same budget, and each operator costs one in both
  induction budget generalizing left with
  | zero => exact .pure left
  | succ budget ih =>
    refine position fun p q => (accept? _).option (.pure left) fun op => ?_
    refine h.operand.bind fun right => ?_
    exact (binaryType p q _ left right).bind fun ty => (emit _).bind fun _ => ih ty

theorem signedType (p q : Position) (sign : Symbol) (operand : Ty) :
    Lockstep (signedType p sign operand) (signedType q sign operand) := by
  unfold Production.signedType
  split
  · exact .pure _
  · exact (errorAt p q _).bind fun _ => .pure _

theorem emitSign (sign : Symbol) : Lockstep (emitSign sign) (emitSign sign) := by
  unfold Production.emitSign
  split
  · exact emit _
  · exact .pure ()

section

variable {primary primary' : Production (Option Ty)} (h : Lockstep primary primary') (budget : Nat)
include h

theorem multiplicative :
    Lockstep (multiplicative budget primary) (multiplicative budget primary') :=
  h.option (.pure none) fun left => .ite (.pure _)
    ((chain multiplicativeOperators h budget left).bind fun _ => .pure _)

theorem firstTerm : Lockstep (firstTerm budget primary) (firstTerm budget primary') :=
  position fun p q => (accept? _).option (h.multiplicative budget) fun sign =>
    (h.multiplicative budget).operand.bind fun term => (signedType p q sign term).bind fun _ =>
      (emitSign sign).bind fun _ => .pure _

theorem additive : Lockstep (additive budget primary) (additive budget primary') :=
  (h.firstTerm budget).option (.pure none) fun left => .ite (.pure _)
    ((chain additiveOperators (h.multiplicative budget) budget left).bind fun _ => .pure _)

theorem comparison (left : Ty) :
    Lockstep (comparison budget primary left) (comparison budget primary' left) :=
  position fun p q => (accept? _).option (.pure left) fun _ =>
    (h.additive budget).operand.bind fun _ => (check _ p q _).bind fun _ =>
      (emit _).bind fun _ => .pure _

theorem relational : Lockstep (relational budget primary) (relational budget primary') :=
  (h.additive budget).option (.pure none) fun left => .ite (.pure _)
    ((h.comparison budget left).bind fun _ => .pure _)

end

/-- **No expression looks at a position.** -/
theorem expression (options : Options) (budget : Nat) :
    Lockstep (expression options budget) (expression options budget) := by
  induction budget with
  | zero => exact .pure none
  | succ budget ih => exact (ih.primary options).relational budget

/-! ### Statements -/

/-- Forms are tried one by one, and the first one that fits is the same in both runs. -/
theorem firstOf {forms forms' : List (Production Bool)} (h : List.Forall₂ Lockstep forms forms') :
    Lockstep (firstOf forms) (firstOf forms') := by
  induction h with
  | nil => exact .pure false
  | cons hform _ ih => exact hform.bind fun _ => .ite (.pure true) ih

theorem repeatedly {item item' : Production Bool} (h : Lockstep item item') (budget : Nat) :
    Lockstep (repeatedly item budget) (repeatedly item' budget) := by
  induction budget with
  | zero => exact h.bind fun _ => .pure ()
  | succ budget ih => exact h.bind fun _ => .ite ih (.pure ())

theorem block {item item' : Production Bool} (h : Lockstep item item') (budget : Nat) :
    Lockstep (block budget item) (block budget item') :=
  (accept _).bind fun _ => .ite
    ((h.repeatedly budget).bind fun _ => (expect _).bind fun _ => .pure true) (.pure false)

section

variable {expression expression' : Production (Option Ty)} (he : Lockstep expression expression')
  {statement statement' : Production Bool} (hs : Lockstep statement statement')

include hs in
theorem required : Lockstep (required statement) (required statement') :=
  hs.bind fun _ => .ite (.pure ()) (.error _)

include he in
theorem expressionOf (expected : Ty) (mismatch : Ty → ParseError) :
    Lockstep (expressionOf expected mismatch expression)
      (expressionOf expected mismatch expression') :=
  position fun p q => he.option (error _) fun _ => check _ p q _

include he in
theorem condition : Lockstep (condition expression) (condition expression') :=
  (expect _).bind fun _ => (he.expressionOf _ _).bind fun _ => expect _

include hs in
theorem alternative (otherwise : Label) :
    Lockstep (alternative statement otherwise) (alternative statement' otherwise) := by
  refine (accept _).bind fun _ => .ite ?_ ((assemble (.bindLabel otherwise)).bind fun _ => .pure ())
  refine (assemble .newLabel).bind fun after => (assemble (.branch after)).bind fun _ => ?_
  refine (assemble (.bindLabel otherwise)).bind fun _ => hs.required.bind fun _ => ?_
  exact (assemble (.bindLabel after)).bind fun _ => .pure ()

include he hs in
theorem conditional :
    Lockstep (conditional expression statement) (conditional expression' statement') := by
  refine (accept _).bind fun _ => .ite (he.condition.bind fun _ => ?_) (.pure false)
  refine (assemble .newLabel).bind fun otherwise => ?_
  refine (assemble (.branchIfFalse otherwise)).bind fun _ => hs.required.bind fun _ => ?_
  exact (hs.alternative otherwise).bind fun _ => .pure true

include he hs in
theorem rounds (loop : Loop) :
    Lockstep (rounds expression statement loop) (rounds expression' statement' loop) := by
  refine (assemble (.bindLabel loop.continueLabel)).bind fun _ => he.condition.bind fun _ => ?_
  refine (assemble (.branchIfFalse loop.breakLabel)).bind fun _ => hs.required.bind fun _ => ?_
  refine (assemble (.branch loop.continueLabel)).bind fun _ => ?_
  exact (assemble (.bindLabel loop.breakLabel)).bind fun _ => .pure ()

include he hs in
theorem loop : Lockstep (loop expression statement) (loop expression' statement') := by
  refine (accept _).bind fun _ => .ite ?_ (.pure false)
  refine (assemble .newLabel).bind fun continueLabel => ?_
  refine (assemble .newLabel).bind fun breakLabel => ?_
  exact ((he.rounds hs _).inLoop _).bind fun _ => .pure true

/-- A stray statement ends both runs, each with the position that it saved. -/
theorem leaveStatement (word : Keyword) (stray : Stray) (target : Loop → Label) :
    Lockstep (leaveStatement word stray target) (leaveStatement word stray target) := by
  refine position fun p q => (accept _).bind fun _ => .ite ?_ (.pure false)
  refine (view fun h => by rw [h.loops]).option (fun _ _ h => .error rfl h) fun loop => ?_
  exact (expect _).bind fun _ => (assemble (.branch (target loop))).bind fun _ => .pure true

include he in
theorem returnStatement : Lockstep (returnStatement expression) (returnStatement expression') := by
  refine (accept _).bind fun _ => .ite ?_ (.pure false)
  refine (assemble .returnType).bind fun expected => ?_
  refine .bind (.ite (.pure ()) (he.expressionOf expected _)) fun _ => ?_
  exact (expect _).bind fun _ => (emit _).bind fun _ => .pure true

include he in
theorem expressionStatement :
    Lockstep (expressionStatement expression) (expressionStatement expression') :=
  he.option (.pure false) fun _ => (Lockstep.ite (.pure ()) (emit _)).bind fun _ => .pure true

theorem printNamed (options : Options) (name : String) (p q : Position) :
    Lockstep (printNamed options name p) (printNamed options name q) := by
  refine (view fun h => by rw [h.scopes]).option (errorAt p q _) fun entity => ?_
  refine (modify fun h => h.withLog _ _).bind fun _ => ?_
  exact (load options entity name p q).bind fun _ => .ite (.emit _) (.pure ())

theorem printStatement (options : Options) :
    Lockstep (printStatement options) (printStatement options) := by
  refine (accept _).bind fun _ => .ite ((expect _).bind fun _ => ?_) (.pure false)
  have hargument : Lockstep (printArgument options) (printArgument options) :=
    position fun p q => (accept? _).option (.pure ()) fun name => printNamed options name p q
  exact hargument.bind fun _ => (expect _).bind fun _ => (expect _).bind fun _ => .pure true

include hs in
theorem bugStatement : Lockstep (bugStatement statement) (bugStatement statement') :=
  position fun p q => (accept _).bind fun _ => .ite
    (hs.required.bind fun _ => (expect _).bind fun _ => (warn p q _).bind fun _ => .pure true)
    (.pure false)

include he hs in
/-- The forms of statements are the same in both runs, in the same order. -/
theorem statementForms (options : Options) (budget : Nat) {item item' : Production Bool}
    (hi : Lockstep item item') :
    List.Forall₂ Lockstep (statementForms options budget expression statement item)
      (statementForms options budget expression' statement' item') := by
  have hstop : List.Forall₂ Lockstep
      (if options.stopStatements then stopStatements expression else [])
      (if options.stopStatements then stopStatements expression' else []) := by
    split
    · exact .cons he.returnStatement
        (.cons (leaveStatement _ _ _) (.cons (leaveStatement _ _ _) .nil))
    · exact .nil
  refine .cons (hi.block budget) (.cons (he.conditional hs) (.cons (he.loop hs) ?_))
  refine .cons he.expressionStatement (.cons (accept _) ?_)
  exact .cons (printStatement options) (.cons hs.bugStatement hstop)

end

/-! ### Declarations -/

/-- Whether a name is taken is told by the scopes alone. -/
theorem checkFresh (kind : DeclarationKind) (name : String) (p q : Position) :
    Lockstep (checkFresh kind name p) (checkFresh kind name q) :=
  (view fun h => by rw [h.scopes]).bind fun _ => check _ p q _

theorem field (ty : Ty) (name : String) (p q : Position) :
    Lockstep (field ty name p) (field ty name q) := by
  refine (checkFresh .field name p q).bind fun _ => .ite (.errorAt p q _) ?_
  refine .bind ?_ fun _ => expect .semicolon
  exact (assemble (.declareLocal name ty)).bind fun slot =>
    (scope (.declareLocal name ty slot)).bind fun _ => .pure ()

theorem declareFormal (name : String) (ty : Ty) (ordinal : Nat) :
    Lockstep (declareFormal name ty ordinal) (declareFormal name ty ordinal) :=
  .ite ((scope (.declareParameter name ty ordinal)).bind fun _ => .pure _)
    fun _ _ h => .error rfl h

theorem formalOf (ty : Ty) (ordinal : Nat) :
    Lockstep (formalOf ty ordinal) (formalOf ty ordinal) :=
  position fun p q => (accept? _).option ((error _).bind fun _ => .pure none) fun name =>
    .ite ((errorAt p q _).bind fun _ => .pure none)
      ((checkFresh .parameter name p q).bind fun _ =>
        (declareFormal name ty ordinal).bind fun _ => .pure _)

/-- The positions of parameters are not kept, only their number, names and types. -/
theorem formals (budget : Nat) (done : Array Formal) :
    Lockstep (formals budget done) (formals budget done) := by
  induction budget generalizing done with
  | zero => exact .pure done
  | succ budget ih =>
    have hformal : Lockstep (formal (done.size + 1)) (formal (done.size + 1)) :=
      (accept? _).option (.pure none) fun ty => formalOf ty _
    refine hformal.option (.pure done) fun parameter => (accept _).bind fun _ => ?_
    exact .ite (ih (done.push parameter)) (.pure _)

theorem attachFormals (method : MethodId) (parameters : List Formal) :
    Lockstep (attachFormals method parameters) (attachFormals method parameters) := by
  induction parameters with
  | nil => exact .pure ()
  | cons parameter rest ih =>
    refine .bind ?_ fun _ => ih
    exact (assemble (.declareParameter method parameter.name parameter.ordinal parameter.ty)).bind
      fun slot => scope (.attachParameter parameter.id slot)

theorem openMethod (entity : EntityId) (returnType : Ty) (name : String)
    (parameters : List Formal) :
    Lockstep (openMethod entity returnType name parameters)
      (openMethod entity returnType name parameters) := by
  refine (assemble (.declareMethod name returnType (parameters.map Formal.ty))).bind fun id => ?_
  refine (attachFormals id parameters).bind fun _ => ?_
  exact (scope (.attachMethod entity id (parameters.map Formal.id))).bind fun _ => .pure id

section

variable {item item' : Production Bool} (h : Lockstep item item') (budget : Nat)
include h

theorem methodRest (entity : EntityId) (returnType : Ty) (name : String) :
    Lockstep (methodRest budget item entity returnType name)
      (methodRest budget item' entity returnType name) := by
  have hbody : Lockstep (body budget item) (body budget item') :=
    (h.block budget).bind fun _ => .ite (.pure ()) (.error _)
  refine (formals budget #[]).bind fun parameters => (expect _).bind fun _ => ?_
  refine (openMethod entity returnType name parameters.toList).bind fun id => ?_
  exact (hbody.inMethod id).bind fun _ => (assemble .endMethod).bind fun _ => .pure ()

theorem method (returnType : Ty) (name : String) (p q : Position) :
    Lockstep (method budget item returnType name p) (method budget item' returnType name q) :=
  (checkFresh .method name p q).bind fun _ => (scope (.declareMethod name returnType)).bind
    fun entity => (h.methodRest budget entity returnType name).inScope

theorem declarationForm :
    Lockstep (declarationForm budget item) (declarationForm budget item') := by
  refine (accept? _).option (.pure false) fun ty => .bind ?_ fun _ => .pure true
  refine position fun p q => (accept? _).option (error _) fun name => ?_
  exact (accept _).bind fun _ => .ite (h.method budget ty name p q) (.field ty name p q)

end

/-! ### Items -/

theorem itemOf {declaration declaration' statement statement' : Production Bool}
    (hd : Lockstep declaration declaration') (hs : Lockstep statement statement') :
    Lockstep (itemOf declaration statement) (itemOf declaration' statement') := by
  refine (modify fun h => ?_).bind fun _ => firstOf (.cons hd (.cons hs .nil))
  exact ⟨h.lookahead, h.rest, h.scopes, h.assembler, h.reports, h.loops, h.methods, rfl⟩

/-- Declarations and statements are inside of each other, so both are followed at once. -/
theorem declaration_and_statement (options : Options) (budget : Nat) :
    Lockstep (declaration options budget) (declaration options budget) ∧
      Lockstep (statement options budget) (statement options budget) := by
  induction budget with
  | zero =>
    simp only [declaration, statement]
    exact ⟨.pure false, .pure false⟩
  | succ budget ih =>
    have hitem := itemOf ih.1 ih.2
    simp only [declaration, statement]
    exact ⟨hitem.declarationForm budget,
      .firstOf ((expression options (budget + 1)).statementForms ih.2 options budget hitem)⟩

/-- **No item looks at a position.** -/
theorem item (options : Options) (budget : Nat) :
    Lockstep (item options budget) (item options budget) :=
  itemOf (declaration_and_statement options budget).1 (declaration_and_statement options budget).2

theorem items {item item' : Production Bool} (h : Lockstep item item') (budget : Nat) :
    Lockstep (items item budget) (items item' budget) := by
  induction budget with
  | zero => exact .pure ()
  | succ budget ih =>
    refine (view State.Alike.atEnd).bind fun _ => .ite (.pure ()) (.bind ?_ fun _ => ih)
    exact h.bind fun _ => .ite (.pure ()) (.modify State.Alike.skipUnexpected)

/-- The whole pass makes the same steps over sources alike, if it has the same budget. -/
theorem program (options : Options) (budget : Nat) :
    Lockstep (program options budget) (program options budget) := by
  refine (modify State.Alike.advance).bind fun _ => ?_
  refine (assemble (.beginProgram options.programName)).bind fun entry => ?_
  refine (modify fun h => h.withMethods rfl).bind fun _ => ?_
  refine ((item options budget).items budget).bind fun _ => ?_
  exact view fun h => by rw [h.errorCount, h.atEnd]

end Lockstep

end Production

/-! ### Whole passes -/

/-- What finishing the program after a pass gives: the program, or the fault in it. -/
def Parsed.finished (p : Parsed) : Except Fault Program :=
  match Assembler.finish ⟨p.state.assembler, p.state.log⟩ with
  | .ok program _ => .ok program
  | .error fault _ => .error fault

/-- The finished program is a matter of the assembler alone; what has been logged does not change
it. -/
theorem Parsed.finished_congr {p q : Parsed} (h : p.state.assembler = q.state.assembler) :
    p.finished = q.finished := by
  have hfinish := Assembler.blind_finish q.state.assembler p.state.log q.state.log
  unfold Parsed.finished
  rw [h]
  generalize Assembler.finish ⟨q.state.assembler, p.state.log⟩ = r,
    Assembler.finish ⟨q.state.assembler, q.state.log⟩ = r' at hfinish
  cases r with
  | ok program s =>
    cases r' with
    | error f s' => cases hfinish
    | ok program' s' => rw [(EStateM.Result.ok.inj hfinish).1]
  | error f s =>
    cases r' with
    | ok program s' => cases hfinish
    | error f' s' => rw [(EStateM.Result.error.inj hfinish).1]

/-- The passes over sources alike end in the same way and leave states alike. -/
theorem parse_alike (options : Options) {source source' : String}
    (h : (read source).map Reading.kind = (read source').map Reading.kind) :
    (parse options source).outcome.mapError Halt.cause =
      (parse options source').outcome.mapError Halt.cause ∧
    (parse options source).state.Alike (parse options source').state := by
  have hshapes : (lexemes source).map Lexeme.shape = (lexemes source').map Lexeme.shape :=
    Lexeme.map_shape_groupOnto h rfl rfl
  have hlength : (lexemes source).length = (lexemes source').length := by
    simpa using congrArg List.length hshapes
  have hstart : (State.start (lexemes source)).Alike (.start (lexemes source')) :=
    ⟨rfl, hshapes, rfl, rfl, rfl, rfl, rfl, rfl⟩
  -- the budget is the number of tokens, which is the same
  have hmeets := Production.Lockstep.program options (lexemes source').length hstart
  simp only [parse, hlength]
  generalize Production.program options _ (.start (lexemes source)) = r,
    Production.program options _ (.start (lexemes source')) = r' at hmeets
  cases hmeets with
  | ok succeeded halike => exact ⟨rfl, halike⟩
  | error hcause halike => exact ⟨congrArg Except.error hcause, halike⟩

/-- **Layout does not matter.**  If two sources read as the same tokens and the same scan errors,
apart from where these stand, then with any options the passes over them end in the same way: with
the same answer, with a stray statement of the same kind, or with the same broken invariant.
Finishing gives the same program or fails in the same way, the names stand for the same, and the
reports agree one by one in all but their positions. -/
theorem parse_of_same_readings (options : Options) {source source' : String}
    (h : (read source).map Reading.kind = (read source').map Reading.kind) :
    (parse options source).outcome.mapError Halt.cause =
      (parse options source').outcome.mapError Halt.cause ∧
    (parse options source).finished = (parse options source').finished ∧
    (parse options source).state.scopes = (parse options source').state.scopes ∧
    List.Forall₂ (fun d d' : Diagnostic => d.isError = d'.isError ∧ d.kind = d'.kind)
      (parse options source).state.diagnostics.entries.toList
      (parse options source').state.diagnostics.entries.toList := by
  obtain ⟨houtcome, halike⟩ := parse_alike options h
  refine ⟨houtcome, Parsed.finished_congr halike.assembler, halike.scopes, ?_⟩
  have hkinds := List.forall₂_map_left_iff.mp (List.forall₂_map_right_iff.mp
    (List.forall₂_eq_eq_eq ▸ halike.reports : List.Forall₂ (· = ·) _ _))
  refine hkinds.imp fun d d' hkind => ⟨?_, hkind⟩
  rw [← d.isError_kind, ← d'.isError_kind, hkind]

/-- A text with a warning, a scan error, a parse error and a stray statement, on one line. -/
def denseSource : String := "int x;bug x=1;;@x=true;break;"

/-- The same tokens on lines of their own, with comments between them. -/
def spacedSource : String :=
  "int /* counts */ x;\n  bug x = 1; ; // once\n@ x = true;\n\n  break;\n"

theorem parse_of_same_readings_spaced :
    (read denseSource).map Reading.kind = (read spacedSource).map Reading.kind ∧
    read denseSource ≠ read spacedSource ∧
    (parse {} denseSource).outcome.mapError Halt.cause =
      (parse {} spacedSource).outcome.mapError Halt.cause ∧
    (parse {} denseSource).finished = (parse {} spacedSource).finished ∧
    (parse {} denseSource).state.scopes = (parse {} spacedSource).state.scopes ∧
    List.Forall₂ (fun d d' : Diagnostic => d.isError = d'.isError ∧ d.kind = d'.kind)
      (parse {} denseSource).state.diagnostics.entries.toList
      (parse {} spacedSource).state.diagnostics.entries.toList := by
  have h : (read denseSource).map Reading.kind = (read spacedSource).map Reading.kind := by
    decide +kernel
  exact ⟨h, by decide +kernel, parse_of_same_readings {} h⟩

end OnePass
