import OnePass.Proofs.Ends

/-!
# Classes of productions

Many facts about the pass hold of every production because they hold of the steps it is
made of.  Here the productions are taken apart once: a class of productions that has
the small steps, and is closed under the few constructs that tie them together, has all
productions of the grammar.

Some productions save the position of a token and report an error there later.  A class
may depend on the positions that errors can be reported at; then it has to say what
becomes of a saved position.

## Main definitions

* `Production.Sequential` — the class has the small steps and is closed under sequences.
* `Production.Placed` — it also has the errors at saved positions.
* `Production.Labelled` — it has the steps that branches and loops are made of.
* `Production.Branching`, `Production.Enclosing` — it is closed under branches and loops, and
  under methods.
* `Production.Statements`, `Production.Grammar` — it is also closed under the constructs that
  use names, labels and scopes.
* `Production.Closed`, `Production.Calm`, `Production.Fine` — it has errors at any position,
  the requests that declare nothing, and every request.
* `Production.Bracketed` — it is closed under the constructs that take their changes of the
  state back, and need not have the changes.

## Main results

* `Production.Placed.relational`, `Production.Expressions.expression` — the levels of an
  expression, taken apart.
* `Production.Statements.declaration_and_statement`, `Production.Statements.items` — **such a
  class has every production**.
* `Production.Labelled.grammar`, `Production.Calm.grammar`, `Production.Bracketed.grammar`,
  `Production.Fine.grammar` — what to prove of the steps for that.
-/

namespace OnePass

/-- The operations that name no variable and move no value into one, so that what they do does not
depend on what is declared. -/
def Operation.Simple : Operation → Prop
  | .loadInt _ => True
  | .loadBool _ => True
  | .unary _ => True
  | .additive _ => True
  | .multiplicative _ => True
  | .compare _ => True
  | .concat => True
  | .ret => True
  | .pop => True
  | _ => False

namespace Assembler.Call

/-- A request that declares nothing in the program. -/
def Quiet : Assembler.Call → Prop
  | .beginProgram _ => False
  | .declareMethod _ _ _ => False
  | .declareParameter _ _ _ _ => False
  | .declareLocal _ _ => False
  | _ => True

/-- A request that has to do with labels only.  Branches and loops make no others of their own. -/
def Labels : Assembler.Call → Prop
  | .newLabel => True
  | .bindLabel _ => True
  | .branch _ => True
  | .branchIfFalse _ => True
  | _ => False

theorem Labels.quiet {c : Assembler.Call} (h : c.Labels) : c.Quiet := by
  cases c <;> first | exact h.elim | trivial

end Assembler.Call

/-- A call that neither opens a scope nor closes one. -/
def Scopes.Call.Stays : Scopes.Call → Prop
  | .enter => False
  | .exit => False
  | _ => True

namespace Production

variable {α β : Type}

/-! ### Sequences -/

/-- A class that has the small steps of the pass and is closed under sequences.  Its errors are
reported at the token ahead; which token that is, such a class need not know. -/
structure Sequential (C : (α : Type) → Production α → Prop) : Prop where
  pure {α : Type} (a : α) : C α (Pure.pure a)
  bind {α β : Type} {p : Production α} {f : α → Production β} :
    C α p → (∀ a, C β (f a)) → C β (p >>= f)
  view {α : Type} (g : State → α) : C α (Production.view g)
  accept? {α : Type} (select : Token.Kind → Option α) : C (Option α) (Production.accept? select)
  accept (kind : Token.Kind) : C Bool (Production.accept kind)
  error (e : ParseError) : C Unit (Production.error e)
  emit {operation : Operation} : operation.Simple → C Unit (Production.emit operation)
  returnType : C Ty (assemble .returnType)

section

variable {C : (α : Type) → Production α → Prop}

/-- Either of two productions of a class is in the class, whatever decides between them. -/
theorem mem_ite {c : Prop} [Decidable c] {p q : Production α} (hp : C α p) (hq : C α q) :
    C α (if c then p else q) := by
  split
  · exact hp
  · exact hq

namespace Sequential

variable (hC : Sequential C)
include hC

theorem expect (mark : Symbol) : C Unit (expect mark) :=
  hC.bind (hC.accept _) fun _ => mem_ite (hC.pure ()) (hC.error _)

theorem operand {level : Production (Option Ty)} (hl : C _ level) : C Ty (operand level) := by
  refine hC.bind hl fun ty => ?_
  cases ty with
  | none => exact hC.bind (hC.error _) fun _ => hC.pure _
  | some ty => exact hC.pure ty

theorem emitSign (sign : Symbol) : C Unit (emitSign sign) := by
  unfold Production.emitSign
  split
  · exact hC.emit trivial
  · exact hC.pure ()

theorem firstOf {forms : List (Production Bool)} (h : ∀ form ∈ forms, C _ form) :
    C Bool (firstOf forms) := by
  -- by recursion along the forms; those behind the first that matches are still in the class
  induction forms with
  | nil => exact hC.pure false
  | cons form forms ih =>
    refine hC.bind (h form List.mem_cons_self) fun _ => mem_ite (hC.pure true) (ih ?_)
    exact fun f hf => h f (List.mem_cons_of_mem _ hf)

theorem repeatedly {item : Production Bool} (hi : C _ item) (budget : Nat) :
    C Unit (repeatedly item budget) := by
  induction budget with
  | zero => exact hC.bind hi fun _ => hC.pure ()
  | succ budget ih => exact hC.bind hi fun _ => mem_ite ih (hC.pure ())

theorem block {item : Production Bool} (hi : C _ item) (budget : Nat) :
    C Bool (block budget item) := by
  refine hC.bind (hC.accept _) fun _ => mem_ite ?_ (hC.pure false)
  exact hC.bind (hC.repeatedly hi budget) fun _ => hC.bind (hC.expect _) fun _ => hC.pure true

theorem required {statement : Production Bool} (hs : C _ statement) :
    C Unit (required statement) :=
  hC.bind hs fun _ => mem_ite (hC.pure ()) (hC.error _)

theorem bugStatement (hw : ∀ p w, C _ (warn p w)) {statement : Production Bool}
    (hs : C _ statement) :
    C Bool (bugStatement statement) := by
  refine hC.bind (hC.view _) fun p => hC.bind (hC.accept _) fun _ => mem_ite ?_ (hC.pure false)
  refine hC.bind (hC.required hs) fun _ => hC.bind (hC.expect _) fun _ => ?_
  exact hC.bind (hw p _) fun _ => hC.pure true

theorem expressionStatement {expression : Production (Option Ty)} (he : C _ expression) :
    C Bool (expressionStatement expression) := by
  refine hC.bind he fun ty => ?_
  cases ty with
  | none => exact hC.pure false
  | some ty =>
    exact hC.bind (mem_ite (hC.pure ()) (hC.emit trivial)) fun _ => hC.pure true

/-- A `return` is in the class if its value is.  The value is asked for the type that the method
returns, so every type has to be considered. -/
theorem returnOf {expression : Production (Option Ty)}
    (hv : ∀ expected, C _ (returnValue expression expected)) :
    C Bool (returnStatement expression) := by
  refine hC.bind (hC.accept _) fun _ => mem_ite ?_ (hC.pure false)
  refine hC.bind hC.returnType fun expected => hC.bind (hv expected) fun _ => ?_
  exact hC.bind (hC.expect _) fun _ => hC.bind (hC.emit trivial) fun _ => hC.pure true

/-- A body is in the class if its items are: it is a block that has to be there. -/
theorem body {item : Production Bool} (hi : C _ item) (budget : Nat) : C Unit (body budget item) :=
  hC.bind (hC.block hi budget) fun _ => mem_ite (hC.pure ()) (hC.error _)

end Sequential

end

/-! ### Errors at saved positions -/

/-- A class of productions for every list of positions: these may report errors there, and at the
token ahead.  The position of that token may be saved, and what follows may report errors at it as
well. -/
structure Placed (C : List Position → (α : Type) → Production α → Prop) : Prop where
  sequential (ps : List Position) : Sequential (C ps)
  position {ps : List Position} {β : Type} {f : Position → Production β} :
    (∀ p, C (p :: ps) β (f p)) → C ps β (Production.position >>= f)
  errorAt {ps : List Position} {p : Position} (hp : p ∈ ps) (e : ParseError) :
    C ps Unit (Production.errorAt p e)

section

variable {C : List Position → (α : Type) → Production α → Prop} {ps : List Position} {p : Position}

namespace Placed

variable (hC : Placed C)
include hC

theorem check (hp : p ∈ ps) (well : Bool) (e : ParseError) : C ps Unit (check well p e) :=
  mem_ite ((hC.sequential ps).pure ()) (hC.errorAt hp e)

theorem checkFresh (hp : p ∈ ps) (kind : DeclarationKind) (name : String) :
    C ps _ (checkFresh kind name p) :=
  (hC.sequential ps).bind ((hC.sequential ps).view _) fun _ => hC.check hp _ _

theorem refuse (hp : p ∈ ps) (e : ParseError) : C ps _ (refuse p e) :=
  (hC.sequential ps).bind (hC.errorAt hp e) fun _ => (hC.sequential ps).pure none

/-! ### Operators -/

theorem binaryType (hp : p ∈ ps) (operator : Symbol) (left right : Ty) :
    C ps Ty (binaryType p operator left right) := by
  have h := hC.sequential ps
  unfold Production.binaryType
  split
  · exact h.pure _
  · exact h.bind (hC.errorAt hp _) fun _ => h.pure _

theorem signedType (hp : p ∈ ps) (sign : Symbol) (ty : Ty) : C ps Ty (signedType p sign ty) := by
  have h := hC.sequential ps
  unfold Production.signedType
  split
  · exact h.pure _
  · exact h.bind (hC.errorAt hp _) fun _ => h.pure _

theorem chain {ω : Type} {operators : Operators ω}
    (ho : ∀ op ty, (operators.operation op ty).Simple) {level : Production (Option Ty)}
    (hl : ∀ ps, C ps _ level) (budget : Nat) (left : Ty) (ps : List Position) :
    C ps Ty (chain operators level budget left) := by
  -- the chain saves the position of every operator it comes to, so the induction is over all lists
  -- of saved positions
  induction budget generalizing left ps with
  | zero => exact (hC.sequential ps).pure left
  | succ budget ih =>
    refine hC.position fun p => ?_
    have h := hC.sequential (p :: ps)
    refine h.bind (h.accept? _) fun op => ?_
    cases op with
    | none => exact h.pure left
    | some op =>
      refine h.bind (h.operand (hl _)) fun right =>
        h.bind (hC.binaryType List.mem_cons_self _ left right) fun ty => ?_
      exact h.bind (h.emit (ho op left)) fun _ => ih ty _

section

variable {level : Production (Option Ty)} (hl : ∀ ps, C ps _ level) (budget : Nat)
include hl

theorem multiplicative (ps : List Position) : C ps _ (multiplicative budget level) := by
  have h := hC.sequential ps
  refine h.bind (hl ps) fun left => ?_
  cases left with
  | none => exact h.pure none
  | some left =>
    -- the operators of a term do not need to know the types they are applied to
    have hsimple : ∀ op ty, (multiplicativeOperators.operation op ty).Simple := fun _ _ => trivial
    exact mem_ite (h.pure _) (h.bind (hC.chain hsimple hl budget left ps) fun _ => h.pure _)

theorem firstTerm (ps : List Position) : C ps _ (firstTerm budget level) := by
  refine hC.position fun p => ?_
  have h := hC.sequential (p :: ps)
  refine h.bind (h.accept? _) fun sign => ?_
  cases sign with
  | none => exact hC.multiplicative hl budget _
  | some sign =>
    refine h.bind (h.operand (hC.multiplicative hl budget _)) fun term => ?_
    exact h.bind (hC.signedType List.mem_cons_self sign term) fun _ =>
      h.bind (h.emitSign sign) fun _ => h.pure _

theorem additive (ps : List Position) : C ps _ (additive budget level) := by
  have hsimple : ∀ op ty, (additiveOperators.operation op ty).Simple := by
    intro op ty
    simp only [additiveOperators]
    split <;> trivial
  have h := hC.sequential ps
  refine h.bind (hC.firstTerm hl budget ps) fun left => ?_
  cases left with
  | none => exact h.pure none
  | some left =>
    have hterm := hC.multiplicative hl budget
    exact mem_ite (h.pure _) (h.bind (hC.chain hsimple hterm budget left ps) fun _ => h.pure _)

theorem comparison (left : Ty) (ps : List Position) : C ps _ (comparison budget level left) := by
  refine hC.position fun p => ?_
  have h := hC.sequential (p :: ps)
  refine h.bind (h.accept? _) fun op => ?_
  cases op with
  | none => exact h.pure left
  | some op =>
    refine h.bind (h.operand (hC.additive hl budget _)) fun right => ?_
    exact h.bind (hC.check List.mem_cons_self _ _) fun _ =>
      h.bind (h.emit trivial) fun _ => h.pure _

theorem relational (ps : List Position) : C ps _ (relational budget level) := by
  have h := hC.sequential ps
  refine h.bind (hC.additive hl budget ps) fun left => ?_
  cases left with
  | none => exact h.pure none
  | some left =>
    exact mem_ite (h.pure _) (h.bind (hC.comparison hl budget left ps) fun _ => h.pure _)

end

/-! ### Expressions that have to be there -/

section

variable {expression : Production (Option Ty)} (he : ∀ ps, C ps _ expression) (ps : List Position)
include he

theorem expressionOf (expected : Ty) (mismatch : Ty → ParseError) :
    C ps Unit (expressionOf expected mismatch expression) := by
  refine hC.position fun p => ?_
  have h := hC.sequential (p :: ps)
  refine h.bind (he _) fun ty => ?_
  cases ty with
  | none => exact h.error _
  | some ty => exact hC.check List.mem_cons_self _ _

theorem condition : C ps Unit (condition expression) := by
  have h := hC.sequential ps
  exact h.bind (h.expect _) fun _ => h.bind (hC.expressionOf he ps _ _) fun _ => h.expect _

theorem returnValue (expected : Ty) : C ps Unit (returnValue expression expected) :=
  mem_ite ((hC.sequential ps).pure ()) (hC.expressionOf he ps _ _)

end

end Placed

/-! ### Names -/

/-- A change of the state that leaves tokens, scopes, methods, program and reports alone.  What it
may change is only kept for the pass itself. -/
def Touches (g : State → State) : Prop := ∀ s, ∃ loops recovering log,
  g s = { s with loops, recovering, log }

/-- A class that also has what the names of a source stand for: reading them, assigning to them and
printing them. -/
structure Expressions (options : Options) (C : List Position → (α : Type) → Production α → Prop) :
    Prop extends Placed C where
  named {ps : List Position} {p : Position} {expression : Production (Option Ty)} :
    (∀ ps, C ps _ expression) → p ∈ ps → ∀ name,
      C ps _ (Production.named options expression name p)
  printNamed {ps : List Position} {p : Position} : p ∈ ps → ∀ name,
    C ps _ (Production.printNamed options name p)

namespace Expressions

variable {options : Options} (hC : Expressions options C)
include hC

theorem primary {expression : Production (Option Ty)} (he : ∀ ps, C ps _ expression)
    (ps : List Position) : C ps _ (primary options expression) := by
  refine hC.position fun p => ?_
  have h := hC.sequential (p :: ps)
  refine h.bind (h.accept? _) fun atom => ?_
  rcases atom with _ | (value | value | name)
  · exact h.pure none
  · exact h.bind (h.emit trivial) fun _ => h.pure _
  · exact h.bind (h.emit trivial) fun _ => h.pure _
  · exact h.bind (hC.named he List.mem_cons_self name) fun _ => h.pure _

/-- The class has every expression, whatever the budget.  An expression can stand within an
assignment within an expression, which is where the budget goes down. -/
theorem expression (budget : Nat) (ps : List Position) : C ps _ (expression options budget) := by
  induction budget generalizing ps with
  | zero => exact (hC.sequential ps).pure none
  | succ budget ih => exact hC.relational (hC.primary ih) budget ps

theorem printArgument (ps : List Position) : C ps _ (printArgument options) := by
  refine hC.position fun p => ?_
  have h := hC.sequential (p :: ps)
  refine h.bind (h.accept? _) fun name => ?_
  cases name with
  | none => exact h.pure ()
  | some name => exact hC.printNamed List.mem_cons_self name

theorem printStatement (ps : List Position) : C ps _ (printStatement options) := by
  have h := hC.sequential ps
  refine h.bind (h.accept _) fun _ => mem_ite ?_ (h.pure false)
  exact h.bind (h.expect _) fun _ => h.bind (hC.printArgument ps) fun _ =>
    h.bind (h.expect _) fun _ => h.bind (h.expect _) fun _ => h.pure true

end Expressions

/-- A class that also has the requests that declare nothing, and what is only logged.  That is all
it takes to have what names stand for. -/
structure Naming (C : List Position → (α : Type) → Production α → Prop) : Prop
    extends Placed C where
  quiet {ps : List Position} (c : Assembler.Call) : c.Quiet → C ps _ (Production.assemble c)
  note {ps : List Position} (log : State → Array Event) :
    C ps _ (modify fun s => { s with log := log s })

namespace Naming

variable (hC : Naming C) (hp : p ∈ ps)
include hC hp

theorem load (options : Options) (entity : Entity) (name : String) :
    C ps _ (load options entity name p) := by
  have h := hC.sequential ps
  cases entity with
  | type _ _ => exact hC.refuse hp _
  | method _ _ _ _ => exact hC.refuse hp _
  | «local» _ ty slot =>
    refine h.bind (h.view _) fun _ => mem_ite ?_ (hC.refuse hp _)
    refine h.bind (hC.quiet (.emit _) trivial) fun _ => h.bind ?_ fun _ => h.pure _
    -- which type the local is loaded with depends on the options alone
    unfold localType
    split
    · exact h.pure _
    · exact h.view _
  | parameter _ ty ordinal slot =>
    cases slot with
    | none => exact hC.refuse hp _
    | some slot =>
      refine h.bind (h.view _) fun _ => mem_ite ?_ (hC.refuse hp _)
      exact h.bind (hC.quiet (.loadParameter _) trivial) fun _ => h.pure _

theorem store {valuePosition : Position} (hv : valuePosition ∈ ps) (entity : Entity) (name : String)
    (value : Ty) : C ps _ (store entity name p value valuePosition) := by
  have h := hC.sequential ps
  cases entity with
  | type _ _ => exact hC.errorAt hp _
  | method _ _ _ _ => exact hC.errorAt hp _
  | parameter _ _ _ _ => exact hC.errorAt hp _
  | «local» _ ty slot =>
    refine h.bind (h.view _) fun _ => mem_ite ?_ (hC.errorAt hp _)
    refine h.bind (hC.check hv _ _) fun _ => ?_
    exact h.bind (hC.quiet (.emit _) trivial) fun _ => hC.quiet (.emit _) trivial

theorem named (options : Options) {expression : Production (Option Ty)}
    (he : ∀ ps, C ps _ expression) (name : String) :
    C ps _ (named options expression name p) := by
  have h := hC.sequential ps
  refine h.bind (h.view _) fun entity => ?_
  cases entity with
  | none => exact h.bind (hC.errorAt hp _) fun _ => h.pure _
  | some entity =>
    refine h.bind (h.accept _) fun _ => mem_ite ?_ ?_
    · -- the value is read with another position saved, where a mismatch would be reported
      refine hC.position fun q => ?_
      have h := hC.sequential (q :: ps)
      refine h.bind (h.operand (he _)) fun _ => ?_
      refine h.bind (hC.store (List.mem_cons_of_mem _ hp) List.mem_cons_self _ _ _) fun _ => ?_
      exact h.bind (h.expect _) fun _ => h.pure _
    · exact h.bind (hC.load hp _ _ _) fun _ => h.pure _

theorem printNamed (options : Options) (name : String) :
    C ps _ (printNamed options name p) := by
  have h := hC.sequential ps
  refine h.bind (h.view _) fun entity => ?_
  cases entity with
  | none => exact hC.errorAt hp _
  | some entity =>
    refine h.bind (hC.note _) fun _ => ?_
    exact h.bind (hC.load hp _ _ _) fun _ => mem_ite (hC.quiet (.emit _) trivial) (h.pure ())

omit hp in
theorem expressions (options : Options) : Expressions options C where
  toPlaced := hC.toPlaced
  named he hp name := hC.named hp options he name
  printNamed hp name := hC.printNamed hp options name

end Naming

/-! ### Fields and parameters -/

/-- A class that also has the declarations of fields and parameters.  A parameter whose ordinal is
out of range breaks the pass off, so the class has that end as well. -/
structure Declaring (C : List Position → (α : Type) → Production α → Prop) : Prop
    extends Placed C where
  declareLocal {ps : List Position} (name : String) (ty : Ty) :
    C ps _ (Production.declareLocal name ty)
  declareParameter {ps : List Position} (name : String) (ty : Ty) (ordinal : Nat) :
    C ps _ (Production.scope (.declareParameter name ty ordinal))
  broken {ps : List Position} {α : Type} (f : Fault) : C ps α (halt (.broken f))

namespace Declaring

variable (hC : Declaring C)
include hC

theorem field (hp : p ∈ ps) (ty : Ty) (name : String) : C ps _ (field ty name p) := by
  have h := hC.sequential ps
  refine h.bind (hC.checkFresh hp _ _) fun _ => mem_ite (hC.errorAt hp _) ?_
  exact h.bind (hC.declareLocal name ty) fun _ => h.expect _

theorem formalOf (ty : Ty) (ordinal : Nat) (ps : List Position) : C ps _ (formalOf ty ordinal) := by
  refine hC.position fun p => ?_
  have h := hC.sequential (p :: ps)
  refine h.bind (h.accept? _) fun name => ?_
  cases name with
  | none => exact h.bind (h.error _) fun _ => h.pure none
  | some name =>
    -- a parameter of type `void` is refused before the name is looked at
    refine mem_ite (h.bind (hC.errorAt List.mem_cons_self _) fun _ => h.pure none) ?_
    refine h.bind (hC.checkFresh List.mem_cons_self _ _) fun _ =>
      h.bind (mem_ite ?_ (hC.broken _)) fun _ => h.pure _
    exact h.bind (hC.declareParameter _ _ _) fun _ => h.pure _

theorem formal (ordinal : Nat) (ps : List Position) : C ps _ (formal ordinal) := by
  have h := hC.sequential ps
  refine h.bind (h.accept? _) fun ty => ?_
  cases ty with
  | none => exact h.pure none
  | some ty => exact hC.formalOf ty ordinal ps

theorem formals (budget : Nat) (done : Array Formal) (ps : List Position) :
    C ps _ (formals budget done) := by
  have h := hC.sequential ps
  induction budget generalizing done with
  | zero => exact h.pure done
  | succ budget ih =>
    refine h.bind (hC.formal _ ps) fun parameter => ?_
    cases parameter with
    | none => exact h.pure done
    | some parameter => exact h.bind (h.accept _) fun _ => mem_ite (ih _) (h.pure _)

end Declaring

end

variable {C : (α : Type) → Production α → Prop}

/-! ### Branches and loops -/

/-- A class that has the requests to do with labels, and is closed under loops.  How a loop is
entered and left again is not taken apart here. -/
structure Branching (C : (α : Type) → Production α → Prop) : Prop extends Sequential C where
  label (c : Assembler.Call) : c.Labels → C _ (Production.assemble c)
  inLoop {α : Type} {step : Production α} : C _ step → ∀ loop, C _ (Production.inLoop loop step)

namespace Branching

variable (hC : Branching C)
include hC

theorem alternative {statement : Production Bool} (hs : C _ statement) (otherwise : Label) :
    C _ (alternative statement otherwise) := by
  have hbind (label : Label) : C _ (assemble (.bindLabel label)) :=
    hC.label (.bindLabel label) trivial
  refine hC.bind (hC.accept _) fun _ => mem_ite ?_ (hC.bind (hbind _) fun _ => hC.pure ())
  refine hC.bind (hC.label .newLabel trivial) fun _ =>
    hC.bind (hC.label (.branch _) trivial) fun _ => ?_
  refine hC.bind (hbind _) fun _ => hC.bind (hC.required hs) fun _ => ?_
  exact hC.bind (hbind _) fun _ => hC.pure ()

section

variable {expression : Production (Option Ty)} {statement : Production Bool}
  (hc : C _ (condition expression)) (hs : C _ statement)
include hc hs

theorem conditionalOf : C _ (conditional expression statement) := by
  refine hC.bind (hC.accept _) fun _ => mem_ite ?_ (hC.pure false)
  refine hC.bind hc fun _ => hC.bind (hC.label .newLabel trivial) fun _ => ?_
  exact hC.bind (hC.label (.branchIfFalse _) trivial) fun _ => hC.bind (hC.required hs) fun _ =>
    hC.bind (hC.alternative hs _) fun _ => hC.pure true

theorem roundsOf (loop : Loop) : C _ (rounds expression statement loop) := by
  have hbind (label : Label) : C _ (assemble (.bindLabel label)) :=
    hC.label (.bindLabel label) trivial
  refine hC.bind (hbind _) fun _ => hC.bind hc fun _ => ?_
  refine hC.bind (hC.label (.branchIfFalse _) trivial) fun _ => hC.bind (hC.required hs) fun _ => ?_
  exact hC.bind (hC.label (.branch _) trivial) fun _ => hC.bind (hbind _) fun _ => hC.pure ()

theorem loopOf : C _ (loop expression statement) := by
  refine hC.bind (hC.accept _) fun _ => mem_ite ?_ (hC.pure false)
  exact hC.bind (hC.label .newLabel trivial) fun _ => hC.bind (hC.label .newLabel trivial) fun _ =>
    hC.bind (hC.inLoop (hC.roundsOf hc hs _) _) fun _ => hC.pure true

end

/-- A statement that leaves a loop is in the class if stray ones may end the pass.  Whether there is
a loop to leave is only seen after the keyword. -/
theorem leaveOf (hfatal : ∀ e, C Bool (halt (.fatal e))) (word : Keyword) (stray : Stray)
    (target : Loop → Label) : C _ (leaveStatement word stray target) := by
  refine hC.bind (hC.view _) fun p => hC.bind (hC.accept _) fun _ => mem_ite ?_ (hC.pure false)
  refine hC.bind (hC.view _) fun loop => ?_
  cases loop with
  | none => exact hfatal _
  | some loop =>
    exact hC.bind (hC.expect _) fun _ =>
      hC.bind (hC.label (.branch _) trivial) fun _ => hC.pure true

end Branching

/-- A class that has the steps branches and loops are made of, including those that have to be made
even if the pass is stopped. -/
structure Labelled (C : (α : Type) → Production α → Prop) : Prop extends Sequential C where
  warn (p : Position) (w : Warning) : C _ (Production.warn p w)
  label (c : Assembler.Call) : c.Labels → C _ (Production.assemble c)
  halt {α : Type} (h : Halt) : C α (Production.halt h)
  ensuring {α : Type} {p : Production α} {last : Production Unit} :
    C _ p → C _ last → C _ (Production.ensuring p last)
  touch {g : State → State} : Touches g → C _ (modify g)
  skipUnexpected : C _ (modify State.skipUnexpected)

namespace Labelled

variable (hC : Labelled C)
include hC

theorem branching : Branching C where
  toSequential := hC.toSequential
  label := hC.label
  inLoop hs _ := hC.bind (hC.touch fun _ => ⟨_, _, _, rfl⟩) fun _ =>
    hC.ensuring hs (hC.touch fun _ => ⟨_, _, _, rfl⟩)

theorem leaveStatement (word : Keyword) (stray : Stray) (target : Loop → Label) :
    C _ (leaveStatement word stray target) :=
  hC.branching.leaveOf (fun _ => hC.halt _) word stray target

end Labelled

/-! ### Methods -/

/-- A change of the state that leaves tokens, scopes, program and reports alone.  Unlike one that
touches the state, it may change which methods are open. -/
def Adjusts (g : State → State) : Prop := ∀ s, ∃ loops methods recovering log,
  g s = { s with loops, methods, recovering, log }

theorem Touches.adjusts {g : State → State} (h : Touches g) : Adjusts g := by
  intro s
  obtain ⟨loops, recovering, log, hs⟩ := h s
  exact ⟨loops, s.methods, recovering, log, hs⟩

/-- A class that has the requests methods are made of, and is closed under methods and scopes.
Opening a scope and closing it again are not steps of it by themselves. -/
structure Enclosing (C : (α : Type) → Production α → Prop) : Prop extends Sequential C where
  assemble (c : Assembler.Call) : C _ (Production.assemble c)
  stay (c : Scopes.Call) : c.Stays → C _ (Production.scope c)
  inMethod {α : Type} {step : Production α} : C _ step → ∀ id, C _ (Production.inMethod id step)
  inScope {α : Type} {step : Production α} : C _ step → C _ (Production.inScope step)

namespace Enclosing

variable (hC : Enclosing C)
include hC

theorem attachFormals (id : MethodId) (parameters : List Formal) :
    C _ (attachFormals id parameters) := by
  induction parameters with
  | nil => exact hC.pure ()
  | cons parameter rest ih =>
    refine hC.bind ?_ fun _ => ih
    exact hC.bind (hC.assemble _) fun _ => hC.stay (.attachParameter _ _) trivial

theorem openMethod (entity : EntityId) (returnType : Ty) (name : String)
    (parameters : List Formal) :
    C _ (openMethod entity returnType name parameters) := by
  refine hC.bind (hC.assemble _) fun id => hC.bind (hC.attachFormals _ _) fun _ => ?_
  exact hC.bind (hC.stay (.attachMethod _ _ _) trivial) fun _ => hC.pure id

section

variable {item : Production Bool} (hi : C _ item) (budget : Nat) (hf : C _ (formals budget #[]))
include hi hf

theorem methodRestOf (entity : EntityId) (returnType : Ty) (name : String) :
    C _ (methodRest budget item entity returnType name) :=
  hC.bind hf fun _ => hC.bind (hC.expect _) fun _ =>
    hC.bind (hC.openMethod _ _ _ _) fun id => hC.bind (hC.inMethod (hC.body hi budget) id) fun _ =>
      hC.bind (hC.assemble .endMethod) fun _ => hC.pure ()

theorem inScopeOf (entity : EntityId) (returnType : Ty) (name : String) :
    C _ (Production.inScope (methodRest budget item entity returnType name)) :=
  hC.inScope (hC.methodRestOf hi budget hf entity returnType name)

end

end Enclosing

/-- A class that has the steps methods are made of, each by itself. -/
structure Nesting (C : (α : Type) → Production α → Prop) : Prop extends Labelled C where
  adjust {g : State → State} : Adjusts g → C _ (modify g)
  assemble (c : Assembler.Call) : C _ (Production.assemble c)
  scope (c : Scopes.Call) : C _ (Production.scope c)

theorem Nesting.enclosing (hC : Nesting C) : Enclosing C where
  toSequential := hC.toSequential
  assemble := hC.assemble
  stay c _ := hC.scope c
  inMethod hs _ := hC.bind (hC.adjust fun _ => ⟨_, _, _, _, rfl⟩) fun _ =>
    hC.ensuring hs (hC.adjust fun _ => ⟨_, _, _, _, rfl⟩)
  -- on entering and on leaving, the loops around are put aside and put back
  inScope hs := by
    refine hC.bind (hC.scope .enter) fun _ => hC.bind (hC.view _) fun loops => ?_
    refine hC.bind (hC.touch fun _ => ⟨_, _, _, rfl⟩) fun _ => hC.ensuring hs ?_
    exact hC.bind (hC.touch fun _ => ⟨_, _, _, rfl⟩) fun _ => hC.scope .exit

/-! ### Statements -/

/-- A class that has the parts statements are made of, and is closed under the constructs with
labels and scopes of their own.  What is proved from it holds for classes that treat expressions or
declarations in a way of their own. -/
structure Statements (options : Options) (C : (α : Type) → Production α → Prop) : Prop
    extends Sequential C where
  bugStatement {statement : Production Bool} : C _ statement →
    C _ (Production.bugStatement statement)
  expression (budget : Nat) : C _ (Production.expression options budget)
  printStatement : C _ (Production.printStatement options)
  returnStatement (budget : Nat) :
    C _ (Production.returnStatement (Production.expression options budget))
  conditional {statement : Production Bool} (hs : C _ statement) (budget : Nat) :
    C _ (Production.conditional (Production.expression options budget) statement)
  loop {statement : Production Bool} (hs : C _ statement) (budget : Nat) :
    C _ (Production.loop (Production.expression options budget) statement)
  leaveBreak : options.stopStatements = true → C _ (leaveStatement .break .break Loop.breakLabel)
  leaveContinue : options.stopStatements = true →
    C _ (leaveStatement .continue .continue Loop.continueLabel)
  declarationForm {item : Production Bool} : C _ item → ∀ budget,
    C _ (Production.declarationForm budget item)
  settle : C _ (modify fun s => { s with recovering := false })
  skipUnexpected : C _ (modify State.skipUnexpected)

namespace Statements

variable {options : Options} (hC : Statements options C)
include hC

theorem mem_statementForms {statement item : Production Bool} (hs : C _ statement)
    (hi : C _ item) (budget depth : Nat) :
    ∀ form ∈ statementForms options budget (Production.expression options depth) statement item,
      C _ form := by
  intro form hform
  rcases List.mem_append.mp hform with hform | hform
  · simp only [List.mem_cons, List.not_mem_nil, or_false] at hform
    rcases hform with rfl | rfl | rfl | rfl | rfl | rfl | rfl
    · exact hC.block hi budget
    · exact hC.conditional hs depth
    · exact hC.loop hs depth
    · exact hC.expressionStatement (hC.expression depth)
    · exact hC.accept _
    · exact hC.printStatement
    · exact hC.bugStatement hs
  · -- the statements that leave something are only among the forms if the options have them
    split at hform
    · next hstop =>
      simp only [stopStatements, List.mem_cons, List.not_mem_nil, or_false] at hform
      rcases hform with rfl | rfl | rfl
      · exact hC.returnStatement depth
      · exact hC.leaveBreak hstop
      · exact hC.leaveContinue hstop
    · simp at hform

theorem itemOf {declaration statement : Production Bool} (hd : C _ declaration)
    (hs : C _ statement) : C _ (itemOf declaration statement) := by
  refine hC.bind hC.settle fun _ => hC.firstOf fun form hform => ?_
  simp only [List.mem_cons, List.not_mem_nil, or_false] at hform
  rcases hform with rfl | rfl
  · exact hd
  · exact hs

/-- The class has every declaration and every statement.  The two are proved together, since a
method contains statements, and a block declarations. -/
theorem declaration_and_statement (budget : Nat) :
    C _ (declaration options budget) ∧ C _ (statement options budget) := by
  -- by induction on the budget, which goes down for what stands within a declaration or a statement
  induction budget with
  | zero =>
    simp only [declaration, statement]
    exact ⟨hC.pure false, hC.pure false⟩
  | succ budget ih =>
    have hitem := hC.itemOf ih.1 ih.2
    simp only [declaration, statement]
    exact ⟨hC.declarationForm hitem budget,
      hC.firstOf (hC.mem_statementForms ih.2 hitem budget (budget + 1))⟩

theorem item (budget : Nat) : C _ (item options budget) :=
  hC.itemOf (hC.declaration_and_statement budget).1 (hC.declaration_and_statement budget).2

/-- The class has every list of items, and with it a whole program. -/
theorem items (budget count : Nat) : C _ (items (Production.item options budget) count) := by
  induction count with
  | zero => exact hC.pure ()
  | succ count ih =>
    refine hC.bind (hC.view _) fun _ => mem_ite (hC.pure ()) (hC.bind ?_ fun _ => ih)
    exact hC.bind (hC.item budget) fun _ => mem_ite (hC.pure ()) hC.skipUnexpected

end Statements

/-! ### Errors at any position -/

/-- A class that also has the errors at all positions, so that it does not matter which ones have
been saved. -/
structure Closed (C : (α : Type) → Production α → Prop) : Prop extends Sequential C where
  errorAt (p : Position) (e : ParseError) : C Unit (Production.errorAt p e)

namespace Closed

variable (hC : Closed C)
include hC

theorem placed : Placed fun _ => C where
  sequential _ := hC.toSequential
  -- saving a position is only looking at the state
  position hf := hC.bind (hC.view _) hf
  errorAt _ e := hC.errorAt _ e

theorem check (well : Bool) (p : Position) (e : ParseError) : C Unit (check well p e) :=
  hC.placed.check (List.mem_singleton_self p) well e

theorem checkFresh (kind : DeclarationKind) (name : String) (p : Position) :
    C _ (checkFresh kind name p) :=
  hC.placed.checkFresh (List.mem_singleton_self p) kind name

theorem binaryType (p : Position) (operator : Symbol) (left right : Ty) :
    C Ty (binaryType p operator left right) :=
  hC.placed.binaryType (List.mem_singleton_self p) operator left right

theorem signedType (p : Position) (sign : Symbol) (ty : Ty) : C Ty (signedType p sign ty) :=
  hC.placed.signedType (List.mem_singleton_self p) sign ty

theorem chain {ω : Type} {operators : Operators ω}
    (ho : ∀ op ty, (operators.operation op ty).Simple) {level : Production (Option Ty)}
    (hl : C _ level) (budget : Nat) (left : Ty) : C Ty (chain operators level budget left) :=
  hC.placed.chain ho (fun _ => hl) budget left []

section

variable {level : Production (Option Ty)} (hl : C _ level) (budget : Nat)
include hl

theorem multiplicative : C _ (multiplicative budget level) :=
  hC.placed.multiplicative (fun _ => hl) budget []

theorem firstTerm : C _ (firstTerm budget level) := hC.placed.firstTerm (fun _ => hl) budget []

theorem comparison (left : Ty) : C _ (comparison budget level left) :=
  hC.placed.comparison (fun _ => hl) budget left []

end

section

variable {expression : Production (Option Ty)} (he : C _ expression)
include he

theorem expressionOf (expected : Ty) (mismatch : Ty → ParseError) :
    C Unit (expressionOf expected mismatch expression) :=
  hC.placed.expressionOf (fun _ => he) [] expected mismatch

theorem condition : C Unit (condition expression) := hC.placed.condition (fun _ => he) []

theorem returnValue (expected : Ty) : C Unit (returnValue expression expected) :=
  hC.placed.returnValue (fun _ => he) [] expected

theorem returnStatement : C Bool (returnStatement expression) := hC.returnOf (hC.returnValue he)

end

end Closed

/-! ### All productions -/

/-- A class that also has what the names of a source stand for, and is closed under the constructs
with labels and scopes of their own.  It has all productions of the grammar. -/
structure Grammar (options : Options) (C : (α : Type) → Production α → Prop) : Prop
    extends Closed C where
  bugStatement {statement : Production Bool} : C _ statement →
    C _ (Production.bugStatement statement)
  named {expression : Production (Option Ty)} :
    C _ expression → ∀ name p, C _ (Production.named options expression name p)
  printNamed (name : String) (p : Position) : C _ (Production.printNamed options name p)
  conditional {expression : Production (Option Ty)} {statement : Production Bool} :
    C _ expression → C _ statement → C _ (Production.conditional expression statement)
  loop {expression : Production (Option Ty)} {statement : Production Bool} :
    C _ expression → C _ statement → C _ (Production.loop expression statement)
  leaveBreak : options.stopStatements = true → C _ (leaveStatement .break .break Loop.breakLabel)
  leaveContinue : options.stopStatements = true →
    C _ (leaveStatement .continue .continue Loop.continueLabel)
  declarationForm {item : Production Bool} : C _ item → ∀ budget,
    C _ (Production.declarationForm budget item)
  settle : C _ (modify fun s => { s with recovering := false })
  skipUnexpected : C _ (modify State.skipUnexpected)

namespace Grammar

variable {options : Options} (hC : Grammar options C)
include hC

theorem expressions : Expressions options fun _ => C where
  toPlaced := hC.placed
  named he _ name := hC.named (he []) name _
  printNamed _ name := hC.printNamed name _

theorem primary {expression : Production (Option Ty)} (he : C _ expression) :
    C _ (primary options expression) := hC.expressions.primary (fun _ => he) []

theorem expression (budget : Nat) : C _ (expression options budget) :=
  hC.expressions.expression budget []

theorem printArgument : C _ (printArgument options) := hC.expressions.printArgument []

theorem printStatement : C _ (printStatement options) := hC.expressions.printStatement []

theorem statements : Statements options C where
  toSequential := hC.toSequential
  bugStatement := hC.bugStatement
  expression := hC.expression
  printStatement := hC.printStatement
  returnStatement budget := hC.returnStatement (hC.expression budget)
  conditional hs budget := hC.conditional (hC.expression budget) hs
  loop hs budget := hC.loop (hC.expression budget) hs
  leaveBreak := hC.leaveBreak
  leaveContinue := hC.leaveContinue
  declarationForm := hC.declarationForm
  settle := hC.settle
  skipUnexpected := hC.skipUnexpected

theorem itemOf {declaration statement : Production Bool} (hd : C _ declaration)
    (hs : C _ statement) : C _ (itemOf declaration statement) := hC.statements.itemOf hd hs

theorem declaration_and_statement (budget : Nat) :
    C _ (declaration options budget) ∧ C _ (statement options budget) :=
  hC.statements.declaration_and_statement budget

theorem item (budget : Nat) : C _ (item options budget) := hC.statements.item budget

theorem items (budget count : Nat) : C _ (items (Production.item options budget) count) :=
  hC.statements.items budget count

end Grammar

/-- A class with the steps of branches and loops has every production if it has the errors at all
positions, the names and the declarations.  These are what classes differ in. -/
theorem Labelled.grammar (hC : Labelled C) (hC' : Closed C) {options : Options}
    (hn : ∀ {expression : Production (Option Ty)}, C _ expression → ∀ name p,
      C _ (named options expression name p))
    (hp : ∀ name p, C _ (printNamed options name p))
    (hd : ∀ {item : Production Bool}, C _ item → ∀ budget, C _ (declarationForm budget item)) :
    Grammar options C where
  toClosed := hC'
  bugStatement := hC.toSequential.bugStatement hC.warn
  named := hn
  printNamed := hp
  conditional he hs := hC.branching.conditionalOf (hC'.condition he) hs
  loop he hs := hC.branching.loopOf (hC'.condition he) hs
  leaveBreak _ := hC.leaveStatement _ _ _
  leaveContinue _ := hC.leaveStatement _ _ _
  declarationForm := hd
  settle := hC.touch fun _ => ⟨_, _, _, rfl⟩
  skipUnexpected := hC.skipUnexpected

/-! ### Classes with the requests that declare nothing -/

/-- A class that has every request to the assembler that declares nothing, whatever it answers.  It
may have the steps of a method or not. -/
structure Calm (C : (α : Type) → Production α → Prop) : Prop extends Closed C where
  warn (p : Position) (w : Warning) : C _ (Production.warn p w)
  quiet (c : Assembler.Call) : c.Quiet → C _ (Production.assemble c)
  halt {α : Type} (h : Halt) : C α (Production.halt h)
  ensuring {α : Type} {p : Production α} {last : Production Unit} :
    C _ p → C _ last → C _ (Production.ensuring p last)
  adjust {g : State → State} : Adjusts g → C _ (modify g)
  skipUnexpected : C _ (modify State.skipUnexpected)

namespace Calm

variable (hC : Calm C)
include hC

theorem labelled : Labelled C where
  toSequential := hC.toSequential
  warn := hC.warn
  label c hc := hC.quiet c hc.quiet
  halt := hC.halt
  ensuring := hC.ensuring
  touch hg := hC.adjust hg.adjusts
  skipUnexpected := hC.skipUnexpected

theorem naming : Naming fun _ => C where
  toPlaced := hC.placed
  quiet := hC.quiet
  note _ := hC.adjust fun _ => ⟨_, _, _, _, rfl⟩

theorem load (options : Options) (entity : Entity) (name : String) (p : Position) :
    C _ (load options entity name p) :=
  hC.naming.load (List.mem_singleton_self p) options entity name

theorem store (entity : Entity) (name : String) (p : Position) (value : Ty)
    (valuePosition : Position) : C _ (store entity name p value valuePosition) :=
  hC.naming.store (List.mem_cons_self : p ∈ [p, valuePosition]) (by simp) entity name value

theorem named (options : Options) {expression : Production (Option Ty)} (he : C _ expression)
    (name : String) (p : Position) : C _ (named options expression name p) :=
  hC.naming.named (List.mem_singleton_self p) options (fun _ => he) name

section

variable {expression : Production (Option Ty)} {statement : Production Bool}
  (he : C _ expression) (hs : C _ statement)
include he hs

theorem conditional : C _ (conditional expression statement) :=
  hC.labelled.branching.conditionalOf (hC.condition he) hs

theorem rounds (loop : Loop) : C _ (rounds expression statement loop) :=
  hC.labelled.branching.roundsOf (hC.condition he) hs loop

theorem loop : C _ (loop expression statement) := hC.labelled.branching.loopOf (hC.condition he) hs

end

theorem alternative {statement : Production Bool} (hs : C _ statement) (otherwise : Label) :
    C _ (alternative statement otherwise) := hC.labelled.branching.alternative hs otherwise

theorem inLoop {α : Type} {step : Production α} (hs : C _ step) (loop : Loop) :
    C _ (inLoop loop step) := hC.labelled.branching.inLoop hs loop

theorem leaveStatement (word : Keyword) (stray : Stray) (target : Loop → Label) :
    C _ (leaveStatement word stray target) := hC.labelled.leaveStatement word stray target

/-- Such a class has every production if it has the declarations, which is where something is
declared. -/
theorem grammar (options : Options)
    (hd : ∀ {item : Production Bool}, C _ item → ∀ budget, C _ (declarationForm budget item)) :
    Grammar options C :=
  hC.labelled.grammar hC.toClosed (hC.named options)
    (fun name p => hC.naming.printNamed (List.mem_singleton_self p) options name) hd

end Calm

/-! ### Classes that are closed under whole constructs -/

/-- A class that has every call but those that open and close scopes, and is closed under the
constructs that change the state for a step and change it back behind it.  So it can be a class of
productions that leave something unchanged. -/
structure Bracketed (C : (α : Type) → Production α → Prop) : Prop
    extends Closed C, Enclosing C where
  inLoop {α : Type} {step : Production α} : C _ step → ∀ loop, C _ (Production.inLoop loop step)
  bugStatement {statement : Production Bool} : C _ statement →
    C _ (Production.bugStatement statement)
  note (log : State → Array Event) : C _ (modify fun s => { s with log := log s })
  broken {α : Type} (f : Fault) : C α (halt (.broken f))
  settle : C _ (modify fun s => { s with recovering := false })
  skipUnexpected : C _ (modify State.skipUnexpected)

namespace Bracketed

variable (hC : Bracketed C)
include hC

theorem branching : Branching C where
  toSequential := hC.toSequential
  label c _ := hC.assemble c
  inLoop := hC.inLoop

theorem naming : Naming fun _ => C where
  toPlaced := hC.placed
  quiet c _ := hC.assemble c
  note := hC.note

theorem declaring : Declaring fun _ => C where
  toPlaced := hC.placed
  declareLocal name ty := hC.bind (hC.assemble (.declareLocal name ty)) fun _ =>
    hC.bind (hC.stay (.declareLocal name ty _) trivial) fun _ => hC.pure ()
  declareParameter name ty ordinal := hC.stay (.declareParameter name ty ordinal) trivial
  broken := hC.broken

theorem formals (budget : Nat) (done : Array Formal) : C _ (formals budget done) :=
  hC.declaring.formals budget done []

section

variable {item : Production Bool} (hi : C _ item) (budget : Nat)
include hi

theorem method (returnType : Ty) (name : String) (p : Position) :
    C _ (method budget item returnType name p) := by
  refine hC.bind (hC.checkFresh _ _ _) fun _ =>
    hC.bind (hC.stay (.declareMethod name returnType) trivial) fun _ => ?_
  exact hC.inScopeOf hi budget (hC.formals budget #[]) _ _ _

theorem declarationRest (ty : Ty) (name : String) (p : Position) :
    C _ (declarationRest budget item ty name p) :=
  hC.bind (hC.accept _) fun _ => mem_ite (hC.method hi budget ty name p)
    (hC.declaring.field (List.mem_singleton_self p) ty name)

theorem declarationOf (ty : Ty) : C _ (declarationOf budget item ty) := by
  refine hC.bind (hC.view _) fun p => hC.bind (hC.accept? _) fun name => ?_
  cases name with
  | none => exact hC.error _
  | some name => exact hC.declarationRest hi budget ty name p

theorem declarationForm : C _ (declarationForm budget item) := by
  refine hC.bind (hC.accept? _) fun ty => ?_
  cases ty with
  | none => exact hC.pure false
  | some ty => exact hC.bind (hC.declarationOf hi budget ty) fun _ => hC.pure true

end

/-- Such a class has every production if it has the statements that leave a loop, which may end the
pass without changing anything back. -/
theorem grammar {options : Options}
    (hbreak : options.stopStatements = true → C _ (leaveStatement .break .break Loop.breakLabel))
    (hcontinue : options.stopStatements = true →
      C _ (leaveStatement .continue .continue Loop.continueLabel)) : Grammar options C where
  toClosed := hC.toClosed
  bugStatement := hC.bugStatement
  named he name p := hC.naming.named (List.mem_singleton_self p) options (fun _ => he) name
  printNamed name p := hC.naming.printNamed (List.mem_singleton_self p) options name
  conditional he hs := hC.branching.conditionalOf (hC.condition he) hs
  loop he hs := hC.branching.loopOf (hC.condition he) hs
  leaveBreak := hbreak
  leaveContinue := hcontinue
  declarationForm hi budget := hC.declarationForm hi budget
  settle := hC.settle
  skipUnexpected := hC.skipUnexpected

end Bracketed

/-! ### Classes with every call -/

/-- A class that has every call to the assembler and to the scopes, whatever it answers.  This is
the case for most invariants: each call preserves them. -/
structure Fine (C : (α : Type) → Production α → Prop) : Prop extends Calm C where
  assemble (c : Assembler.Call) : C _ (Production.assemble c)
  scope (c : Scopes.Call) : C _ (Production.scope c)

namespace Fine

variable (hC : Fine C)
include hC

theorem nesting : Nesting C where
  toLabelled := hC.labelled
  adjust := hC.adjust
  assemble := hC.assemble
  scope := hC.scope

theorem bracketed : Bracketed C where
  toClosed := hC.toClosed
  assemble := hC.assemble
  stay c _ := hC.scope c
  inLoop := hC.labelled.branching.inLoop
  inMethod := hC.nesting.enclosing.inMethod
  inScope := hC.nesting.enclosing.inScope
  bugStatement := hC.toSequential.bugStatement hC.warn
  note _ := hC.adjust fun _ => ⟨_, _, _, _, rfl⟩
  broken f := hC.halt (.broken f)
  settle := hC.adjust fun _ => ⟨_, _, _, _, rfl⟩
  skipUnexpected := hC.skipUnexpected

theorem field (ty : Ty) (name : String) (p : Position) : C _ (field ty name p) :=
  hC.bracketed.declaring.field (List.mem_singleton_self p) ty name

theorem formalOf (ty : Ty) (ordinal : Nat) : C _ (formalOf ty ordinal) :=
  hC.bracketed.declaring.formalOf ty ordinal []

theorem formal (ordinal : Nat) : C _ (formal ordinal) := hC.bracketed.declaring.formal ordinal []

theorem formals (budget : Nat) (done : Array Formal) : C _ (formals budget done) :=
  hC.bracketed.formals budget done

theorem openMethod (entity : EntityId) (returnType : Ty) (name : String)
    (parameters : List Formal) :
    C _ (openMethod entity returnType name parameters) :=
  hC.nesting.enclosing.openMethod entity returnType name parameters

section

variable {item : Production Bool} (hi : C _ item) (budget : Nat)
include hi

theorem inMethod (id : MethodId) : C _ (inMethod id (body budget item)) :=
  hC.nesting.enclosing.inMethod (hC.body hi budget) id

theorem methodRest (entity : EntityId) (returnType : Ty) (name : String) :
    C _ (methodRest budget item entity returnType name) :=
  hC.nesting.enclosing.methodRestOf hi budget (hC.formals budget #[]) entity returnType name

theorem inScope (entity : EntityId) (returnType : Ty) (name : String) :
    C _ (inScope (Production.methodRest budget item entity returnType name)) :=
  hC.nesting.enclosing.inScopeOf hi budget (hC.formals budget #[]) entity returnType name

theorem declarationOf (ty : Ty) : C _ (declarationOf budget item ty) :=
  hC.bracketed.declarationOf hi budget ty

theorem declarationForm : C _ (declarationForm budget item) :=
  hC.bracketed.declarationForm hi budget

end

/-- A class with every call has every production. -/
theorem grammar (options : Options) : Grammar options C :=
  hC.toCalm.grammar options fun hi budget => hC.declarationForm hi budget

end Fine

end Production

end OnePass
