import OnePass.Proofs.Translation

/-!
# Trees that are in order

When a tree is well scoped and well typed, said by rules that know nothing of code,
slots and offsets.  Only methods open scopes, so what a statement declares is known in
all that follows it in its method.  Every tree that is in order stands for a program,
and every source that is read into its tokens, fully punctuated, compiles to it.

## Main definitions

* `Frame` — what the names declared in one scope mean.
* `Loads`, `Stores` — which names can be used.
* `Expr.HasType` — the type of an expression.
* `Stmt.Checks`, `Item.Checks`, `Items.Checks` — a tree is in order, and leaves a frame.
* `Items.InOrder` — a whole program is in order.

## Main results

* `Items.inOrder_iff` — **exactly the trees in order stand for programs**.
* `compile_of_inOrder` — **every source of a tree in order compiles to its program**.
-/

namespace OnePass

/-! ### Names in scope -/

/-- What a declared name means.  Nothing is said about where its value is kept. -/
inductive Meaning
  | variable (ty : Ty)
  | parameter (ty : Ty)
  | method
  deriving DecidableEq, Repr

/-- What the names declared in one scope mean.  The predefined types are in no frame, as they have
no value. -/
abbrev Frame := String → Option Meaning

namespace Frame

/-- The frame of a scope that declares nothing. -/
def empty : Frame := fun _ => none

/-- Declares a name.  The rules only do so if it is not declared yet. -/
def declare (frame : Frame) (x : String) (m : Meaning) : Frame := fun y =>
  if y = x then some m else frame y

/-- Declares the parameters of a method. -/
def declareParameters (frame : Frame) (parameters : List Declarator) : Frame :=
  parameters.foldl (fun frame d => frame.declare d.name (.parameter d.type.ty)) frame

end Frame

/-- In the given scopes, the innermost first, a name is declared by a scope inside of `outer`,
and by none of the scopes `inner` inside of that one. -/
def Finds (scopes : List Frame) (x : String) (inner : List Frame) (m : Meaning)
    (outer : List Frame) : Prop :=
  ∃ frame, scopes = inner ++ frame :: outer ∧ (∀ f ∈ inner, f x = none) ∧ frame x = some m

/-- A value can be stored under a name: it means a variable of the method around, whose scope is
the innermost one, or of the entry method, whose scope is the outermost one. -/
def Stores (scopes : List Frame) (x : String) (ty : Ty) : Prop :=
  ∃ inner outer, Finds scopes x inner (.variable ty) outer ∧ (inner = [] ∨ outer = [])

/-- A name has a value: it means such a variable, or a parameter of the method around. -/
def Loads (scopes : List Frame) (x : String) (ty : Ty) : Prop :=
  Stores scopes x ty ∨ ∃ outer, Finds scopes x [] (.parameter ty) outer

/-! ### Rules -/

/-- The type of an expression.  An assignment is of type `void`, so that it can be no operand that
is computed with. -/
inductive Expr.HasType (scopes : List Frame) : {r : Rung} → Expr r → Ty → Prop
  | number {value : Nat} : HasType scopes (.number value) .int
  | boolean {value : Bool} : HasType scopes (.boolean value) .bool
  | name {x : String} {ty : Ty} : Loads scopes x ty → HasType scopes (.name x) ty
  | assign {x : String} {value : Expr .relation} {target found : Ty} :
    HasType scopes value found → Stores scopes x target → target.accepts found = true →
    HasType scopes (.assign x value) .void
  | factor {e : Expr .primary} {ty : Ty} : HasType scopes e ty → HasType scopes (.factor e) ty
  | product {left : Expr .term} {op : MultiplicativeOp} {right : Expr .primary} {tl tr ty : Ty} :
    HasType scopes left tl → HasType scopes right tr → Ty.binary? op.symbol tl tr = some ty →
    HasType scopes (.product left op right) ty
  | unsigned {e : Expr .term} {ty : Ty} : HasType scopes e ty → HasType scopes (.unsigned e) ty
  | signed {sign : Sign} {e : Expr .term} {operand ty : Ty} :
    HasType scopes e operand → Ty.unary? operand = some ty → HasType scopes (.signed sign e) ty
  | first {e : Expr .signed} {ty : Ty} : HasType scopes e ty → HasType scopes (.first e) ty
  | sum {left : Expr .sum} {op : AdditiveOp} {right : Expr .term} {tl tr ty : Ty} :
    HasType scopes left tl → HasType scopes right tr → Ty.binary? op.symbol tl tr = some ty →
    HasType scopes (.sum left op right) ty
  | single {e : Expr .sum} {ty : Ty} : HasType scopes e ty → HasType scopes (.single e) ty
  | comparison {left : Expr .sum} {op : ComparisonOp} {right : Expr .sum} {tl tr : Ty} :
    HasType scopes left tl → HasType scopes right tr → tl.comparable tr = true →
    HasType scopes (.comparison left op right) .bool

/-- What is known of the method around a statement, and whether there is a loop around it within
that method.  This is what statements that leave something depend on. -/
structure Place where
  returnType : Ty
  inLoop : Bool

mutual

/-- A statement is in order where the scopes outside of the method around it are `outer`, and makes
the first frame of that method's scope the second one.  Blocks have no scope of their own, so what
is declared in one is known behind it. -/
inductive Stmt.Checks : Place → (outer : List Frame) → Frame → Stmt → Frame → Prop
  | block {place : Place} {outer : List Frame} {frame frame' : Frame} {items : Items} :
    Items.Checks place outer frame items frame' →
    Stmt.Checks place outer frame (.block items) frame'
  | branch {place : Place} {outer : List Frame} {frame frame' : Frame} {condition : Expr .relation}
      {found : Ty} {body : Stmt} :
    condition.HasType (frame :: outer) found → Ty.bool.accepts found = true →
    Stmt.Checks place outer frame body frame' →
    Stmt.Checks place outer frame (.branch condition body) frame'
  | choice {place : Place} {outer : List Frame} {frame frame₁ frame' : Frame}
      {condition : Expr .relation} {found : Ty} {body other : Stmt} :
    condition.HasType (frame :: outer) found → Ty.bool.accepts found = true →
    Stmt.Checks place outer frame body frame₁ → Stmt.Checks place outer frame₁ other frame' →
    Stmt.Checks place outer frame (.choice condition body other) frame'
  | loop {place : Place} {outer : List Frame} {frame frame' : Frame} {condition : Expr .relation}
      {found : Ty} {body : Stmt} :
    condition.HasType (frame :: outer) found → Ty.bool.accepts found = true →
    Stmt.Checks { place with inLoop := true } outer frame body frame' →
    Stmt.Checks place outer frame (.loop condition body) frame'
  | expression {place : Place} {outer : List Frame} {frame : Frame} {e : Expr .relation} {ty : Ty} :
    e.HasType (frame :: outer) ty → Stmt.Checks place outer frame (.expression e) frame
  | empty {place : Place} {outer : List Frame} {frame : Frame} :
    Stmt.Checks place outer frame .empty frame
  | printNothing {place : Place} {outer : List Frame} {frame : Frame} :
    Stmt.Checks place outer frame (.print none) frame
  | print {place : Place} {outer : List Frame} {frame : Frame} {x : String} {ty : Ty} :
    Loads (frame :: outer) x ty → Stmt.Checks place outer frame (.print (some x)) frame
  | bug {place : Place} {outer : List Frame} {frame frame' : Frame} {body : Stmt} :
    Stmt.Checks place outer frame body frame' → Stmt.Checks place outer frame (.bug body) frame'
  | ret {place : Place} {outer : List Frame} {frame : Frame} : place.returnType = .void →
    Stmt.Checks place outer frame (.ret none) frame
  | retValue {place : Place} {outer : List Frame} {frame : Frame} {e : Expr .relation}
      {found : Ty} :
    place.returnType ≠ .void → e.HasType (frame :: outer) found →
    place.returnType.accepts found = true → Stmt.Checks place outer frame (.ret (some e)) frame
  | leave {place : Place} {outer : List Frame} {frame : Frame} {exit : Exit} :
    place.inLoop = true → Stmt.Checks place outer frame (.leave exit) frame

/-- The same for an item.  The name of a method is known in its own body; its parameters and all
that the body declares are not known outside of it. -/
inductive Item.Checks : Place → (outer : List Frame) → Frame → Item → Frame → Prop
  | field {place : Place} {outer : List Frame} {frame : Frame} {type : TypeName} {x : String} :
    frame x = none → type.ty ≠ .void →
    Item.Checks place outer frame (.field type x) (frame.declare x (.variable type.ty))
  | method {place : Place} {outer : List Frame} {frame frame' : Frame} {type : TypeName}
      {x : String}
      {parameters : List Declarator} {comma : Bool} {body : Items} :
    frame x = none → (∀ d ∈ parameters, d.type.ty ≠ .void) →
    (parameters.map Declarator.name).Nodup → parameters.length ≤ Method.maxParameters →
    (comma = true → parameters ≠ []) →
    Items.Checks ⟨type.ty, false⟩ (frame.declare x .method :: outer)
      (Frame.empty.declareParameters parameters) body frame' →
    Item.Checks place outer frame (.method type x parameters comma body) (frame.declare x .method)
  | statement {place : Place} {outer : List Frame} {frame frame' : Frame} {s : Stmt} :
    Stmt.Checks place outer frame s frame' → Item.Checks place outer frame (.statement s) frame'

/-- The same for a statement list. -/
inductive Items.Checks : Place → (outer : List Frame) → Frame → Items → Frame → Prop
  | nil {place : Place} {outer : List Frame} {frame : Frame} :
    Items.Checks place outer frame .nil frame
  | cons {place : Place} {outer : List Frame} {frame frame₁ frame' : Frame} {item : Item}
      {rest : Items} :
    Item.Checks place outer frame item frame₁ → Items.Checks place outer frame₁ rest frame' →
    Items.Checks place outer frame (.cons item rest) frame'

end

/-- A whole program is in order: its items are, at the beginning of the entry method, which returns
nothing. -/
def Items.InOrder (items : Items) : Prop :=
  ∃ frame, items.Checks ⟨.void, false⟩ [] .empty frame

/-! ### Frames and bindings -/

/-- A binding is one of the given meaning, with a slot of the given method.  Which slot it is does
not matter. -/
def Meaning.Fits (owner : MethodId) : Meaning → Binding → Prop
  | .variable ty, b => ∃ slot : LocalSlot, b = .variable ty slot ∧ slot.method = owner
  | .parameter ty, b => ∃ slot : ParameterSlot, b = .parameter ty slot ∧ slot.method = owner
  | .method, b => b = .inert

/-- The names of a scope are the ones of the frame, and there are no others. -/
def Frame.Fits (owner : MethodId) (frame : Frame) (names : Names) : Prop :=
  ∀ x, (frame x = none → names x = none) ∧
    ∀ m, frame x = some m → ∃ b, names x = some b ∧ m.Fits owner b

/-- The names of all scopes are the ones of the frames, apart from the predefined ones.  Each scope
is that of a method, which owns what is declared there. -/
inductive FramesFit : List MethodId → List Frame → List Names → Prop
  | predefined : FramesFit [] [] [.predefined]
  | cons {owner : MethodId} {owners : List MethodId} {frame : Frame} {frames : List Frame}
      {names : Names} {namess : List Names} :
    frame.Fits owner names → FramesFit owners frames namess →
    FramesFit (owner :: owners) (frame :: frames) (names :: namess)

theorem Frame.Fits.declare {owner : MethodId} {frame : Frame} {names : Names}
    (h : frame.Fits owner names) {x : String} {m : Meaning} {b : Binding} (hb : m.Fits owner b) :
    (frame.declare x m).Fits owner (names.declare x b) := by
  intro y
  unfold Frame.declare Names.declare
  by_cases hy : y = x
  · simpa [hy] using hb
  · simpa [hy] using h y

/-- The parameters of a method fit their slots. -/
theorem Frame.Fits.declareParameters {owner : MethodId} : ∀ {frame : Frame} {names : Names}
    (parameters : List Declarator) (n : Nat), frame.Fits owner names →
    (frame.declareParameters parameters).Fits owner (names.declareAll ((parameters.zipIdx n).map
      fun p => (p.1.name, .parameter p.1.type.ty ⟨owner, p.2 + 1⟩)))
  | _, _, [], _, h => h
  | _, _, d :: parameters, n, h =>
    Frame.Fits.declareParameters parameters (n + 1)
      (h.declare (x := d.name) (m := .parameter d.type.ty) ⟨⟨owner, n + 1⟩, rfl, rfl⟩)

theorem FramesFit.length_eq {owners : List MethodId} {frames : List Frame} {names : List Names}
    (h : FramesFit owners frames names) : owners.length = frames.length := by
  induction h with
  | predefined => rfl
  | cons _ _ ih => simp [ih]

/-- The innermost scope that declares a name tells what it means, and its place among the scopes
tells which method owns it. -/
theorem FramesFit.find {x : String} {m : Meaning} {inner outer : List Frame} {frame : Frame}
    (hinner : ∀ f ∈ inner, f x = none) (hm : frame x = some m) :
    ∀ {owners : List MethodId} {names : List Names},
      FramesFit owners (inner ++ frame :: outer) names →
      ∃ owner b, names.findSome? (· x) = some b ∧ m.Fits owner b ∧
        owners[inner.length]? = some owner ∧ owners.length = inner.length + 1 + outer.length := by
  -- by induction on the scopes that do not declare the name
  induction inner with
  | nil =>
    intro owners names h
    cases h with
    | @cons owner owners _ _ names namess hfits hrest =>
      obtain ⟨b, hb, hmb⟩ := (hfits x).2 m hm
      refine ⟨owner, b, by simp [hb], hmb, rfl, ?_⟩
      simp [hrest.length_eq, Nat.add_comm]
  | cons f inner ih =>
    intro owners names h
    obtain ⟨hf, hinner⟩ := List.forall_mem_cons.mp hinner
    cases h with
    | @cons owner owners _ _ names namess hfits hrest =>
      obtain ⟨owner', b, hb, hmb, howner, hlength⟩ := ih hinner hrest
      refine ⟨owner', b, by simp [(hfits x).1 hf, hb], hmb, howner, ?_⟩
      simp only [List.length_cons, hlength]
      omega

/-- The predefined names have no values, so they can neither be loaded nor stored. -/
theorem Names.eq_inert_of_predefined {x : String} {b : Binding}
    (h : Names.predefined x = some b) : b = .inert := by
  unfold Names.predefined at h
  split at h
  · exact (Option.some.inj h).symm
  · cases h

/-- A name that is found is predefined, or declared by a scope.  This is the converse of the lemma
before. -/
theorem FramesFit.exists_finds {owners : List MethodId} {scopes : List Frame} {names : List Names}
    (h : FramesFit owners scopes names) {x : String} {b : Binding}
    (hb : names.findSome? (· x) = some b) : b = .inert ∨ ∃ inner m outer owner,
      Finds scopes x inner m outer ∧ m.Fits owner b ∧ owners[inner.length]? = some owner := by
  induction h with
  | predefined => exact .inl (Names.eq_inert_of_predefined (by simpa using hb))
  | @cons owner owners frame frames names namess hfits _ ih =>
    rw [List.findSome?_cons] at hb
    cases hx : frame x with
    | none =>
      rw [(hfits x).1 hx] at hb
      rcases ih hb with hinert | ⟨inner, m, outer, owner', ⟨f, rfl, hinner, hm⟩, hfit, howner⟩
      · exact .inl hinert
      · exact .inr ⟨frame :: inner, m, outer, owner',
          ⟨f, rfl, List.forall_mem_cons.mpr ⟨hx, hinner⟩, hm⟩, hfit, howner⟩
    | some m =>
      obtain ⟨b', hb', hfit⟩ := (hfits x).2 m hx
      rw [hb'] at hb
      obtain rfl := Option.some.inj hb
      exact .inr ⟨[], m, frames, owner, ⟨frame, rfl, by simp, hx⟩, hfit, rfl⟩

/-- A name that is declared among others is one of them, or was known before. -/
theorem Names.mem_of_declareAll {bs : List (String × Binding)} {names : Names} {x : String}
    {b : Binding} (h : names.declareAll bs x = some b) : (x, b) ∈ bs ∨ names x = some b := by
  induction bs generalizing names with
  | nil => exact .inr h
  | cons p bs ih =>
    rcases ih h with hbs | hnames
    · exact .inl (.tail _ hbs)
    · have hnames : (if x = p.1 then some p.2 else names x) = some b := hnames
      split at hnames
      · next hx =>
        refine .inl (List.mem_cons.mpr (.inl ?_))
        rw [hx, ← Option.some.inj hnames]
      · exact .inr hnames

/-- The parameters of a method have values. -/
theorem Declarator.valued_of_bindings {parameters : List Declarator}
    (hvoid : ∀ d ∈ parameters, d.type.ty ≠ .void) {method : MethodId} {x : String} {b : Binding}
    (h : Names.none.declareAll (Declarator.bindings method parameters) x = some b) : b.Valued := by
  rcases Names.mem_of_declareAll h with hb | hnone
  · obtain ⟨⟨d, i⟩, hd, heq⟩ := List.mem_map.mp hb
    obtain ⟨-, rfl⟩ := Prod.mk.inj heq
    exact ⟨hvoid d (List.fst_mem_of_mem_zipIdx hd), d.type.ty_ne_unknown⟩
  · cases hnone

/-! ### Sites -/

/-- A site is one where the given scopes are open, names have their declared types, and stop
statements are enabled.  The methods that own the scopes have smaller numbers further out, down to
the entry method. -/
structure Site.Agrees (σ : Site) (place : Place) (scopes : List Frame) : Prop where
  typing : σ.options.typing = .declared
  stops : σ.options.stopStatements = true
  returnType : σ.returnType = place.returnType
  loop : σ.loop.isSome = place.inLoop
  valued : σ.Valued
  frames : ∃ owners, FramesFit (σ.method :: owners) scopes σ.names ∧
    (σ.method :: owners).getLast? = some 0 ∧ (σ.method :: owners).Pairwise (· > ·)
  fresh : σ.method < σ.methods

variable {σ : Site} {place : Place} {scopes outer : List Frame} {frame frame' : Frame} {x : String}
  {ty : Ty}

namespace Site.Agrees

/-- A variable in reach can be stored: its scope is the innermost or the outermost one, so its
method is the one around or the entry method. -/
theorem exists_variable (h : σ.Agrees place scopes) (hx : Stores scopes x ty) :
    ∃ slot, σ.find? x = some (.variable ty slot) ∧ σ.reaches slot.method = true := by
  obtain ⟨inner, outer, ⟨frame, rfl, hinner, hm⟩, hreach⟩ := hx
  obtain ⟨owners, hframes, hlast, -⟩ := h.frames
  obtain ⟨owner, b, hb, ⟨slot, rfl, rfl⟩, howner, hlength⟩ := FramesFit.find hinner hm hframes
  refine ⟨slot, hb, ?_⟩
  rcases hreach with rfl | rfl
  · have hmethod : σ.method = slot.method := Option.some.inj howner
    simp [reaches, hmethod]
  · -- no scope is outside of it, so it is the last one, and that is the scope of the entry method
    have hindex : inner.length = (σ.method :: owners).length - 1 := by
      rw [hlength]
      simp
    rw [List.getLast?_eq_getElem?, ← hindex, howner] at hlast
    simp [reaches, Option.some.inj hlast]

theorem store? (h : σ.Agrees place scopes) (hx : Stores scopes x ty) :
    ∃ slot, σ.store? x = some (ty, slot) := by
  obtain ⟨slot, hfind, hreach⟩ := h.exists_variable hx
  exact ⟨slot, by simp [Site.store?, hfind, hreach]⟩

theorem load? (h : σ.Agrees place scopes) (hx : Loads scopes x ty) :
    ∃ operation, σ.load? x = some (ty, operation) := by
  rcases hx with hx | ⟨outer, frame, rfl, hinner, hm⟩
  · obtain ⟨slot, hfind, hreach⟩ := h.exists_variable hx
    exact ⟨.loadLocal slot, by simp [Site.load?, hfind, hreach, variableType, h.typing]⟩
  · obtain ⟨owners, hframes, -⟩ := h.frames
    obtain ⟨owner, b, hb, ⟨slot, rfl, rfl⟩, howner, -⟩ := FramesFit.find hinner hm hframes
    obtain hmethod : σ.method = slot.method := Option.some.inj howner
    exact ⟨.loadArg slot.ordinal, by simp [Site.load?, Site.find?, hb, hmethod]⟩

/-- What the innermost scope does not declare can be declared, even if a scope further out declares
it. -/
theorem declaredHere_eq_false (h : σ.Agrees place (frame :: outer)) (hx : frame x = none) :
    σ.declaredHere x = false := by
  obtain ⟨owners, hframes, -⟩ := h.frames
  cases hnames : σ.names with
  | nil => simp [declaredHere, hnames]
  | cons names namess =>
    rw [hnames] at hframes
    cases hframes with
    | cons hfits _ => simp [declaredHere, hnames, (hfits x).1 hx]

/-- Another offset makes no difference. -/
theorem ahead (h : σ.Agrees place scopes) (n : Nat) : (σ.ahead n).Agrees place scopes :=
  ⟨h.typing, h.stops, h.returnType, h.loop, h.valued, h.frames, h.fresh⟩

theorem within (h : σ.Agrees place scopes) (exits : Exits) :
    (σ.within exits).Agrees { place with inLoop := true } scopes :=
  ⟨h.typing, h.stops, h.returnType, rfl, h.valued, h.frames, h.fresh⟩

/-- Behind a loop the loops around it count. -/
theorem of_within {exits : Exits} (h : (σ.within exits).Agrees { place with inLoop := true } scopes)
    (hloop : σ.loop.isSome = place.inLoop) : σ.Agrees place scopes :=
  ⟨h.typing, h.stops, h.returnType, hloop, h.valued, h.frames, h.fresh⟩

/-- One more name, with a meaning that fits what it stands for. -/
theorem declare (h : σ.Agrees place (frame :: outer)) {m : Meaning} {b : Binding}
    (hb : m.Fits σ.method b) (hvalued : b.Valued) :
    (σ.declare [(x, b)]).Agrees place (frame.declare x m :: outer) := by
  obtain ⟨owners, hframes, howners⟩ := h.frames
  obtain ⟨options, namess, method, returnType, locals, offset, methods, loop⟩ := σ
  cases hframes with
  | @cons _ _ _ _ names namess hfits hrest =>
    refine ⟨h.typing, h.stops, h.returnType, h.loop, ?_,
      ⟨owners, .cons (hfits.declare hb) hrest, howners⟩, h.fresh⟩
    -- the new name has a value of a known type, or none at all
    intro names' hnames' y b' hb'
    rcases List.mem_cons.mp hnames' with rfl | hnames'
    · have hb' : (if y = x then some b else names y) = some b' := hb'
      split at hb'
      · cases hb'
        exact hvalued
      · exact h.valued names (.head _) hb'
    · exact h.valued names' (.tail _ hnames') hb'

/-- The body of a method whose name and parameters have been declared.  Its number is greater than
those of all methods around it. -/
theorem body (h : (σ.declare [(x, .inert)]).Agrees place scopes) {parameters : List Declarator}
    (hvoid : ∀ d ∈ parameters, d.type.ty ≠ .void) (returnType : Ty) :
    (σ.body returnType x parameters).Agrees ⟨returnType, false⟩
      (Frame.empty.declareParameters parameters :: scopes) := by
  obtain ⟨owners, hframes, hlast, hpairwise⟩ := h.frames
  have hempty : Frame.empty.Fits σ.methods Names.none :=
    fun y => ⟨fun _ => rfl, by simp [Frame.empty]⟩
  refine ⟨h.typing, h.stops, rfl, rfl, ?_,
    ⟨_, .cons (hempty.declareParameters parameters 0) hframes, hlast, ?_⟩, Nat.lt_succ_self _⟩
  · intro names hnames y b hb
    rcases List.mem_cons.mp hnames with rfl | hnames
    · exact Declarator.valued_of_bindings hvoid hb
    · exact h.valued names hnames hb
  · refine List.pairwise_cons.mpr ⟨fun owner howner => ?_, hpairwise⟩
    rcases List.mem_cons.mp howner with rfl | howner
    · exact h.fresh
    · exact Nat.lt_trans (List.rel_of_pairwise_cons hpairwise howner) h.fresh

/-- At the beginning of a program nothing is declared. -/
theorem entry {options : Options} (htyping : options.typing = .declared)
    (hstops : options.stopStatements = true) :
    (Site.entry options).Agrees ⟨.void, false⟩ [.empty] := by
  refine ⟨htyping, hstops, rfl, rfl, ?_,
    ⟨[], .cons (fun y => ⟨fun _ => rfl, ?_⟩) .predefined, rfl, List.pairwise_singleton ..⟩,
    Nat.one_pos⟩
  · intro names hnames y b hb
    have hnames : names ∈ [Names.none, Names.predefined] := hnames
    simp only [List.mem_cons, List.not_mem_nil, or_false] at hnames
    rcases hnames with rfl | rfl
    · cases hb
    · rw [Names.eq_inert_of_predefined hb]
      trivial
  · simp [Frame.empty]

/-- A scope belongs to one method only, since the numbers of the methods differ. -/
theorem index_eq {owners : List MethodId} (hpairwise : owners.Pairwise (· > ·)) {i j : Nat}
    {owner : MethodId} (hi : owners[i]? = some owner) (hj : owners[j]? = some owner) : i = j :=
  (List.getElem?_inj (List.getElem?_eq_some_iff.mp hi).1 (hpairwise.imp Nat.ne_of_gt)).mp
    (hi.trans hj.symm)

/-- A variable that can be reached is declared by a scope that can.  Its method tells which one that
is. -/
theorem stores_of_find? (h : σ.Agrees place scopes) {slot : LocalSlot}
    (hfind : σ.find? x = some (.variable ty slot)) (hreach : σ.reaches slot.method = true) :
    Stores scopes x ty := by
  obtain ⟨owners, hframes, hlast, hpairwise⟩ := h.frames
  rcases hframes.exists_finds hfind with hinert | ⟨inner, m, outer, owner, hfinds, hfit, howner⟩
  · cases hinert
  cases m with
  | «variable» ty' =>
    obtain ⟨slot', hslot, rfl⟩ := hfit
    cases hslot
    refine ⟨inner, outer, hfinds, ?_⟩
    have hreach : slot.method = σ.method ∨ slot.method = 0 := by simpa [reaches] using hreach
    rcases hreach with hmethod | hmethod
    · -- the variable is one of this method, whose scope is the innermost
      rw [hmethod] at howner
      exact .inl (List.length_eq_zero_iff.mp (index_eq hpairwise howner rfl))
    · -- the variable is one of the entry method, whose scope is the outermost
      rw [List.getLast?_eq_getElem?] at hlast
      rw [hmethod] at howner
      have hindex := index_eq hpairwise howner hlast
      obtain ⟨frame, rfl, -, -⟩ := hfinds
      rw [hframes.length_eq, List.length_append, List.length_cons] at hindex
      exact .inr (List.length_eq_zero_iff.mp (by omega))
  | parameter ty' =>
    obtain ⟨slot', hslot, -⟩ := hfit
    cases hslot
  | method => cases hfit

theorem stores (h : σ.Agrees place scopes) {slot : LocalSlot}
    (hstore : σ.store? x = some (ty, slot)) : Stores scopes x ty := by
  unfold Site.store? at hstore
  split at hstore
  · next declared slot hfind =>
    split at hstore
    · next hreach =>
      cases hstore
      exact h.stores_of_find? hfind hreach
    · cases hstore
  · cases hstore

theorem loads (h : σ.Agrees place scopes) {operation : Operation}
    (hload : σ.load? x = some (ty, operation)) : Loads scopes x ty := by
  unfold Site.load? at hload
  split at hload
  · next declared slot hfind =>
    split at hload
    · next hreach =>
      obtain ⟨rfl, -⟩ := Prod.mk.inj (Option.some.inj hload)
      rw [variableType, h.typing]
      exact .inl (h.stores_of_find? hfind hreach)
    · cases hload
  · next declared slot hfind =>
    split at hload
    · next hmethod =>
      obtain ⟨rfl, -⟩ := Prod.mk.inj (Option.some.inj hload)
      obtain ⟨owners, hframes, -, hpairwise⟩ := h.frames
      rcases hframes.exists_finds hfind with hinert | ⟨inner, m, outer, owner, hfinds, hfit, howner⟩
      · cases hinert
      cases m with
      | parameter ty' =>
        obtain ⟨slot', hslot, rfl⟩ := hfit
        cases hslot
        rw [hmethod] at howner
        obtain rfl := List.length_eq_zero_iff.mp (index_eq hpairwise howner rfl)
        exact .inr ⟨outer, hfinds⟩
      | «variable» ty' =>
        obtain ⟨slot', hslot, -⟩ := hfit
        cases hslot
      | method => cases hfit
    · cases hload
  · cases hload
  · cases hload

/-- What can be declared is not declared by the innermost scope. -/
theorem eq_none_of_declaredHere (h : σ.Agrees place (frame :: outer))
    (hx : σ.declaredHere x = false) : frame x = none := by
  obtain ⟨owners, hframes, -⟩ := h.frames
  cases hnames : σ.names with
  | nil =>
    rw [hnames] at hframes
    cases hframes
  | cons names namess =>
    rw [hnames] at hframes
    cases hframes with
    | cons hfits _ =>
      refine Option.eq_none_iff_forall_ne_some.mpr fun m hm => ?_
      obtain ⟨b, hb, -⟩ := (hfits x).2 m hm
      simp [declaredHere, hnames, hb] at hx

end Site.Agrees

/-! ### Existence -/

namespace Ty

theorem binary?_ne_unknown {operator : Symbol} {left right ty : Ty}
    (h : Ty.binary? operator left right = some ty) (hl : left ≠ .unknown) (hr : right ≠ .unknown) :
    ty ≠ .unknown := by
  rintro rfl
  unfold Ty.binary? at h
  rw [if_neg (by simp [hl, hr])] at h
  split at h <;> cases h

theorem ne_void_of_binary? {operator : Symbol} {left right ty : Ty}
    (h : Ty.binary? operator left right = some ty) (hr : right ≠ .unknown) : left ≠ .void := by
  rintro rfl
  unfold Ty.binary? at h
  rw [if_neg (by simp [hr])] at h
  split at h <;> simp_all

theorem right_ne_void_of_binary? {operator : Symbol} {left right ty : Ty}
    (h : Ty.binary? operator left right = some ty) (hl : left ≠ .unknown) : right ≠ .void := by
  rintro rfl
  unfold Ty.binary? at h
  rw [if_neg (by simp [hl])] at h
  split at h <;> simp_all

theorem unary?_ne_unknown {operand ty : Ty} (h : Ty.unary? operand = some ty)
    (ho : operand ≠ .unknown) : ty ≠ .unknown := by
  rintro rfl
  cases operand <;> simp_all [Ty.unary?]

theorem ne_void_of_comparable {left right : Ty} (h : left.comparable right = true)
    (hr : right ≠ .unknown) : left ≠ .void := by
  rintro rfl
  simp [Ty.comparable, hr] at h

theorem eq_of_comparable {left right : Ty} (h : left.comparable right = true)
    (hl : left ≠ .unknown) (hr : right ≠ .unknown) : left = right := by
  unfold Ty.comparable at h
  rw [if_neg (by simp [hl, hr])] at h
  exact (decide_eq_true_iff.mp h).2

end Ty

/-- A name that is loaded by its declared type has a known type, as nothing is declared with an
unknown one. -/
theorem Site.load?_ne_unknown (htyping : σ.options.typing = .declared) (hσ : σ.Valued)
    {operation : Operation} (h : σ.load? x = some (ty, operation)) : ty ≠ .unknown := by
  unfold load? at h
  split at h
  · next declared slot hb =>
    split at h
    · cases h
      simpa [variableType, htyping] using (hσ.find? hb).2
    · cases h
  · next declared slot hb =>
    split at h
    · cases h
      exact (hσ.find? hb).2
    · cases h
  · cases h
  · cases h

/-- Where names have their declared types, every expression has a known type.  The rules for
operators let unknown operands pass, so this is what makes them strict. -/
theorem Expr.ne_unknown_of_lower? (htyping : σ.options.typing = .declared) (hσ : σ.Valued) :
    ∀ {r : Rung} {e : Expr r} {ty : Ty} {code : List Operation}, e.lower? σ = some (ty, code) →
      ty ≠ .unknown
  | _, .number _, _, _, h => by
    obtain ⟨rfl, -⟩ := Prod.mk.inj (Option.some.inj h)
    simp
  | _, .boolean _, _, _, h => by
    obtain ⟨rfl, -⟩ := Prod.mk.inj (Option.some.inj h)
    simp
  | _, .name _, _, _, h => by
    obtain ⟨operation, hload, -⟩ := lower?_name.mp h
    exact Site.load?_ne_unknown htyping hσ hload
  | _, .assign _ _, _, _, h => by
    obtain ⟨-, -, -, -, -, -, -, rfl, -⟩ := lower?_assign.mp h
    simp
  | _, .factor e, _, _, h => ne_unknown_of_lower? htyping hσ (e := e) h
  | _, .product _ _ _, _, _, h => by
    obtain ⟨tl, cl, tr, cr, hl, hr, hty, -⟩ := lower?_product.mp h
    exact Ty.binary?_ne_unknown (Ty.operate?_eq_some.mp hty).2 (ne_unknown_of_lower? htyping hσ hl)
      (ne_unknown_of_lower? htyping hσ hr)
  | _, .unsigned e, _, _, h => ne_unknown_of_lower? htyping hσ (e := e) h
  | _, .first e, _, _, h => ne_unknown_of_lower? htyping hσ (e := e) h
  | _, .signed _ _, _, _, h => by
    obtain ⟨operand, operations, he, hty, -⟩ := lower?_signed.mp h
    exact Ty.unary?_ne_unknown hty (ne_unknown_of_lower? htyping hσ he)
  | _, .sum _ _ _, _, _, h => by
    obtain ⟨tl, cl, tr, cr, hl, hr, hty, -⟩ := lower?_sum.mp h
    exact Ty.binary?_ne_unknown (Ty.operate?_eq_some.mp hty).2 (ne_unknown_of_lower? htyping hσ hl)
      (ne_unknown_of_lower? htyping hσ hr)
  | _, .single e, _, _, h => ne_unknown_of_lower? htyping hσ (e := e) h
  | _, .comparison _ _ _, _, _, h => by
    obtain ⟨tl, cl, tr, cr, -, -, -, rfl, -⟩ := lower?_comparison.mp h
    simp

/-- An expression that has a type stands for code.  The rules say nothing about a left operand
without a value, but then the operator does not take it. -/
theorem Expr.HasType.exists_lower? (hσ : σ.Agrees place scopes) {r : Rung} {e : Expr r}
    (h : e.HasType scopes ty) : ∃ code, e.lower? σ = some (ty, code) := by
  -- the operands are of known types, so that no operator lets one pass unseen
  have hknown {r : Rung} {e : Expr r} {ty : Ty} {code : List Operation}
      (he : e.lower? σ = some (ty, code)) : ty ≠ .unknown :=
    Expr.ne_unknown_of_lower? hσ.typing hσ.valued he
  induction h with
  | number => exact ⟨_, rfl⟩
  | boolean => exact ⟨_, rfl⟩
  | name hx =>
    obtain ⟨operation, hload⟩ := hσ.load? hx
    exact ⟨[operation], lower?_name.mpr ⟨operation, hload, rfl⟩⟩
  | assign hvalue hx haccepts ih =>
    obtain ⟨code, hcode⟩ := ih
    obtain ⟨slot, hstore⟩ := hσ.store? hx
    exact ⟨_, lower?_assign.mpr ⟨_, code, _, slot, hcode, hstore, haccepts, rfl, rfl⟩⟩
  | factor _ ih => exact ih
  | product _ _ hty ihl ihr =>
    obtain ⟨cl, hl⟩ := ihl
    obtain ⟨cr, hr⟩ := ihr
    exact ⟨_, lower?_product.mpr ⟨_, cl, _, cr, hl, hr,
      Ty.operate?_eq_some.mpr ⟨Ty.ne_void_of_binary? hty (hknown hr), hty⟩, rfl⟩⟩
  | unsigned _ ih => exact ih
  | signed _ hty ih =>
    obtain ⟨code, hcode⟩ := ih
    exact ⟨_, lower?_signed.mpr ⟨_, code, hcode, hty, rfl⟩⟩
  | first _ ih => exact ih
  | sum _ _ hty ihl ihr =>
    obtain ⟨cl, hl⟩ := ihl
    obtain ⟨cr, hr⟩ := ihr
    exact ⟨_, lower?_sum.mpr ⟨_, cl, _, cr, hl, hr,
      Ty.operate?_eq_some.mpr ⟨Ty.ne_void_of_binary? hty (hknown hr), hty⟩, rfl⟩⟩
  | single _ ih => exact ih
  | comparison _ _ hcomparable ihl ihr =>
    obtain ⟨cl, hl⟩ := ihl
    obtain ⟨cr, hr⟩ := ihr
    exact ⟨_, lower?_comparison.mpr ⟨_, cl, _, cr, hl, hr,
      ⟨Ty.ne_void_of_comparable hcomparable (hknown hr), hcomparable⟩, rfl, rfl⟩⟩

theorem Expr.HasType.exists_lowerTo? (hσ : σ.Agrees place scopes) {r : Rung} {e : Expr r}
    (h : e.HasType scopes ty) {expected : Ty} (haccepts : expected.accepts ty = true) :
    ∃ code, e.lowerTo? σ expected = some code := by
  obtain ⟨code, hcode⟩ := h.exists_lower? hσ
  exact ⟨code, Expr.lowerTo?_eq_some.mpr ⟨ty, hcode, haccepts⟩⟩

mutual

/-- A statement in order stands for a fragment, and the site behind it is as the rules say.  By
recursion on the derivation. -/
theorem Stmt.Checks.exists_lower? : ∀ {t : Stmt} {σ : Site} {place : Place} {outer : List Frame}
    {frame frame' : Frame}, t.Checks place outer frame frame' → σ.Agrees place (frame :: outer) →
    ∃ f, t.lower? σ = some f ∧ (σ.past f).Agrees place (frame' :: outer)
  | .block items, _, _, _, _, _, .block h, hσ => h.exists_lower? hσ
  | .branch condition body, σ, _, _, _, _, .branch hc haccepts h, hσ => by
    obtain ⟨code, hcode⟩ := hc.exists_lowerTo? hσ haccepts
    obtain ⟨g, hg, hagrees⟩ := h.exists_lower? (hσ.ahead (code.length + 1))
    refine ⟨_, Stmt.lower?_branch.mpr ⟨code, hcode, g, by rwa [Site.past_skip], rfl⟩, ?_⟩
    rwa [Site.past_append, Site.past_skip]
  | .choice condition body other, σ, _, _, _, _, .choice hc haccepts h h', hσ => by
    obtain ⟨code, hcode⟩ := hc.exists_lowerTo? hσ haccepts
    obtain ⟨g, hg, hagrees⟩ := h.exists_lower? (hσ.ahead (code.length + 1))
    obtain ⟨g', hg', hagrees'⟩ := h'.exists_lower? (hagrees.ahead 1)
    refine ⟨_, Stmt.lower?_choice.mpr ⟨code, hcode, g, by rwa [Site.past_skip], g', ?_, rfl⟩, ?_⟩
    · rwa [Site.past_append, Site.past_append, Site.past_skip, Site.past_leap]
    · rwa [Site.past_append, Site.past_append, Site.past_append, Site.past_skip, Site.past_leap]
  | .loop condition body, σ, _, _, _, _, .loop hc haccepts h, hσ => by
    obtain ⟨code, hcode⟩ := hc.exists_lowerTo? hσ haccepts
    obtain ⟨g, hg, hagrees⟩ :=
      h.exists_lower? ((hσ.ahead (code.length + 1)).within (σ.exits code body.size))
    refine ⟨_, Stmt.lower?_loop.mpr ⟨code, hcode, g, by rwa [Site.past_round], rfl⟩, ?_⟩
    rw [Site.past_append, Site.past_append, Site.past_round, Site.past_again]
    -- the names declared in the body stay, its loop does not
    exact (Site.Agrees.of_within (σ := (σ.ahead (code.length + 1)).past g) hagrees hσ.loop).ahead 1
  | .expression e, σ, _, _, _, _, .expression he, hσ => by
    obtain ⟨code, hcode⟩ := he.exists_lower? hσ
    refine ⟨_, Stmt.lower?_expression.mpr ⟨_, code, hcode, rfl⟩, ?_⟩
    rw [Site.past_plain]
    exact hσ.ahead _
  | .empty, σ, _, _, _, _, .empty, hσ => ⟨{}, rfl, by rwa [Site.past_empty]⟩
  | .print none, σ, _, _, _, _, .printNothing, hσ => ⟨{}, rfl, by rwa [Site.past_empty]⟩
  | .print (some x), σ, _, _, _, _, .print hx, hσ => by
    obtain ⟨operation, hload⟩ := hσ.load? hx
    refine ⟨_, Stmt.lower?_print.mpr ⟨_, operation, hload, rfl⟩, ?_⟩
    rw [Site.past_plain]
    exact hσ.ahead _
  | .bug body, _, _, _, _, _, .bug h, hσ => h.exists_lower? hσ
  | .ret none, σ, _, _, _, _, .ret hvoid, hσ => by
    refine ⟨_, Stmt.lower?_ret_none.mpr ⟨⟨hσ.stops, hσ.returnType.trans hvoid⟩, rfl⟩, ?_⟩
    rw [Site.past_plain]
    exact hσ.ahead _
  | .ret (some e), σ, _, _, _, _, .retValue hvoid he haccepts, hσ => by
    obtain ⟨code, hcode⟩ := he.exists_lowerTo? hσ haccepts
    refine ⟨_, Stmt.lower?_ret_some.mpr ⟨code, by rwa [hσ.returnType],
      ⟨hσ.stops, by rwa [hσ.returnType]⟩, rfl⟩, ?_⟩
    rw [Site.past_plain]
    exact hσ.ahead _
  | .leave exit, σ, _, _, _, _, .leave hloop, hσ => by
    obtain ⟨exits, hexits⟩ := Option.isSome_iff_exists.mp (hσ.loop.trans hloop)
    refine ⟨_, Stmt.lower?_leave.mpr ⟨exits, hexits, hσ.stops, rfl⟩, ?_⟩
    rw [Site.past_jump]
    exact hσ.ahead _

theorem Item.Checks.exists_lower? : ∀ {item : Item} {σ : Site} {place : Place} {outer : List Frame}
    {frame frame' : Frame}, item.Checks place outer frame frame' →
    σ.Agrees place (frame :: outer) →
    ∃ f, item.lower? σ = some f ∧ (σ.past f).Agrees place (frame' :: outer)
  | .field type x, σ, _, _, _, _, .field hfresh hvoid, hσ => by
    refine ⟨_, Item.lower?_field.mpr ⟨⟨hσ.declaredHere_eq_false hfresh, hvoid⟩, rfl⟩, ?_⟩
    have hdeclare := hσ.declare (x := x) (m := .variable type.ty)
      ⟨⟨σ.method, σ.locals⟩, rfl, rfl⟩ ⟨hvoid, type.ty_ne_unknown⟩
    exact ⟨hdeclare.typing, hdeclare.stops, hdeclare.returnType, hdeclare.loop, hdeclare.valued,
      hdeclare.frames, hdeclare.fresh⟩
  | .method type x parameters comma body, σ, _, _, _, _,
      .method hfresh hvoid hnodup hlength hcomma h, hσ => by
    have hdeclare := hσ.declare (x := x) (m := .method) (b := .inert) rfl trivial
    -- what the body declares ends with it, so only the name of the method is left
    obtain ⟨g, hg, -⟩ := h.exists_lower? (hdeclare.body hvoid type.ty)
    refine ⟨_, Item.lower?_method.mpr ⟨g, hg, ⟨hσ.declaredHere_eq_false hfresh, ?_⟩, rfl⟩, ?_⟩
    · have hall : parameters.all (·.type.ty ≠ .void) = true := by simpa using hvoid
      cases comma <;> simp_all [Declarator.wellFormed]
    · exact ⟨hdeclare.typing, hdeclare.stops, hdeclare.returnType, hdeclare.loop, hdeclare.valued,
        hdeclare.frames, Nat.lt_add_right _ hdeclare.fresh⟩
  | .statement t, _, _, _, _, _, .statement h, hσ => h.exists_lower? hσ

theorem Items.Checks.exists_lower? : ∀ {items : Items} {σ : Site} {place : Place}
    {outer : List Frame} {frame frame' : Frame}, items.Checks place outer frame frame' →
    σ.Agrees place (frame :: outer) →
    ∃ f, items.lower? σ = some f ∧ (σ.past f).Agrees place (frame' :: outer)
  | .nil, σ, _, _, _, _, .nil, hσ => ⟨{}, rfl, by rwa [Site.past_empty]⟩
  | .cons item rest, σ, _, _, _, _, .cons h h', hσ => by
    obtain ⟨g, hg, hagrees⟩ := h.exists_lower? hσ
    obtain ⟨g', hg', hagrees'⟩ := h'.exists_lower? hagrees
    exact ⟨g ++ g', Items.lower?_cons.mpr ⟨g, hg, g', hg', rfl⟩, by rwa [Site.past_append]⟩

end

/-! ### Necessity -/

/-- An expression that stands for code has a type, which is the one found on the way. -/
theorem Expr.hasType_of_lower? (hσ : σ.Agrees place scopes) : ∀ {r : Rung} {e : Expr r} {ty : Ty}
    {code : List Operation}, e.lower? σ = some (ty, code) → e.HasType scopes ty
  | _, .number _, _, _, h => by
    obtain ⟨rfl, -⟩ := Prod.mk.inj (Option.some.inj h)
    exact .number
  | _, .boolean _, _, _, h => by
    obtain ⟨rfl, -⟩ := Prod.mk.inj (Option.some.inj h)
    exact .boolean
  | _, .name _, _, _, h => by
    obtain ⟨operation, hload, -⟩ := lower?_name.mp h
    exact .name (hσ.loads hload)
  | _, .assign _ _, _, _, h => by
    obtain ⟨found, code, target, slot, hvalue, hstore, haccepts, rfl, -⟩ := lower?_assign.mp h
    exact .assign (hasType_of_lower? hσ hvalue) (hσ.stores hstore) haccepts
  | _, .factor e, _, _, h => .factor (hasType_of_lower? hσ (e := e) h)
  | _, .product _ _ _, _, _, h => by
    obtain ⟨tl, cl, tr, cr, hl, hr, hty, -⟩ := lower?_product.mp h
    exact .product (hasType_of_lower? hσ hl) (hasType_of_lower? hσ hr)
      (Ty.operate?_eq_some.mp hty).2
  | _, .unsigned e, _, _, h => .unsigned (hasType_of_lower? hσ (e := e) h)
  | _, .signed _ _, _, _, h => by
    obtain ⟨operand, operations, he, hty, -⟩ := lower?_signed.mp h
    exact .signed (hasType_of_lower? hσ he) hty
  | _, .first e, _, _, h => .first (hasType_of_lower? hσ (e := e) h)
  | _, .sum _ _ _, _, _, h => by
    obtain ⟨tl, cl, tr, cr, hl, hr, hty, -⟩ := lower?_sum.mp h
    exact .sum (hasType_of_lower? hσ hl) (hasType_of_lower? hσ hr) (Ty.operate?_eq_some.mp hty).2
  | _, .single e, _, _, h => .single (hasType_of_lower? hσ (e := e) h)
  | _, .comparison _ _ _, _, _, h => by
    obtain ⟨tl, cl, tr, cr, hl, hr, hcomparable, rfl, -⟩ := lower?_comparison.mp h
    exact .comparison (hasType_of_lower? hσ hl) (hasType_of_lower? hσ hr) hcomparable.2

/-- The site behind a statement in order, whatever fragment it was lowered to. -/
theorem Stmt.Checks.agrees_past {t : Stmt} {f : Fragment} (h : t.Checks place outer frame frame')
    (hσ : σ.Agrees place (frame :: outer)) (hf : t.lower? σ = some f) :
    (σ.past f).Agrees place (frame' :: outer) := by
  obtain ⟨g, hg, hagrees⟩ := h.exists_lower? hσ
  rwa [Option.some.inj (hf.symm.trans hg)]

theorem Item.Checks.agrees_past {item : Item} {f : Fragment}
    (h : item.Checks place outer frame frame') (hσ : σ.Agrees place (frame :: outer))
    (hf : item.lower? σ = some f) : (σ.past f).Agrees place (frame' :: outer) := by
  obtain ⟨g, hg, hagrees⟩ := h.exists_lower? hσ
  rwa [Option.some.inj (hf.symm.trans hg)]

mutual

/-- A statement that stands for a fragment is in order.  The frame behind it is found on the way. -/
theorem Stmt.exists_checks : ∀ {t : Stmt} {σ : Site} {f : Fragment} {place : Place}
    {outer : List Frame} {frame : Frame}, σ.Agrees place (frame :: outer) → t.lower? σ = some f →
    ∃ frame', t.Checks place outer frame frame'
  | .block items, σ, f, _, _, _, hσ, h => by
    have h : items.lower? σ = some f := h
    obtain ⟨frame', hitems⟩ := Items.exists_checks hσ h
    exact ⟨frame', .block hitems⟩
  | .branch condition body, σ, _, _, _, _, hσ, h => by
    obtain ⟨code, hcode, g, hg, -⟩ := Stmt.lower?_branch.mp h
    obtain ⟨found, hc, haccepts⟩ := Expr.lowerTo?_eq_some.mp hcode
    rw [Site.past_skip] at hg
    obtain ⟨frame', hbody⟩ := Stmt.exists_checks (hσ.ahead _) hg
    exact ⟨frame', .branch (Expr.hasType_of_lower? hσ hc) haccepts hbody⟩
  | .choice condition body other, σ, _, _, _, _, hσ, h => by
    obtain ⟨code, hcode, g, hg, g', hg', -⟩ := Stmt.lower?_choice.mp h
    obtain ⟨found, hc, haccepts⟩ := Expr.lowerTo?_eq_some.mp hcode
    rw [Site.past_append, Site.past_append, Site.past_skip, Site.past_leap] at hg'
    rw [Site.past_skip] at hg
    -- the alternative is checked behind the body, so the site there has to agree with the frame
    obtain ⟨frame₁, hbody⟩ := Stmt.exists_checks (hσ.ahead _) hg
    obtain ⟨frame', hother⟩ :=
      Stmt.exists_checks ((hbody.agrees_past (hσ.ahead _) hg).ahead 1) hg'
    exact ⟨frame', .choice (Expr.hasType_of_lower? hσ hc) haccepts hbody hother⟩
  | .loop condition body, σ, _, _, _, _, hσ, h => by
    obtain ⟨code, hcode, g, hg, -⟩ := Stmt.lower?_loop.mp h
    obtain ⟨found, hc, haccepts⟩ := Expr.lowerTo?_eq_some.mp hcode
    rw [Site.past_round] at hg
    obtain ⟨frame', hbody⟩ := Stmt.exists_checks ((hσ.ahead _).within _) hg
    exact ⟨frame', .loop (Expr.hasType_of_lower? hσ hc) haccepts hbody⟩
  | .expression e, σ, _, _, _, _, hσ, h => by
    obtain ⟨ty, code, he, -⟩ := Stmt.lower?_expression.mp h
    exact ⟨_, .expression (Expr.hasType_of_lower? hσ he)⟩
  | .empty, _, _, _, _, _, _, _ => ⟨_, .empty⟩
  | .print none, _, _, _, _, _, _, _ => ⟨_, .printNothing⟩
  | .print (some x), σ, _, _, _, _, hσ, h => by
    obtain ⟨ty, operation, hload, -⟩ := Stmt.lower?_print.mp h
    exact ⟨_, .print (hσ.loads hload)⟩
  | .bug body, _, _, _, _, _, hσ, h => by
    obtain ⟨frame', hbody⟩ := Stmt.exists_checks (t := body) hσ h
    exact ⟨frame', .bug hbody⟩
  | .ret none, σ, _, _, _, _, hσ, h => by
    obtain ⟨⟨-, hvoid⟩, -⟩ := Stmt.lower?_ret_none.mp h
    exact ⟨_, .ret (hσ.returnType.symm.trans hvoid)⟩
  | .ret (some e), σ, _, _, _, _, hσ, h => by
    obtain ⟨code, hcode, ⟨-, hvoid⟩, -⟩ := Stmt.lower?_ret_some.mp h
    obtain ⟨found, he, haccepts⟩ := Expr.lowerTo?_eq_some.mp hcode
    rw [hσ.returnType] at hvoid haccepts
    exact ⟨_, .retValue hvoid (Expr.hasType_of_lower? hσ he) haccepts⟩
  | .leave exit, σ, _, _, _, _, hσ, h => by
    obtain ⟨exits, hexits, -, -⟩ := Stmt.lower?_leave.mp h
    exact ⟨_, .leave (hσ.loop.symm.trans (Option.isSome_iff_exists.mpr ⟨exits, hexits⟩))⟩

theorem Item.exists_checks : ∀ {item : Item} {σ : Site} {f : Fragment} {place : Place}
    {outer : List Frame} {frame : Frame}, σ.Agrees place (frame :: outer) →
    item.lower? σ = some f → ∃ frame', item.Checks place outer frame frame'
  | .field type x, σ, _, _, _, _, hσ, h => by
    obtain ⟨⟨hfresh, hvoid⟩, -⟩ := Item.lower?_field.mp h
    exact ⟨_, .field (hσ.eq_none_of_declaredHere hfresh) hvoid⟩
  | .method type x parameters comma body, σ, _, _, _, _, hσ, h => by
    obtain ⟨g, hg, ⟨hfresh, hwell⟩, -⟩ := Item.lower?_method.mp h
    obtain ⟨hvoid, hnodup, hlength, hcomma⟩ : (∀ d ∈ parameters, d.type.ty ≠ .void) ∧
        (parameters.map Declarator.name).Nodup ∧ parameters.length ≤ Method.maxParameters ∧
        (comma = true → parameters ≠ []) := by
      cases comma <;> simp_all [Declarator.wellFormed]
    have hdeclare := hσ.declare (x := x) (m := .method) (b := .inert) rfl trivial
    obtain ⟨frame', hbody⟩ := Items.exists_checks (hdeclare.body hvoid type.ty) hg
    exact ⟨_, .method (hσ.eq_none_of_declaredHere hfresh) hvoid hnodup hlength hcomma hbody⟩
  | .statement t, _, _, _, _, _, hσ, h => by
    obtain ⟨frame', ht⟩ := Stmt.exists_checks (t := t) hσ h
    exact ⟨frame', .statement ht⟩

theorem Items.exists_checks : ∀ {items : Items} {σ : Site} {f : Fragment} {place : Place}
    {outer : List Frame} {frame : Frame}, σ.Agrees place (frame :: outer) →
    items.lower? σ = some f → ∃ frame', items.Checks place outer frame frame'
  | .nil, _, _, _, _, _, _, _ => ⟨_, .nil⟩
  | .cons item rest, σ, _, _, _, _, hσ, h => by
    obtain ⟨g, hg, g', hg', -⟩ := Items.lower?_cons.mp h
    obtain ⟨frame₁, hitem⟩ := Item.exists_checks hσ hg
    obtain ⟨frame', hrest⟩ := Items.exists_checks (hitem.agrees_past hσ hg) hg'
    exact ⟨frame', .cons hitem hrest⟩

end

/-- A tree that is in order stands for a program, if names have their declared types and stop
statements are enabled. -/
theorem Items.InOrder.exists_program? {options : Options} (htyping : options.typing = .declared)
    (hstops : options.stopStatements = true) {items : Items} (h : items.InOrder) :
    ∃ program, items.program? options = some program := by
  obtain ⟨frame, hchecks⟩ := h
  obtain ⟨f, hf, -⟩ := hchecks.exists_lower? (.entry htyping hstops)
  exact ⟨_, Items.program?_eq_some.mpr ⟨f, hf, rfl⟩⟩

/-- **The rules are the ones of the translation.**  Exactly the trees in order stand for
programs. -/
theorem Items.inOrder_iff {options : Options} (htyping : options.typing = .declared)
    (hstops : options.stopStatements = true) {items : Items} :
    items.InOrder ↔ ∃ program, items.program? options = some program := by
  refine ⟨fun h => h.exists_program? htyping hstops, ?_⟩
  rintro ⟨program, hprogram⟩
  obtain ⟨f, hf, -⟩ := Items.program?_eq_some.mp hprogram
  exact Items.exists_checks (.entry htyping hstops) hf

/-- **Every source of a tree in order compiles to its program.**  Let a tree be fully punctuated,
well scoped and well typed.  Whatever source is read without scan errors into the tokens of the
tree, it compiles to the program the tree stands for, and nothing is reported but the warnings of
the tree. -/
theorem compile_of_inOrder {options : Options} (htyping : options.typing = .declared)
    (hstops : options.stopStatements = true) {items : Items} (hbraced : items.braced = true)
    (horder : items.InOrder) {source : String} {tokens : List Token}
    (hwrites : Writes source items tokens) :
    ∃ program, items.program? options = some program ∧
      compile options source = .ok ⟨program, ⟨(items.warnings tokens).toArray⟩⟩ := by
  obtain ⟨program, hprogram⟩ := horder.exists_program? htyping hstops
  refine ⟨program, hprogram, compile_eq_ok_iff.mpr ⟨items, tokens, hwrites, ?_, hprogram, ?_⟩⟩
  · exact items.closed_of_braced hbraced
  · exact List.toList_toArray

/-- The name of the type `int`. -/
def TypeName.int : TypeName := ⟨.int, .int, rfl⟩

/-- An expression that is just a name, a number or an assignment, brought up to the rung of sums. -/
def Expr.plain (e : Expr .primary) : Expr .sum := .first (.unsigned (.factor e))

/-- A loop that returns. -/
def sampleLoop : Stmt :=
  .loop (.comparison (.plain (.name "a")) .less (.plain (.number 3)))
    (.block (.cons (.statement (.ret (some (.single
      (.sum (.plain (.name "a")) .add (.factor (.number 1))))))) .nil))

/-- A statement that is worth a look. -/
def sampleBug : Stmt :=
  .bug (.block (.cons (.statement (.expression (.single (.plain (.name "a")))))
    (.cons (.statement .empty) .nil)))

/-- A method with these two statements, and an assignment outside of it. -/
def sampleItems : Items :=
  .cons (.method .int "f" [⟨.int, "a"⟩] false
    (.cons (.statement sampleLoop) (.cons (.statement sampleBug) .nil)))
  (.cons (.field .int "x")
  (.cons (.statement (.expression (.single (.plain (.assign "x" (.single (.plain (.number 2))))))))
    .nil))

/-- The text of that tree. -/
def sampleSource : String :=
  "int f(int a) { while (a < 3) { return a + 1; } bug { a; }; } int x; x = 2;"

theorem sampleItems_inOrder : sampleItems.InOrder := by
  have hint : TypeName.int.ty ≠ .void := by simp [TypeName.int]
  -- the frames are those inside of the method, where its parameter is known
  let frame := Frame.empty.declareParameters [⟨.int, "a"⟩]
  let outer := [Frame.empty.declare "f" .method]
  have ha : Loads (frame :: outer) "a" .int := .inr ⟨outer, frame, rfl, by simp, rfl⟩
  have hname : (Expr.plain (.name "a")).HasType (frame :: outer) .int :=
    .first (.unsigned (.factor (.name ha)))
  have hnumber {scopes : List Frame} (n : Nat) : (Expr.plain (.number n)).HasType scopes .int :=
    .first (.unsigned (.factor .number))
  have hloop : sampleLoop.Checks ⟨.int, false⟩ outer frame frame :=
    .loop (.comparison hname (hnumber 3) rfl) rfl (.block (.cons (.statement
      (.retValue hint (.single (.sum hname (.factor .number) rfl)) rfl)) .nil))
  have hbug : sampleBug.Checks ⟨.int, false⟩ outer frame frame :=
    .bug (.block (.cons (.statement (.expression (.single hname)))
      (.cons (.statement .empty) .nil)))
  have hx : Stores [(Frame.empty.declare "f" .method).declare "x" (.variable .int)] "x" .int :=
    ⟨[], [], ⟨_, rfl, by simp, rfl⟩, .inl rfl⟩
  refine ⟨_, .cons (.method rfl ?_ ?_ ?_ ?_
    (.cons (.statement hloop) (.cons (.statement hbug) .nil)))
    (.cons (.field rfl hint) (.cons (.statement (.expression (.single (.first (.unsigned (.factor
      (.assign (.single (hnumber 2)) hx rfl))))))) .nil))⟩
  · simpa using hint
  · simp
  · simp [Method.maxParameters]
  · simp

/-- The sample compiles to its program, with one warning. -/
theorem compile_of_inOrder_sample : ∃ tokens, sampleItems.braced = true ∧ sampleItems.InOrder ∧
    Writes sampleSource sampleItems tokens ∧ (sampleItems.warnings tokens).length = 1 ∧
    ∃ program, sampleItems.program? {} = some program ∧ program.methods.size = 2 ∧
      compile {} sampleSource = .ok ⟨program, ⟨(sampleItems.warnings tokens).toArray⟩⟩ := by
  have hbraced : sampleItems.braced = true := by decide
  have hscans : Scans sampleSource ((lexemes sampleSource).map Lexeme.token) :=
    scans_iff.mpr (by decide +kernel)
  have hwrites : Writes sampleSource sampleItems _ := ⟨hscans, by decide +kernel⟩
  have hsize : (sampleItems.program? {}).map (·.methods.size) = some 2 := by decide +kernel
  obtain ⟨program, hprogram, hcompile⟩ :
      ∃ program, sampleItems.program? {} = some program ∧ compile {} sampleSource = .ok _ :=
    compile_of_inOrder rfl rfl hbraced sampleItems_inOrder hwrites
  rw [hprogram] at hsize
  exact ⟨_, hbraced, sampleItems_inOrder, hwrites, by decide +kernel, program, hprogram,
    Option.some.inj hsize, hcompile⟩

end OnePass
