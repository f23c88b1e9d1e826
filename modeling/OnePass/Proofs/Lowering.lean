import Mathlib.Data.List.Forall2
import OnePass.Options
import OnePass.Program.Basic
import OnePass.Proofs.Tree

/-!
# The reference translation

What a tree means, said by recursion on the tree: the code, the locals and the methods
it stands for, with every branch going straight to its offset.  A tree that is not well
scoped or not well typed stands for nothing.

Only methods open scopes.  A name stands for what it was last declared as in the
innermost scope that declares it, and must not be declared twice in one scope.  A local
variable can be used in its own method, and anywhere if the entry method owns it; a
parameter in its own method only.

## Main definitions

* `Site` — what is known at a place of the source.
* `Expr.lower?` — the type and the operations of an expression.
* `Fragment` — what a part of the source adds to its method and to the program.
* `Stmt.lower?`, `Item.lower?`, `Items.lower?` — the fragment of a tree.
* `Items.program?` — the program of a statement list.

## Main results

* `Stmt.length_code` — the amount of code of a statement does not depend on its place.
* `Items.means_program` — the methods of a program are what the bodies in it stand for.
-/

namespace OnePass

/-! ### Names -/

/-- What a name stands for, as far as code can depend on it: the type it was declared with and the
place where its value is kept. -/
inductive Binding
  | variable (ty : Ty) (slot : LocalSlot)
  | parameter (ty : Ty) (slot : ParameterSlot)
  /-- Something that has no value: a method or a type. -/
  | inert
  deriving DecidableEq, Repr

/-- The names of one scope, as a lookup.  How they are stored and in which order they were declared
is left open. -/
abbrev Names := String → Option Binding

namespace Names

/-- No names. -/
def none : Names := fun _ => .none

/-- The names of the predefined types.  They are declared outside of the program, so that it may
declare them anew. -/
def predefined : Names := fun x => if x ∈ Ty.predefined.map Prod.fst then some .inert else .none

/-- Declares a name.  What it stood for before is hidden. -/
def declare (names : Names) (x : String) (b : Binding) : Names := fun y =>
  if y = x then some b else names y

/-- Declares names one after the other, so that of two declarations of one name the later one
counts. -/
def declareAll (names : Names) (bs : List (String × Binding)) : Names :=
  bs.foldl (fun names b => names.declare b.1 b.2) names

@[simp] theorem declareAll_nil (names : Names) : names.declareAll [] = names := rfl

@[simp] theorem declareAll_append (names : Names) (bs bs' : List (String × Binding)) :
    names.declareAll (bs ++ bs') = (names.declareAll bs).declareAll bs' := List.foldl_append

end Names

/-- Where the statements that leave a round of a loop go. -/
structure Exits where
  /-- Behind the loop. -/
  after : Target
  /-- To the condition of the loop. -/
  again : Target
  deriving DecidableEq, Repr

/-- Where one of these statements goes. -/
def Exits.target (exits : Exits) : Exit → Target
  | .break => exits.after
  | .continue => exits.again

/-! ### Sites -/

/-- What is known at a place of the source.  This is all that the meaning of what stands there can
depend on, and it is known from what stands before it. -/
structure Site where
  options : Options
  /-- The names of each scope, the innermost scope first. -/
  names : List Names
  /-- The method around the place. -/
  method : MethodId
  /-- Its return type. -/
  returnType : Ty
  /-- How many locals it has so far. -/
  locals : Nat
  /-- The offset of its next instruction. -/
  offset : Nat
  /-- How many methods the program has so far. -/
  methods : Nat
  /-- The innermost loop around the place within the method. -/
  loop : Option Exits

/-- What a part of the source adds to its method and to the program.  Fragments of adjacent parts
are put together by appending each component. -/
structure Fragment where
  /-- The names it declares. -/
  names : List (String × Binding) := []
  locals : List Variable := []
  code : List Instruction := []
  /-- The offsets of its labels, in the order the labels are made. -/
  labels : List Nat := []
  methods : List Method := []

namespace Fragment

instance : Append Fragment where
  append f g := ⟨f.names ++ g.names, f.locals ++ g.locals, f.code ++ g.code,
    f.labels ++ g.labels, f.methods ++ g.methods⟩

/-- Code without branches, which looks the same at every offset. -/
def plain (operations : List Operation) : Fragment where
  code := operations.map .plain

/-- Operations and a branch after them, with labels.  The branch has its offset already, and the
labels are only there because the method lists them. -/
def jump (operations : List Operation) (branch : Instruction) (labels : List Nat) : Fragment where
  code := operations.map .plain ++ [branch]
  labels := labels

section

variable (f g h : Fragment)

@[simp] theorem append_names : (f ++ g).names = f.names ++ g.names := rfl
@[simp] theorem append_locals : (f ++ g).locals = f.locals ++ g.locals := rfl
@[simp] theorem append_code : (f ++ g).code = f.code ++ g.code := rfl
@[simp] theorem append_labels : (f ++ g).labels = f.labels ++ g.labels := rfl
@[simp] theorem append_methods : (f ++ g).methods = f.methods ++ g.methods := rfl

@[simp] theorem append_empty : f ++ ({} : Fragment) = f := by
  show Fragment.mk _ _ _ _ _ = f
  simp

@[simp] theorem empty_append : ({} : Fragment) ++ f = f := rfl

@[simp] theorem plain_append (a b : List Operation) :
    Fragment.plain a ++ Fragment.plain b = .plain (a ++ b) := by
  show Fragment.mk _ _ _ _ _ = Fragment.mk _ _ _ _ _
  simp [plain]

end

@[simp] theorem methods_jump (operations : List Operation) (branch : Instruction)
    (labels : List Nat) : (jump operations branch labels).methods = [] := rfl

/-- The code of a method ends in a return.  One is only added if there is none, even if a branch
goes to the end of the code. -/
def closedCode (f : Fragment) : List Instruction :=
  if f.code.getLast? = some (.plain .ret) then f.code else f.code ++ [.plain .ret]

/-- The method with the fragment as its body. -/
def method (f : Fragment) (name : String) (returnType : Ty) (parameters : List Declarator) :
    Method where
  name := name
  returnType := returnType
  parameters := (parameters.map fun d => ⟨d.type.ty, some d.name⟩).toArray
  locals := f.locals.toArray
  code := f.closedCode.toArray
  labels := (f.labels.map LabelState.bound).toArray

/-- The declaration of that method.  To the method around it, it adds a name and nothing else; the
methods declared in its body come right behind it. -/
def declaration (f : Fragment) (name : String) (returnType : Ty) (parameters : List Declarator) :
    Fragment where
  names := [(name, .inert)]
  methods := f.method name returnType parameters :: f.methods

end Fragment

namespace Declarator

/-- What the parameters of a method stand for in its body.  Their ordinals count from one. -/
def bindings (method : MethodId) (parameters : List Declarator) : List (String × Binding) :=
  parameters.zipIdx.map fun (d, i) => (d.name, .parameter d.type.ty ⟨method, i + 1⟩)

/-- No parameter is of type `void`, their names differ, and there are not too many.  Only
after a parameter there may be a comma. -/
def wellFormed (parameters : List Declarator) (comma : Bool) : Bool :=
  parameters.all (·.type.ty ≠ .void) && decide (parameters.map Declarator.name).Nodup &&
    parameters.length ≤ Method.maxParameters && !(comma && parameters.isEmpty)

end Declarator

namespace Site

/-- The site at the beginning of a program. -/
def entry (options : Options) : Site where
  options := options
  names := [.none, .predefined]
  method := 0
  returnType := .void
  locals := 0
  offset := 0
  methods := 1
  loop := none

/-- The declaration of a local variable, which is kept in the next slot of its method. -/
def field (σ : Site) (name : String) (ty : Ty) : Fragment where
  names := [(name, .variable ty ⟨σ.method, σ.locals⟩)]
  locals := [⟨name, ty⟩]

/-- The site with more names in the innermost scope, which is the only one that changes. -/
def declare (σ : Site) (bs : List (String × Binding)) : Site :=
  { σ with names := σ.names.modifyHead (·.declareAll bs) }

/-- The site behind a fragment: everything that is counted has gone on, and the names are
declared. -/
def past (σ : Site) (f : Fragment) : Site :=
  { σ.declare f.names with
    locals := σ.locals + f.locals.length
    offset := σ.offset + f.code.length
    methods := σ.methods + f.methods.length }

/-- The site inside a loop.  The loops further out cannot be reached any more. -/
def within (σ : Site) (exits : Exits) : Site := { σ with loop := some exits }

/-- The site at the beginning of the body of a method declared at `σ`.  The method has been declared
by then, so that its name is taken, and the loops around the declaration are out of reach. -/
def body (σ : Site) (returnType : Ty) (name : String) (parameters : List Declarator) : Site where
  options := σ.options
  names := Names.none.declareAll (Declarator.bindings σ.methods parameters)
    :: (σ.declare [(name, .inert)]).names
  method := σ.methods
  returnType := returnType
  locals := 0
  offset := 0
  methods := σ.methods + 1
  loop := none

@[simp] theorem past_empty (σ : Site) : σ.past {} = σ := by
  obtain ⟨options, names, method, returnType, locals, offset, methods, loop⟩ := σ
  cases names <;> rfl

@[simp] theorem past_append (σ : Site) (f g : Fragment) : σ.past (f ++ g) = (σ.past f).past g := by
  obtain ⟨options, names, method, returnType, locals, offset, methods, loop⟩ := σ
  cases names <;> simp [past, declare, Nat.add_assoc]

/-- What a name stands for: the innermost scope that declares it decides. -/
def find? (σ : Site) (x : String) : Option Binding := σ.names.findSome? (· x)

/-- Whether the innermost scope declares a name. -/
def declaredHere (σ : Site) (x : String) : Bool := (σ.names.head?.bind (· x)).isSome

/-- Whether the locals of a method can be used: it is the method around the place, or the
entry method. -/
def reaches (σ : Site) (owner : MethodId) : Bool := owner = σ.method ∨ owner = 0

/-- The type of the name of a local variable.  It is the declared one; with legacy typing it is a
truth value if the name is declared in the innermost scope, and not known otherwise. -/
def variableType (σ : Site) (x : String) (declared : Ty) : Ty :=
  match σ.options.typing with
  | .declared => declared
  | .legacy => if σ.declaredHere x then .bool else .unknown

/-- The type of a name that can be loaded, and the operation that does it. -/
def load? (σ : Site) (x : String) : Option (Ty × Operation) :=
  match σ.find? x with
  | some (.variable ty slot) =>
    if σ.reaches slot.method then some (σ.variableType x ty, .loadLocal slot) else none
  | some (.parameter ty slot) =>
    if slot.method = σ.method then some (ty, .loadArg slot.ordinal) else none
  | some .inert => none
  | none => none

/-- The local variable a name stands for, if a value can be stored in it.  Parameters cannot be
assigned to. -/
def store? (σ : Site) (x : String) : Option (Ty × LocalSlot) :=
  match σ.find? x with
  | some (.variable ty slot) => if σ.reaches slot.method then some (ty, slot) else none
  | _ => none

/-- A condition and the branch to behind the next `size` instructions if it fails.  The offset of a
branch forward is known from the size of what it skips. -/
def skip (σ : Site) (condition : List Operation) (size : Nat) : Fragment :=
  let after := σ.offset + condition.length + 1 + size
  .jump condition (.branchIfFalse (.offset after)) [after]

/-- A branch to behind the next `size` instructions. -/
def leap (σ : Site) (size : Nat) : Fragment :=
  let after := σ.offset + 1 + size
  .jump [] (.branch (.offset after)) [after]

/-- The exits of a loop at the site with the given condition and a body of `size`
instructions. -/
def exits (σ : Site) (condition : List Operation) (size : Nat) : Exits :=
  ⟨.offset (σ.offset + condition.length + 1 + size + 1), .offset σ.offset⟩

/-- The beginning of that loop. -/
def round (σ : Site) (condition : List Operation) (size : Nat) : Fragment :=
  let after := σ.offset + condition.length + 1 + size + 1
  .jump condition (.branchIfFalse (.offset after)) [σ.offset, after]

/-- The branch back to the beginning of a loop at the site.  It stands at the end of the body, so
that the site is not the one before the branch. -/
def again (σ : Site) : Fragment := .jump [] (.branch (.offset σ.offset)) []

@[simp] theorem length_skip (σ : Site) (condition : List Operation) (size : Nat) :
    (σ.skip condition size).code.length = condition.length + 1 := by simp [skip, Fragment.jump]

@[simp] theorem length_leap (σ : Site) (size : Nat) : (σ.leap size).code.length = 1 := rfl

@[simp] theorem length_round (σ : Site) (condition : List Operation) (size : Nat) :
    (σ.round condition size).code.length = condition.length + 1 := by simp [round, Fragment.jump]

@[simp] theorem length_again (σ : Site) : σ.again.code.length = 1 := rfl

end Site

/-! ### Expressions -/

/-- The type of a binary operation after a left operand that has a value.  Behind one that has none
no operator is looked for. -/
def Ty.operate? (operator : Symbol) (left right : Ty) : Option Ty :=
  if left = .void then none else Ty.binary? operator left right

/-- What an additive operator does after a left operand of the given type: a plus sign
after a string joins two strings. -/
def AdditiveOp.operation (op : AdditiveOp) (left : Ty) : Operation :=
  if op = .add ∧ left = .string then .concat else .additive op

/-- What a sign does to its operand: a plus sign nothing at all. -/
def Sign.operations : Sign → List Operation
  | .plus => []
  | .minus => [.unary .negate]

namespace Expr

/-- The type of an expression and the operations that compute its value.  An assignment
is of type `void` and leaves no value. -/
def lower? (σ : Site) : {r : Rung} → Expr r → Option (Ty × List Operation)
  | _, .number value => some (.int, [.loadInt value])
  | _, .boolean value => some (.bool, [.loadBool value])
  | _, .name x => (σ.load? x).map fun (ty, operation) => (ty, [operation])
  | _, .assign x value => do
    let (found, code) ← value.lower? σ
    let (ty, slot) ← σ.store? x
    if ty.accepts found then some (.void, code ++ [.convert ty found, .storeLocal slot])
    else none
  | _, .factor e => e.lower? σ
  | _, .product left op right => do
    let (leftType, leftCode) ← left.lower? σ
    let (rightType, rightCode) ← right.lower? σ
    let ty ← Ty.operate? op.symbol leftType rightType
    some (ty, leftCode ++ rightCode ++ [.multiplicative op])
  | _, .unsigned e => e.lower? σ
  | _, .signed sign e => do
    let (operand, code) ← e.lower? σ
    let ty ← Ty.unary? operand
    some (ty, code ++ sign.operations)
  | _, .first e => e.lower? σ
  | _, .sum left op right => do
    let (leftType, leftCode) ← left.lower? σ
    let (rightType, rightCode) ← right.lower? σ
    let ty ← Ty.operate? op.symbol leftType rightType
    some (ty, leftCode ++ rightCode ++ [op.operation leftType])
  | _, .single e => e.lower? σ
  | _, .comparison left op right => do
    let (leftType, leftCode) ← left.lower? σ
    let (rightType, rightCode) ← right.lower? σ
    if leftType ≠ .void ∧ leftType.comparable rightType then
      some (.bool, leftCode ++ rightCode ++ [.compare op])
    else none

/-- Whether the expression ends in an assignment and every operand means something.  Then no mistake
shows before the semicolon of the assignment has been read, and recovery goes on to the next one. -/
def spills (σ : Site) : {r : Rung} → Expr r → Bool
  | _, .number _ => false
  | _, .boolean _ => false
  | _, .name _ => false
  | _, .assign x value => ((assign x value).lower? σ).isSome
  | _, .factor e => e.spills σ
  | _, .product left _ right => (left.lower? σ).isSome && right.spills σ
  | _, .unsigned e => e.spills σ
  | _, .signed _ e => e.spills σ
  | _, .first e => e.spills σ
  | _, .sum left _ right => (left.lower? σ).isSome && right.spills σ
  | _, .single e => e.spills σ
  | _, .comparison left _ right => (left.lower? σ).isSome && right.spills σ

/-- The operations of an expression whose type has to be accepted by another one, as in conditions
and returns. -/
def lowerTo? (σ : Site) (expected : Ty) {r : Rung} (e : Expr r) : Option (List Operation) := do
  let (found, code) ← e.lower? σ
  if expected.accepts found then some code else none

section

variable {σ : Site} {ty : Ty} {code : List Operation}

theorem lower?_name {x : String} : (Expr.name x).lower? σ = some (ty, code) ↔
    ∃ operation, σ.load? x = some (ty, operation) ∧ [operation] = code := by
  simp only [lower?, Option.map_eq_some_iff, Prod.exists, Prod.mk.injEq]
  constructor
  · -- both directions only move the type and the code to where they are bound
    rintro ⟨ty, operation, h, rfl, rfl⟩
    exact ⟨operation, h, rfl⟩
  · rintro ⟨operation, h, rfl⟩
    exact ⟨ty, operation, h, rfl, rfl⟩

theorem lower?_assign {x : String} {value : Expr .relation} :
    (Expr.assign x value).lower? σ = some (ty, code) ↔ ∃ found values target slot,
      value.lower? σ = some (found, values) ∧ σ.store? x = some (target, slot) ∧
      target.accepts found = true ∧ .void = ty ∧
      values ++ [.convert target found, .storeLocal slot] = code := by
  simp [lower?, Option.bind_eq_some_iff]

theorem lower?_product {left : Expr .term} {op : MultiplicativeOp} {right : Expr .primary} :
    (Expr.product left op right).lower? σ = some (ty, code) ↔ ∃ tl cl tr cr,
      left.lower? σ = some (tl, cl) ∧ right.lower? σ = some (tr, cr) ∧
      Ty.operate? op.symbol tl tr = some ty ∧ cl ++ cr ++ [.multiplicative op] = code := by
  simp only [lower?, Option.bind_eq_bind, Option.bind_eq_some_iff, Prod.exists, Option.some.injEq,
    Prod.mk.injEq]
  constructor
  · rintro ⟨tl, cl, hl, tr, cr, hr, ty, hty, rfl, rfl⟩
    exact ⟨tl, cl, tr, cr, hl, hr, hty, rfl⟩
  · rintro ⟨tl, cl, tr, cr, hl, hr, hty, rfl⟩
    exact ⟨tl, cl, hl, tr, cr, hr, ty, hty, rfl, rfl⟩

theorem lower?_signed {sign : Sign} {e : Expr .term} :
    (Expr.signed sign e).lower? σ = some (ty, code) ↔ ∃ operand operations,
      e.lower? σ = some (operand, operations) ∧ Ty.unary? operand = some ty ∧
      operations ++ sign.operations = code := by
  simp only [lower?, Option.bind_eq_bind, Option.bind_eq_some_iff, Prod.exists, Option.some.injEq,
    Prod.mk.injEq]
  constructor
  · rintro ⟨operand, operations, h, ty, hty, rfl, rfl⟩
    exact ⟨operand, operations, h, hty, rfl⟩
  · rintro ⟨operand, operations, h, hty, rfl⟩
    exact ⟨operand, operations, h, ty, hty, rfl, rfl⟩

theorem lower?_sum {left : Expr .sum} {op : AdditiveOp} {right : Expr .term} :
    (Expr.sum left op right).lower? σ = some (ty, code) ↔ ∃ tl cl tr cr,
      left.lower? σ = some (tl, cl) ∧ right.lower? σ = some (tr, cr) ∧
      Ty.operate? op.symbol tl tr = some ty ∧ cl ++ cr ++ [op.operation tl] = code := by
  simp only [lower?, Option.bind_eq_bind, Option.bind_eq_some_iff, Prod.exists, Option.some.injEq,
    Prod.mk.injEq]
  constructor
  · rintro ⟨tl, cl, hl, tr, cr, hr, ty, hty, rfl, rfl⟩
    exact ⟨tl, cl, tr, cr, hl, hr, hty, rfl⟩
  · rintro ⟨tl, cl, tr, cr, hl, hr, hty, rfl⟩
    exact ⟨tl, cl, hl, tr, cr, hr, ty, hty, rfl, rfl⟩

theorem lower?_comparison {left : Expr .sum} {op : ComparisonOp} {right : Expr .sum} :
    (Expr.comparison left op right).lower? σ = some (ty, code) ↔ ∃ tl cl tr cr,
      left.lower? σ = some (tl, cl) ∧ right.lower? σ = some (tr, cr) ∧
      (tl ≠ .void ∧ tl.comparable tr = true) ∧ .bool = ty ∧ cl ++ cr ++ [.compare op] = code := by
  simp [lower?, Option.bind_eq_some_iff]

theorem lowerTo?_eq_some {expected : Ty} {r : Rung} {e : Expr r} :
    e.lowerTo? σ expected = some code ↔
      ∃ found, e.lower? σ = some (found, code) ∧ expected.accepts found = true := by
  simp only [lowerTo?, Option.bind_eq_bind, Option.bind_eq_some_iff, Prod.exists,
    Option.ite_none_right_eq_some, Option.some.injEq]
  constructor
  · rintro ⟨found, values, h, haccepts, rfl⟩
    exact ⟨found, h, haccepts⟩
  · rintro ⟨found, h, haccepts⟩
    exact ⟨found, code, h, haccepts, rfl⟩

/-- The amount of code of an expression does not depend on its place.  So the offsets of branches
are known before the code they skip is. -/
theorem length_of_lower? : ∀ {r : Rung} {e : Expr r} {ty : Ty} {code : List Operation},
    e.lower? σ = some (ty, code) → code.length = e.size
  | _, .number _, _, _, h => by
    simp only [lower?, Option.some.injEq, Prod.mk.injEq] at h
    simp [← h.2, size]
  | _, .boolean _, _, _, h => by
    simp only [lower?, Option.some.injEq, Prod.mk.injEq] at h
    simp [← h.2, size]
  | _, .name _, _, _, h => by
    obtain ⟨operation, -, rfl⟩ := lower?_name.mp h
    rfl
  | _, .assign _ value, _, _, h => by
    obtain ⟨found, values, target, slot, hvalue, -, -, -, rfl⟩ := lower?_assign.mp h
    simp [size, length_of_lower? hvalue]
  | _, .factor e, _, _, h => length_of_lower? (e := e) h
  | _, .product _ _ _, _, _, h => by
    obtain ⟨tl, cl, tr, cr, hl, hr, -, rfl⟩ := lower?_product.mp h
    simp [size, length_of_lower? hl, length_of_lower? hr, Nat.add_assoc]
  | _, .unsigned e, _, _, h => length_of_lower? (e := e) h
  | _, .first e, _, _, h => length_of_lower? (e := e) h
  | _, .signed sign e, _, _, h => by
    obtain ⟨operand, operations, he, -, rfl⟩ := lower?_signed.mp h
    cases sign <;> simp [size, Sign.operations, length_of_lower? he]
  | _, .sum _ _ _, _, _, h => by
    obtain ⟨tl, cl, tr, cr, hl, hr, -, rfl⟩ := lower?_sum.mp h
    simp [size, length_of_lower? hl, length_of_lower? hr, Nat.add_assoc]
  | _, .single e, _, _, h => length_of_lower? (e := e) h
  | _, .comparison _ _ _, _, _, h => by
    obtain ⟨tl, cl, tr, cr, hl, hr, -, -, rfl⟩ := lower?_comparison.mp h
    simp [size, length_of_lower? hl, length_of_lower? hr, Nat.add_assoc]

end

end Expr

/-! ### Statements -/

mutual

/-- The number of instructions a statement adds to its method.  A sum over the parts of the
statement, with one for each branch around them. -/
def Stmt.size : Stmt → Nat
  | .block items => items.size
  | .branch condition body => condition.size + 1 + body.size
  | .choice condition body other => condition.size + 1 + body.size + 1 + other.size
  | .loop condition body => condition.size + 1 + body.size + 1
  | .expression e => if e.isAssign then e.size else e.size + 1
  | .empty => 0
  | .print argument => if argument.isSome then 2 else 0
  | .bug body => body.size
  | .ret value => (value.map Expr.size).getD 0 + 1
  | .leave _ => 1

/-- The number of instructions an item adds to its method.  Declarations add none, not even those of
methods, which have code of their own. -/
def Item.size : Item → Nat
  | .field _ _ => 0
  | .method _ _ _ _ _ => 0
  | .statement s => s.size

/-- The number of instructions a statement list adds to its method. -/
def Items.size : Items → Nat
  | .nil => 0
  | .cons item rest => item.size + rest.size

end

mutual

/-- What a statement adds.  The parts are lowered where they stand, behind the code of those before
them, and the offsets of branches forward are taken from the sizes of the parts they skip. -/
def Stmt.lower? (σ : Site) : Stmt → Option Fragment
  | .block items => items.lower? σ
  -- a condition that fails skips the body
  | .branch condition body => do
    let code ← condition.lowerTo? σ .bool
    let head := σ.skip code body.size
    let f ← body.lower? (σ.past head)
    some (head ++ f)
  -- a condition that fails skips the body and the branch behind it, which skips the alternative
  | .choice condition body other => do
    let code ← condition.lowerTo? σ .bool
    let head := σ.skip code (body.size + 1)
    let f ← body.lower? (σ.past head)
    let middle := (σ.past (head ++ f)).leap other.size
    let g ← other.lower? (σ.past (head ++ f ++ middle))
    some (head ++ f ++ middle ++ g)
  -- the body of a loop leaves it by the exits, and the last branch goes back to the condition
  | .loop condition body => do
    let code ← condition.lowerTo? σ .bool
    let head := σ.round code body.size
    let f ← body.lower? ((σ.past head).within (σ.exits code body.size))
    some (head ++ f ++ σ.again)
  -- nothing is dropped behind an assignment, which has no value
  | .expression e => do
    let (_, code) ← e.lower? σ
    some (.plain (if e.isAssign then code else code ++ [.pop]))
  | .empty => some {}
  | .print none => some {}
  | .print (some x) => do
    let (_, operation) ← σ.load? x
    some (.plain [operation, .print])
  | .bug body => body.lower? σ
  | .ret none =>
    if σ.options.stopStatements ∧ σ.returnType = .void then some (.plain [.ret]) else none
  | .ret (some e) => do
    let code ← e.lowerTo? σ σ.returnType
    if σ.options.stopStatements ∧ σ.returnType ≠ .void then some (.plain (code ++ [.ret]))
    else none
  | .leave exit => do
    let exits ← σ.loop
    if σ.options.stopStatements then some (.jump [] (.branch (exits.target exit)) []) else none

/-- What an item adds.  A name must not be declared twice in the same scope, and nothing but a
method can be of type `void`. -/
def Item.lower? (σ : Site) : Item → Option Fragment
  | .field type x =>
    if !σ.declaredHere x ∧ type.ty ≠ .void then some (σ.field x type.ty) else none
  | .method type x parameters comma body => do
    let f ← body.lower? (σ.body type.ty x parameters)
    if !σ.declaredHere x ∧ Declarator.wellFormed parameters comma then
      some (f.declaration x type.ty parameters)
    else none
  | .statement s => s.lower? σ

/-- What a statement list adds.  Each item is lowered behind those before it. -/
def Items.lower? (σ : Site) : Items → Option Fragment
  | .nil => some {}
  | .cons item rest => do
    let f ← item.lower? σ
    let g ← rest.lower? (σ.past f)
    some (f ++ g)

end

section

variable {σ : Site} {f : Fragment}

theorem Stmt.lower?_branch {condition : Expr .relation} {body : Stmt} :
    (Stmt.branch condition body).lower? σ = some f ↔
      ∃ code, condition.lowerTo? σ .bool = some code ∧
      ∃ g, body.lower? (σ.past (σ.skip code body.size)) = some g ∧
        σ.skip code body.size ++ g = f := by
  simp [Stmt.lower?, Option.bind_eq_some_iff]

theorem Stmt.lower?_choice {condition : Expr .relation} {body other : Stmt} :
    (Stmt.choice condition body other).lower? σ = some f ↔
      ∃ code, condition.lowerTo? σ .bool = some code ∧
      ∃ g, body.lower? (σ.past (σ.skip code (body.size + 1))) = some g ∧
      ∃ h, other.lower? (σ.past (σ.skip code (body.size + 1) ++ g ++
          (σ.past (σ.skip code (body.size + 1) ++ g)).leap other.size)) = some h ∧
        σ.skip code (body.size + 1) ++ g ++
          (σ.past (σ.skip code (body.size + 1) ++ g)).leap other.size ++ h = f := by
  simp [Stmt.lower?, Option.bind_eq_some_iff]

theorem Stmt.lower?_loop {condition : Expr .relation} {body : Stmt} :
    (Stmt.loop condition body).lower? σ = some f ↔ ∃ code, condition.lowerTo? σ .bool = some code ∧
      ∃ g, body.lower? ((σ.past (σ.round code body.size)).within
          (σ.exits code body.size)) = some g ∧
        σ.round code body.size ++ g ++ σ.again = f := by
  simp [Stmt.lower?, Option.bind_eq_some_iff]

theorem Stmt.lower?_expression {e : Expr .relation} :
    (Stmt.expression e).lower? σ = some f ↔ ∃ ty code, e.lower? σ = some (ty, code) ∧
      .plain (if e.isAssign then code else code ++ [.pop]) = f := by
  simp [Stmt.lower?, Option.bind_eq_some_iff]

theorem Stmt.lower?_print {x : String} :
    (Stmt.print (some x)).lower? σ = some f ↔ ∃ ty operation, σ.load? x = some (ty, operation) ∧
      .plain [operation, .print] = f := by
  simp [Stmt.lower?, Option.bind_eq_some_iff]

theorem Stmt.lower?_ret_none : (Stmt.ret none).lower? σ = some f ↔
    (σ.options.stopStatements = true ∧ σ.returnType = .void) ∧ .plain [.ret] = f := by
  simp [Stmt.lower?]

theorem Stmt.lower?_ret_some {e : Expr .relation} :
    (Stmt.ret (some e)).lower? σ = some f ↔ ∃ code, e.lowerTo? σ σ.returnType = some code ∧
      (σ.options.stopStatements = true ∧ σ.returnType ≠ .void) ∧ .plain (code ++ [.ret]) = f := by
  simp [Stmt.lower?, Option.bind_eq_some_iff]

theorem Stmt.lower?_leave {exit : Exit} : (Stmt.leave exit).lower? σ = some f ↔
    ∃ exits, σ.loop = some exits ∧ σ.options.stopStatements = true ∧
      .jump [] (.branch (exits.target exit)) [] = f := by
  simp [Stmt.lower?, Option.bind_eq_some_iff]

theorem Item.lower?_field {type : TypeName} {x : String} :
    (Item.field type x).lower? σ = some f ↔
      (σ.declaredHere x = false ∧ type.ty ≠ .void) ∧ σ.field x type.ty = f := by
  simp [Item.lower?]

theorem Item.lower?_method {type : TypeName} {x : String} {parameters : List Declarator}
    {comma : Bool} {body : Items} :
    (Item.method type x parameters comma body).lower? σ = some f ↔
      ∃ g, body.lower? (σ.body type.ty x parameters) = some g ∧
      (σ.declaredHere x = false ∧ Declarator.wellFormed parameters comma = true) ∧
      g.declaration x type.ty parameters = f := by
  simp [Item.lower?, Option.bind_eq_some_iff]

theorem Items.lower?_cons {item : Item} {rest : Items} :
    (Items.cons item rest).lower? σ = some f ↔ ∃ g, item.lower? σ = some g ∧
      ∃ h, rest.lower? (σ.past g) = some h ∧ g ++ h = f := by
  simp [Items.lower?, Option.bind_eq_some_iff]

end

mutual

/-- The amount of code of a statement does not depend on its place, which is why the sizes taken for
the branches are the right ones. -/
theorem Stmt.length_code : ∀ (s : Stmt) {σ : Site} {f : Fragment}, s.lower? σ = some f →
    f.code.length = s.size
  | .block items, _, _, h => items.length_code h
  -- the code of the condition, one branch, and the code of the body
  | .branch condition body, _, _, h => by
    obtain ⟨code, hc, g, hg, rfl⟩ := Stmt.lower?_branch.mp h
    obtain ⟨found, hc, -⟩ := Expr.lowerTo?_eq_some.mp hc
    have hcondition := Expr.length_of_lower? hc
    have hbody := body.length_code hg
    simp only [Fragment.append_code, List.length_append, Site.length_skip, Stmt.size]
    omega
  | .choice condition body other, _, _, h => by
    obtain ⟨code, hc, g, hg, g', hg', rfl⟩ := Stmt.lower?_choice.mp h
    obtain ⟨found, hc, -⟩ := Expr.lowerTo?_eq_some.mp hc
    have hcondition := Expr.length_of_lower? hc
    have hbody := body.length_code hg
    have hother := other.length_code hg'
    simp only [Fragment.append_code, List.length_append, Site.length_skip, Site.length_leap,
      Stmt.size]
    omega
  | .loop condition body, _, _, h => by
    obtain ⟨code, hc, g, hg, rfl⟩ := Stmt.lower?_loop.mp h
    obtain ⟨found, hc, -⟩ := Expr.lowerTo?_eq_some.mp hc
    have hcondition := Expr.length_of_lower? hc
    have hbody := body.length_code hg
    simp only [Fragment.append_code, List.length_append, Site.length_round, Site.length_again,
      Stmt.size]
    omega
  | .expression e, _, _, h => by
    obtain ⟨ty, code, he, rfl⟩ := Stmt.lower?_expression.mp h
    -- the value of anything but an assignment is dropped, which takes one instruction more
    cases hassign : e.isAssign <;>
      simp [Stmt.size, Fragment.plain, hassign, Expr.length_of_lower? he]
  | .empty, _, _, h => by cases h; rfl
  | .print none, _, _, h => by cases h; rfl
  | .print (some x), _, _, h => by
    obtain ⟨ty, operation, -, rfl⟩ := Stmt.lower?_print.mp h
    rfl
  | .bug body, _, _, h => body.length_code h
  | .ret none, _, _, h => by
    obtain ⟨-, rfl⟩ := Stmt.lower?_ret_none.mp h
    rfl
  | .ret (some e), _, _, h => by
    obtain ⟨code, he, -, rfl⟩ := Stmt.lower?_ret_some.mp h
    obtain ⟨found, he, -⟩ := Expr.lowerTo?_eq_some.mp he
    simp [Stmt.size, Fragment.plain, Expr.length_of_lower? he]
  | .leave exit, _, _, h => by
    obtain ⟨exits, -, -, rfl⟩ := Stmt.lower?_leave.mp h
    rfl

theorem Item.length_code : ∀ (item : Item) {σ : Site} {f : Fragment}, item.lower? σ = some f →
    f.code.length = item.size
  | .field _ _, _, _, h => by
    obtain ⟨-, rfl⟩ := Item.lower?_field.mp h
    rfl
  | .method _ _ _ _ _, _, _, h => by
    obtain ⟨g, -, -, rfl⟩ := Item.lower?_method.mp h
    rfl
  | .statement s, _, _, h => s.length_code h

theorem Items.length_code : ∀ (items : Items) {σ : Site} {f : Fragment}, items.lower? σ = some f →
    f.code.length = items.size
  | .nil, _, _, h => by cases h; rfl
  | .cons item rest, _, _, h => by
    obtain ⟨g, hg, g', hg', rfl⟩ := Items.lower?_cons.mp h
    simp [Items.size, item.length_code hg, rest.length_code hg']

end

/-! ### Programs -/

mutual

/-- The bodies of the methods declared in a statement, in the order of their declaration.  Those
declared within a body come behind it. -/
def Stmt.bodies : Stmt → List Items
  | .block items => items.bodies
  | .branch _ body => body.bodies
  | .choice _ body other => body.bodies ++ other.bodies
  | .loop _ body => body.bodies
  | .bug body => body.bodies
  | .expression _ => []
  | .empty => []
  | .print _ => []
  | .ret _ => []
  | .leave _ => []

/-- The bodies of the methods declared in an item. -/
def Item.bodies : Item → List Items
  | .field _ _ => []
  | .method _ _ _ _ body => body :: body.bodies
  | .statement s => s.bodies

/-- The bodies of the methods declared in a statement list. -/
def Items.bodies : Items → List Items
  | .nil => []
  | .cons item rest => item.bodies ++ rest.bodies

end

/-- The method is what a statement list at the beginning of a method stands for, with some names,
parameters and methods before it.  No loop is around it, and its code begins at offset zero. -/
def Method.Means (options : Options) (body : Items) (m : Method) : Prop :=
  ∃ (σ : Site) (f : Fragment) (parameters : List Declarator),
    body.lower? σ = some f ∧ m = f.method m.name m.returnType parameters ∧ σ.options = options ∧
    σ.returnType = m.returnType ∧ σ.offset = 0 ∧ σ.loop = none

mutual

/-- The methods that a statement brings are the ones its bodies stand for, one for one and in the
same order. -/
theorem Stmt.means_bodies : ∀ (t : Stmt) {σ : Site} {f : Fragment}, t.lower? σ = some f →
    List.Forall₂ (Method.Means σ.options) t.bodies f.methods
  | .block items, _, _, h => items.means_bodies h
  | .branch condition body, _, _, h => by
    obtain ⟨code, -, g, hg, rfl⟩ := Stmt.lower?_branch.mp h
    exact (body.means_bodies hg :)
  | .choice condition body other, σ, _, h => by
    obtain ⟨code, -, g, hg, g', hg', rfl⟩ := Stmt.lower?_choice.mp h
    -- the branches between the two parts bring no methods
    have hmethods : (σ.skip code (body.size + 1) ++ g ++
        (σ.past (σ.skip code (body.size + 1) ++ g)).leap other.size ++ g').methods =
          g.methods ++ g'.methods := by simp [Site.skip, Site.leap]
    rw [hmethods]
    exact List.rel_append (body.means_bodies hg :) (other.means_bodies hg' :)
  | .loop condition body, σ, _, h => by
    obtain ⟨code, -, g, hg, rfl⟩ := Stmt.lower?_loop.mp h
    have hmethods : (σ.round code body.size ++ g ++ σ.again).methods = g.methods := by
      simp [Site.round, Site.again]
    rw [hmethods]
    exact (body.means_bodies hg :)
  | .expression e, _, _, h => by
    obtain ⟨ty, code, -, rfl⟩ := Stmt.lower?_expression.mp h
    exact .nil
  | .empty, _, _, h => by cases h; exact .nil
  | .print none, _, _, h => by cases h; exact .nil
  | .print (some x), _, _, h => by
    obtain ⟨ty, operation, -, rfl⟩ := Stmt.lower?_print.mp h
    exact .nil
  | .bug body, _, _, h => body.means_bodies h
  | .ret none, _, _, h => by
    obtain ⟨-, rfl⟩ := Stmt.lower?_ret_none.mp h
    exact .nil
  | .ret (some e), _, _, h => by
    obtain ⟨code, -, -, rfl⟩ := Stmt.lower?_ret_some.mp h
    exact .nil
  | .leave exit, _, _, h => by
    obtain ⟨exits, -, -, rfl⟩ := Stmt.lower?_leave.mp h
    exact .nil

theorem Item.means_bodies : ∀ (item : Item) {σ : Site} {f : Fragment},
    item.lower? σ = some f → List.Forall₂ (Method.Means σ.options) item.bodies f.methods
  | .field _ _, _, _, h => by
    obtain ⟨-, rfl⟩ := Item.lower?_field.mp h
    exact .nil
  | .method type x parameters comma body, σ, _, h => by
    obtain ⟨g, hg, -, rfl⟩ := Item.lower?_method.mp h
    -- the method itself is what its body stands for, and the methods in the body come behind it
    exact .cons ⟨σ.body type.ty x parameters, g, parameters, hg, rfl, rfl, rfl, rfl, rfl⟩
      (body.means_bodies hg :)
  | .statement t, _, _, h => t.means_bodies h

theorem Items.means_bodies : ∀ (items : Items) {σ : Site} {f : Fragment},
    items.lower? σ = some f → List.Forall₂ (Method.Means σ.options) items.bodies f.methods
  | .nil, _, _, h => by cases h; exact .nil
  | .cons item rest, _, _, h => by
    obtain ⟨g, hg, g', hg', rfl⟩ := Items.lower?_cons.mp h
    exact List.rel_append (item.means_bodies hg) (rest.means_bodies hg' :)

end

/-- The program of a statement list, whose entry method holds the statements outside of all methods.
It is the first method, and the others follow as they are declared. -/
def Items.program? (options : Options) (items : Items) : Option Program := do
  let f ← items.lower? (.entry options)
  some ⟨options.programName, (f.method "main" .void [] :: f.methods).toArray⟩

theorem Items.program?_eq_some {options : Options} {items : Items} {p : Program} :
    items.program? options = some p ↔ ∃ f, items.lower? (.entry options) = some f ∧
      ⟨options.programName, (f.method "main" .void [] :: f.methods).toArray⟩ = p := by
  simp [Items.program?, Option.bind_eq_some_iff]

/-- The methods of a program are what the list itself and the bodies in it stand for.  There is one
method for each of them, and none besides. -/
theorem Items.means_program {options : Options} {items : Items} {p : Program}
    (h : items.program? options = some p) :
    List.Forall₂ (Method.Means options) (items :: items.bodies) p.methods.toList := by
  obtain ⟨f, hf, rfl⟩ := Items.program?_eq_some.mp h
  exact .cons ⟨.entry options, f, [], hf, rfl, rfl, rfl, rfl, rfl⟩ (items.means_bodies hf)

end OnePass
