import OnePass.Fault
import Std.Data.TreeMap.Basic

/-!
# Scopes

A name stands for the entity it was last declared as in the innermost scope that
declares it.  The outermost scope holds the predefined types, the one inside it
belongs to the program; these two are always there, and every method opens one more.
Entities outlive their scope: a number once given out always names the same entity.

## Main definitions

* `Scope` — the names declared in one scope.
* `Scopes` — all entities, and the scopes that are open.
* `Scopes.resolve?`, `Scopes.find?` — what a name stands for.
* `Scopes.declaredHere` — whether the innermost scope declares a name.
* `Scopes.declare`, `Scopes.declareGlobal` — new entities.
* `Scopes.enter`, `Scopes.exit` — opening and closing a scope.
* `Scopes.attachMethod`, `Scopes.attachParameter` — what becomes known of an entity
  after its declaration.
-/

namespace OnePass

/-- The names declared in one scope, each with the number of the entity declared last. -/
abbrev Scope := Std.TreeMap String EntityId

/-- All entities, and the open scopes. -/
structure Scopes where
  /-- The entities, in the order of their declaration. -/
  entities : Array Entity := #[]
  /-- The outermost scope, which holds the predefined types. -/
  outermost : Scope := ∅
  /-- The scope of the program. -/
  program : Scope := ∅
  /-- The scopes of the methods being read, the innermost first. -/
  nested : List Scope := []

namespace Scopes

/-- The open scopes, the innermost first.  A name is looked up in this order. -/
def chain (s : Scopes) : List Scope := s.nested ++ [s.program, s.outermost]

/-- The innermost scope, which is that of the program outside of every method. -/
def innermost (s : Scopes) : Scope := s.nested.headD s.program

/-- How many scopes are open inside the outermost one. -/
def depth (s : Scopes) : Nat := s.nested.length + 1

/-- Whether the innermost scope declares a name. -/
def declaredHere (s : Scopes) (name : String) : Bool := s.innermost.contains name

/-- The number of the entity a name stands for: the first scope of the chain that has the name
counts. -/
def resolve? (s : Scopes) (name : String) : Option EntityId :=
  s.chain.findSome? (·[name]?)

/-- The entity with a given number. -/
def entity? (s : Scopes) (id : EntityId) : Option Entity := s.entities[id]?

/-- The entity a name stands for, if any open scope declares the name. -/
def find? (s : Scopes) (name : String) : Option Entity := (s.resolve? name).bind s.entity?

/-- Declares an entity in the innermost scope.  An earlier declaration of the same name
in that scope is replaced there. -/
def declare (entity : Entity) (s : Scopes) : EntityId × Scopes :=
  let id := s.entities.size
  match s with
  | ⟨entities, outermost, program, []⟩ =>
    (id, ⟨entities.push entity, outermost, program.insert entity.name id, []⟩)
  | ⟨entities, outermost, program, scope :: rest⟩ =>
    (id, ⟨entities.push entity, outermost, program, scope.insert entity.name id :: rest⟩)

/-- Declares an entity in the outermost scope, whatever scopes are open. -/
def declareGlobal (entity : Entity) (s : Scopes) : EntityId × Scopes :=
  let id := s.entities.size
  match s with
  | ⟨entities, outermost, program, nested⟩ =>
    (id, ⟨entities.push entity, outermost.insert entity.name id, program, nested⟩)

/-- The scopes every program starts with: the predefined types, and no other name. -/
def initial : Scopes :=
  Ty.predefined.foldl (fun s (name, ty) => (s.declareGlobal (.type name ty)).2) {}

/-- Opens a scope, in which no name is declared yet. -/
def enter (s : Scopes) : Scopes := { s with nested := ∅ :: s.nested }

/-- Closes the innermost scope.  The scope of the program is never closed. -/
def exit : EStateM Fault Scopes Unit
  | ⟨entities, outermost, program, []⟩ =>
    .error .outermostScope ⟨entities, outermost, program, []⟩
  | ⟨entities, outermost, program, _ :: rest⟩ =>
    .ok () ⟨entities, outermost, program, rest⟩

/-- Gives a declared method its number and its parameters, which are known only after its header has
been read. -/
def attachMethod (id : EntityId) (method : MethodId) (parameters : List EntityId) :
    EStateM Fault Scopes Unit := fun s =>
  match s.entities[id]? with
  | some (.method name returnType _ _) =>
    .ok () { s with
      entities := s.entities.setIfInBounds id
        (.method name returnType parameters (some method)) }
  | some entity => .error (.notAMethod entity) s
  | none => .error (.unknownEntity id) s

/-- Gives a declared parameter its slot, which is known only when its method is in the program. -/
def attachParameter (id : EntityId) (slot : ParameterSlot) :
    EStateM Fault Scopes Unit := fun s =>
  match s.entities[id]? with
  | some (.parameter name ty ordinal _) =>
    .ok () { s with
      entities := s.entities.setIfInBounds id (.parameter name ty ordinal (some slot)) }
  | some entity => .error (.notAParameter entity) s
  | none => .error (.unknownEntity id) s

end Scopes

end OnePass
