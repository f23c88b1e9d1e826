import OnePass.Instruction

/-!
# Entities

What a name of the source can stand for: a predefined type, a local variable, a
parameter or a method.  Entities are stored in the order of their declaration and
refer to each other by their number in that order.

## Main definitions

* `EntityId`, `Entity` — numbers, and what they stand for.
* `Entity.text` — an entity as the log shows it.
* `Entity.detail` — an entity with all that is known of it, as fault messages show it.
-/

namespace OnePass

/-- The number of an entity, in the order of declaration.  It names the same entity for good, also
after its scope is closed. -/
abbrev EntityId := Nat

/-- What a name stands for.  A part that becomes known only later is missing until then. -/
inductive Entity
  | type (name : String) (ty : Ty)
  | local (name : String) (ty : Ty) (slot : LocalSlot)
  /-- A parameter; its slot is known once its method is in the program. -/
  | parameter (name : String) (ty : Ty) (ordinal : Nat) (slot : Option ParameterSlot)
  /-- A method; parameters and number are known once its header has been read. -/
  | method (name : String) (returnType : Ty) (parameters : List EntityId)
      (id : Option MethodId)
  deriving DecidableEq, Repr

namespace Entity

/-- The name of an entity. -/
def name : Entity → String
  | .type name _ => name
  | .local name _ _ => name
  | .parameter name _ _ _ => name
  | .method name _ _ _ => name

/-- The type of an entity; for a method, that of what it returns. -/
def ty : Entity → Ty
  | .type _ ty => ty
  | .local _ ty _ => ty
  | .parameter _ ty _ _ => ty
  | .method _ returnType _ _ => returnType

/-- An entity as the log shows it, in short. -/
def text : Entity → String
  | .type name ty => s!"type {name} = {ty.spelling}"
  | .local name ty slot => s!"local {ty.spelling} {name} (slot {slot.index})"
  | .parameter name ty ordinal _ => s!"parameter {ty.spelling} {name} (#{ordinal})"
  | .method name returnType parameters _ =>
    s!"method {returnType.spelling} {name}/{parameters.length}"

end Entity

/-! ### Details for fault messages -/

/-- The long name of a type, which only fault messages use. -/
def Ty.longName : Ty → String
  | .int => "Integer"
  | .bool => "Boolean"
  | .char => "Character"
  | .string => "String"
  | .ref => "OpaqueReference"
  | .void => "Void"
  | .unknown => "Unknown"

/-- A local variable with its method and index. -/
def LocalSlot.detail (slot : LocalSlot) : String :=
  s!"LocalHandle \x7b method: MethodHandle({slot.method}), index: {slot.index} \x7d"

/-- A parameter with its method and ordinal. -/
def ParameterSlot.detail (slot : ParameterSlot) : String :=
  s!"ParamHandle \x7b method: MethodHandle({slot.method}), ordinal: {slot.ordinal} \x7d"

/-- A value that may be missing. -/
def optionDetail : Option String → String
  | some detail => s!"Some({detail})"
  | none => "None"

/-- An entity with all that is known of it, and with what is still missing shown as such. -/
def Entity.detail : Entity → String
  | .type name ty => s!"PrimitiveType \x7b name: {Text.quoted name}, ty: {ty.longName} \x7d"
  | .local name ty slot =>
    s!"Local \x7b name: {Text.quoted name}, ty: {ty.longName}, handle: {slot.detail} \x7d"
  | .parameter name ty ordinal slot =>
    let handle := optionDetail (slot.map ParameterSlot.detail)
    s!"Parameter \x7b name: {Text.quoted name}, ty: {ty.longName}, ordinal: {ordinal}, "
      ++ s!"handle: {handle} \x7d"
  | .method name returnType parameters id =>
    let ids := ", ".intercalate (parameters.map fun id => s!"SymbolId({id})")
    let handle := optionDetail (id.map fun id => s!"MethodHandle({id})")
    s!"Method \x7b name: {Text.quoted name}, return_type: {returnType.longName}, "
      ++ s!"parameters: [{ids}], handle: {handle} \x7d"

end OnePass
