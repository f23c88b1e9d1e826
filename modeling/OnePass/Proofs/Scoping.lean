import OnePass.Production.Method
import OnePass.Proofs.Lowering
import Std.Data.TreeMap.Lemmas

/-!
# What the names of the scopes stand for

The scopes keep numbers of entities, and the entities apart from them.  Seen from
outside, every open scope is just a map from names to what they stand for; here is how
each change of the scopes changes these maps.

## Main definitions

* `Entity.binding` — what an entity is good for.
* `Scopes.names` — the names of the open scopes, the innermost first.
* `Scopes.Sound` — every number stands for an entity, and every variable has a value.
* `Scopes.declareFormals` — the declaration of all parameters of a method.

## Main results

* `Scopes.find?_binding` — what a name stands for.
* `Scopes.names_declare`, `Scopes.names_enter`, `Scopes.exit_eq_ok` — the effect of the
  changes.
* `Scopes.attachParameter_declareFormals` — parameters that get their slots later are as
  good as parameters declared with them.
-/

namespace OnePass

/-- What an entity is good for.  A parameter whose slot is not known yet is good for
nothing. -/
def Entity.binding : Entity → Binding
  | .type _ _ => .inert
  | .local _ ty slot => .variable ty slot
  | .parameter _ ty _ (some slot) => .parameter ty slot
  | .parameter _ _ _ none => .inert
  | .method _ _ _ _ => .inert

/-- A variable has a type with values, which can be stored in it. -/
def Binding.Valued : Binding → Prop
  | .variable ty _ => ty ≠ .void ∧ ty ≠ .unknown
  | .parameter ty _ => ty ≠ .void ∧ ty ≠ .unknown
  | .inert => True

namespace Scopes

/-- What the names of one scope stand for, where the numbers of entities are left out. -/
def view (s : Scopes) (scope : Scope) : Names := fun x =>
  (scope[x]?.bind s.entity?).map Entity.binding

/-- The names of the open scopes, the innermost first.  The predefined names are the last ones. -/
def names (s : Scopes) : List Names := s.chain.map s.view

/-- The names of a scope all stand for entities that exist. -/
def Known (s : Scopes) (scope : Scope) : Prop :=
  ∀ (x : String) (id : EntityId), scope[x]? = some id → id < s.entities.size

/-- Every name stands for an entity, and every variable has a type with values.  This holds from the
beginning on. -/
structure Sound (s : Scopes) : Prop where
  known : ∀ scope ∈ s.chain, s.Known scope
  valued : ∀ {id : EntityId} {entity : Entity}, s.entities[id]? = some entity →
    entity.binding.Valued

variable {s : Scopes}

/-! ### Looking up -/

theorem Known.view_eq {scope : Scope} (h : s.Known scope) {x : String} {id : EntityId}
    (hx : scope[x]? = some id) :
    ∃ entity, s.entities[id]? = some entity ∧ s.view scope x = some entity.binding := by
  have hlt := h x id hx
  refine ⟨s.entities[id], Array.getElem?_eq_getElem hlt, ?_⟩
  simp [view, hx, entity?, hlt]

/-- The first scope that declares a name decides what it stands for.  So a lookup can be told from
the names alone. -/
theorem find?_binding (h : s.Sound) (x : String) :
    (s.find? x).map Entity.binding = s.names.findSome? (· x) := by
  -- the scopes are searched one after the other, so this is an induction over any number of them
  have hall : ∀ scopes : List Scope, (∀ scope ∈ scopes, s.Known scope) →
      ((scopes.findSome? (·[x]?)).bind s.entity?).map Entity.binding =
        (scopes.map s.view).findSome? (· x) := by
    intro scopes
    induction scopes with
    | nil => intro _; rfl
    | cons scope scopes ih =>
      intro hknown
      cases hx : scope[x]? with
      | none =>
        have hview : s.view scope x = none := by simp [view, hx]
        simpa [hx, hview] using ih fun scope' hs => hknown scope' (List.mem_cons_of_mem _ hs)
      | some id =>
        -- the scope declares the name, and there is an entity with its number
        obtain ⟨entity, hentity, hview⟩ := (hknown scope List.mem_cons_self).view_eq hx
        simp [hx, hview, entity?, hentity]
  exact hall s.chain h.known

theorem names_head? (s : Scopes) : s.names.head? = some (s.view s.innermost) := by
  obtain ⟨entities, outermost, program, nested⟩ := s
  cases nested <;> rfl

/-- A name is declared in the innermost scope if it stands for something there.  The scopes further
out do not matter. -/
theorem declaredHere_eq (h : s.Sound) (x : String) :
    s.declaredHere x = (s.names.head?.bind (· x)).isSome := by
  have hknown : s.Known s.innermost := by
    refine h.known _ ?_
    obtain ⟨entities, outermost, program, nested⟩ := s
    cases nested <;> simp [chain, innermost]
  rw [names_head?, Option.bind_some, declaredHere, Std.TreeMap.contains_eq_isSome_getElem?]
  cases hx : s.innermost[x]? with
  | none => simp [view, hx]
  | some id =>
    obtain ⟨entity, -, hview⟩ := hknown.view_eq hx
    simp [hview]

/-- What a variable in scope stands for has a type with values.  So no variable is of type
`void`. -/
theorem Sound.valued_names (h : s.Sound) {names : Names} (hn : names ∈ s.names) {x : String}
    {b : Binding} (hb : names x = some b) : b.Valued := by
  obtain ⟨scope, -, rfl⟩ := List.mem_map.mp hn
  obtain ⟨entity, hentity, rfl⟩ := Option.map_eq_some_iff.mp hb
  obtain ⟨id, -, hentity⟩ := Option.bind_eq_some_iff.mp hentity
  exact h.valued hentity

/-! ### Changes -/

/-- A scope looks the same if the entities it knows are still good for the same, even if they have
changed otherwise. -/
theorem view_congr {s' : Scopes} {scope : Scope}
    (h : ∀ {x : String} {id : EntityId}, scope[x]? = some id →
      (s'.entities[id]?).map Entity.binding = (s.entities[id]?).map Entity.binding) :
    s'.view scope = s.view scope := by
  funext x
  unfold view
  cases hx : scope[x]? with
  | none => rfl
  | some id => exact h hx

/-- A scope looks the same after one more entity, since it cannot know its number yet. -/
theorem view_push {s' : Scopes} {scope : Scope} {entity : Entity} (hknown : s.Known scope)
    (hs' : s'.entities = s.entities.push entity) : s'.view scope = s.view scope := by
  refine view_congr fun {x id} hx => ?_
  have hlt := hknown x id hx
  rw [hs', Array.getElem?_push_lt hlt, Array.getElem?_eq_getElem hlt]

/-- One more name in a scope, which stands for the entity that is added last. -/
theorem view_insert {s' : Scopes} {scope : Scope} (entity : Entity) (hknown : s.Known scope)
    (hs' : s'.entities = s.entities.push entity) :
    s'.view (scope.insert entity.name s.entities.size) =
      (s.view scope).declare entity.name entity.binding := by
  funext x
  have hold := congrFun (view_push hknown hs') x
  simp only [view, Names.declare] at hold ⊢
  rw [Std.TreeMap.getElem?_insert]
  by_cases hx : entity.name = x
  · simp [hx, entity?, hs']
  · simpa [hx, Ne.symm hx] using hold

theorem Known.push {s' : Scopes} {scope : Scope} {entity : Entity} (h : s.Known scope)
    (hs' : s'.entities = s.entities.push entity) : s'.Known scope := by
  intro x id hx
  have hlt := h x id hx
  rw [hs', Array.size_push]
  exact Nat.lt_succ_of_lt hlt

theorem Known.insert {s' : Scopes} {scope : Scope} {entity : Entity} (h : s.Known scope)
    (hs' : s'.entities = s.entities.push entity) (x : String) :
    s'.Known (scope.insert x s.entities.size) := by
  intro y id hy
  rw [Std.TreeMap.getElem?_insert] at hy
  split at hy
  · cases hy
    simp [hs']
  · exact h.push hs' y id hy

/-- A declaration adds a name to the innermost scope.  It hides the same name further out. -/
theorem names_declare (h : s.Sound) (entity : Entity) :
    (s.declare entity).2.names =
      s.names.modifyHead (·.declare entity.name entity.binding) := by
  obtain ⟨entities, outermost, program, nested⟩ := s
  have hknown (scope : Scope) (hs : scope ∈ chain ⟨entities, outermost, program, nested⟩) :=
    h.known scope hs
  -- the innermost scope is that of the program, or one within it
  cases nested with
  | nil =>
    simp only [names, chain, declare, List.nil_append, List.map_cons, List.map_nil,
      List.modifyHead_cons]
    rw [view_insert entity (hknown program (by simp [chain])) rfl,
      view_push (hknown outermost (by simp [chain])) rfl]
  | cons scope rest =>
    simp only [names, chain, declare, List.cons_append, List.map_cons, List.modifyHead_cons]
    rw [view_insert entity (hknown scope (by simp [chain])) rfl]
    congr 1
    refine List.map_congr_left fun scope' hs => view_push (hknown scope' ?_) rfl
    simp only [chain, List.cons_append]
    exact List.mem_cons_of_mem _ hs

theorem Sound.declare (h : s.Sound) {entity : Entity} (hentity : entity.binding.Valued) :
    (s.declare entity).2.Sound := by
  have hentities : (s.declare entity).2.entities = s.entities.push entity := by
    obtain ⟨entities, outermost, program, nested⟩ := s
    cases nested <;> rfl
  constructor
  · -- the innermost scope gets the name, and the others know the entities they knew
    obtain ⟨entities, outermost, program, nested⟩ := s
    cases nested with
    | nil =>
      intro scope hs
      simp only [chain, Scopes.declare, List.nil_append, List.mem_cons, List.not_mem_nil,
        or_false] at hs
      rcases hs with rfl | rfl
      · exact (h.known program (by simp [chain])).insert rfl _
      · exact (h.known scope (by simp [chain])).push rfl
    | cons inner rest =>
      intro scope hs
      simp only [chain, Scopes.declare, List.cons_append, List.mem_cons] at hs
      rcases hs with rfl | hs
      · exact (h.known inner (by simp [chain])).insert rfl _
      · refine (h.known scope ?_).push rfl
        simp only [chain, List.cons_append]
        exact List.mem_cons_of_mem _ hs
  · intro id entity' hid
    rw [hentities, Array.getElem?_push] at hid
    split at hid
    · cases hid
      exact hentity
    · exact h.valued hid

/-- A new scope has no names, so it hides none of the others. -/
theorem names_enter (s : Scopes) : s.enter.names = .none :: s.names := by
  have hempty : s.enter.view ∅ = .none := by
    funext x
    simp [view, Names.none]
  exact congrArg (· :: s.names) hempty

theorem Sound.enter (h : s.Sound) : s.enter.Sound where
  known scope hs := by
    rcases List.mem_cons.mp hs with rfl | hs
    · intro x id hx
      simp at hx
    · exact h.known scope hs
  valued := h.valued

/-- Leaving a scope takes its names away, and those around it can be seen again. -/
theorem exit_eq_ok (h : s.Sound) (hs : s.nested ≠ []) :
    ∃ s', exit s = .ok () s' ∧ s'.nested = s.nested.tail ∧ s'.Sound ∧ s'.names = s.names.tail := by
  obtain ⟨entities, outermost, program, nested⟩ := s
  cases nested with
  | nil => exact absurd rfl hs
  | cons scope rest =>
    refine ⟨⟨entities, outermost, program, rest⟩, rfl, rfl, ⟨fun scope' hs' => ?_, h.valued⟩, rfl⟩
    exact h.known scope' (List.mem_cons_of_mem _ hs')

/-- Telling a method its number changes no name, because a method is good for nothing here either
way. -/
theorem attachMethod_eq_ok (h : s.Sound) {id : EntityId} {name : String} {returnType : Ty}
    {old : List EntityId} {number : Option MethodId}
    (hid : s.entities[id]? = some (.method name returnType old number)) (method : MethodId)
    (parameters : List EntityId) :
    ∃ s', attachMethod id method parameters s = .ok () s' ∧ s'.nested = s.nested ∧ s'.Sound ∧
      s'.names = s.names := by
  -- the entity is a method before and after, and the others are not touched
  have hget (j : EntityId) : ((s.entities.setIfInBounds id
      (.method name returnType parameters (some method)))[j]?).map Entity.binding =
        (s.entities[j]?).map Entity.binding := by
    rw [Array.getElem?_setIfInBounds]
    by_cases hj : id = j
    · subst hj
      rw [if_pos rfl, if_pos (Array.getElem?_eq_some_iff.mp hid).1, hid]
      rfl
    · rw [if_neg hj]
  refine ⟨⟨s.entities.setIfInBounds id (.method name returnType parameters (some method)),
    s.outermost, s.program, s.nested⟩, ?_, rfl, ⟨?_, ?_⟩, ?_⟩
  · simp only [attachMethod, hid]
  · intro scope hs x i hx
    simpa using h.known scope hs x i hx
  · intro j entity hj
    rw [Array.getElem?_setIfInBounds] at hj
    split at hj
    · split at hj
      · cases hj
        trivial
      · cases hj
    · exact h.valued hj
  · exact List.map_congr_left fun scope _ => view_congr fun _ => hget _

/-- One more predefined type, in the outermost scope and out of the way of all others. -/
theorem declareGlobal_type (h : s.Sound) (hs : s.nested = []) (name : String) (ty : Ty) :
    let s' := (s.declareGlobal (.type name ty)).2
    s'.Sound ∧ s'.nested = [] ∧
      s'.names = [s.view s.program, (s.view s.outermost).declare name .inert] := by
  obtain ⟨entities, outermost, program, nested⟩ := s
  subst hs
  have hprogram := h.known program (by simp [chain])
  have houtermost := h.known outermost (by simp [chain])
  refine ⟨⟨?_, ?_⟩, rfl, ?_⟩
  · intro scope hscope
    simp only [chain, declareGlobal, List.nil_append, List.mem_cons, List.not_mem_nil,
      or_false] at hscope
    rcases hscope with rfl | rfl
    · exact hprogram.push rfl
    · exact houtermost.insert rfl _
  · intro id entity hid
    simp only [declareGlobal, Array.getElem?_push] at hid
    split at hid
    · cases hid
      trivial
    · exact h.valued hid
  · simp only [names, chain, declareGlobal, List.nil_append, List.map_cons, List.map_nil]
    rw [view_push hprogram rfl]
    exact congrArg (fun n => [_, n]) (view_insert (.type name ty) houtermost rfl)

/-- The names of the types, declared one after the other, all in the outermost scope. -/
theorem declareGlobal_types (types : List (String × Ty)) : ∀ {s : Scopes}, s.Sound →
    s.nested = [] →
    let s' := types.foldl (fun s t => (s.declareGlobal (.type t.1 t.2)).2) s
    s'.Sound ∧ s'.names = [s.view s.program,
      (s.view s.outermost).declareAll (types.map fun t => (t.1, .inert))] := by
  induction types with
  | nil =>
    intro s h hs
    refine ⟨h, ?_⟩
    simp [names, chain, hs]
  | cons t types ih =>
    intro s h hs
    obtain ⟨hsound, hnested, hnames⟩ := declareGlobal_type h hs t.1 t.2
    obtain ⟨hsound', hnames'⟩ := ih hsound hnested
    refine ⟨hsound', ?_⟩
    simp only [names, chain, hnested, List.nil_append, List.map_cons, List.map_nil,
      List.cons.injEq, and_true] at hnames
    rw [List.foldl_cons, hnames', hnames.1, hnames.2]
    rfl

/-- Every program starts with the names of the types, and with no names of its own. -/
theorem sound_initial : initial.Sound ∧ initial.names = [.none, .predefined] := by
  have hempty : Sound ({} : Scopes) := by
    refine ⟨fun scope hs x id hx => ?_, fun h => ?_⟩
    · simp only [chain, List.nil_append, List.mem_cons, List.not_mem_nil, or_false, or_self] at hs
      subst hs
      simp at hx
    · simp at h
  have hview : ({} : Scopes).view ∅ = .none := by
    funext x
    simp [view, Names.none]
  obtain ⟨hsound, hnames⟩ := declareGlobal_types Ty.predefined hempty rfl
  refine ⟨hsound, hnames.trans ?_⟩
  rw [hview]
  congr 2
  funext x
  simp only [Ty.predefined, Names.predefined, List.map_cons, List.map_nil, Names.declareAll,
    List.foldl_cons, List.foldl_nil, Names.declare, Names.none, List.mem_cons, List.not_mem_nil,
    or_false]
  grind

/-! ### Parameters -/

/-- Declares the parameters of a method, the first one with the given ordinal.  Their
slots are known, or not yet. -/
def declareFormals (slot : Nat → Option ParameterSlot) : (ordinal : Nat) → List (String × Ty) →
    Scopes → Scopes
  | _, [], s => s
  | ordinal, (x, ty) :: parameters, s =>
    declareFormals slot (ordinal + 1) parameters
      (s.declare (.parameter x ty ordinal (slot ordinal))).2

/-- What these parameters stand for.  Without a slot a parameter is good for nothing. -/
def formalBindings (slot : Nat → Option ParameterSlot) : (ordinal : Nat) → List (String × Ty) →
    List (String × Binding)
  | _, [] => []
  | ordinal, (x, ty) :: parameters =>
    (x, (Entity.parameter x ty ordinal (slot ordinal)).binding)
      :: formalBindings slot (ordinal + 1) parameters

/-- A new entity gets the next number, whatever scope its name goes to. -/
theorem declare_eq (s : Scopes) (entity : Entity) :
    s.declare entity = (s.entities.size, (s.declare entity).2) := by
  obtain ⟨entities, outermost, program, nested⟩ := s
  cases nested <;> rfl

@[simp] theorem entities_declare (s : Scopes) (entity : Entity) :
    (s.declare entity).2.entities = s.entities.push entity := by
  obtain ⟨entities, outermost, program, nested⟩ := s
  cases nested <;> rfl

@[simp] theorem length_nested_declare (s : Scopes) (entity : Entity) :
    (s.declare entity).2.nested.length = s.nested.length := by
  obtain ⟨entities, outermost, program, nested⟩ := s
  cases nested <;> rfl

@[simp] theorem length_nested_declareFormals (slot : Nat → Option ParameterSlot)
    (ordinal : Nat) (parameters : List (String × Ty)) (s : Scopes) :
    (declareFormals slot ordinal parameters s).nested.length = s.nested.length := by
  induction parameters generalizing ordinal s with
  | nil => rfl
  | cons p parameters ih => simp [declareFormals, ih]

/-- Entities that are there stay there, under their numbers. -/
theorem getElem?_declareFormals (slot : Nat → Option ParameterSlot) (ordinal : Nat)
    (parameters : List (String × Ty)) {s : Scopes} {id : EntityId} {entity : Entity}
    (h : s.entities[id]? = some entity) :
    (declareFormals slot ordinal parameters s).entities[id]? = some entity := by
  induction parameters generalizing ordinal s with
  | nil => exact h
  | cons p parameters ih =>
    refine ih _ ?_
    obtain ⟨hlt, rfl⟩ := Array.getElem?_eq_some_iff.mp h
    rw [entities_declare, Array.getElem?_push_lt hlt]

theorem Sound.declareFormals {s : Scopes} (h : s.Sound) (slot : Nat → Option ParameterSlot)
    (ordinal : Nat) {parameters : List (String × Ty)}
    (hvalued : ∀ p ∈ parameters, p.2 ≠ .void ∧ p.2 ≠ .unknown) :
    (Scopes.declareFormals slot ordinal parameters s).Sound ∧
      (Scopes.declareFormals slot ordinal parameters s).names =
        s.names.modifyHead (·.declareAll (formalBindings slot ordinal parameters)) := by
  induction parameters generalizing ordinal s with
  | nil => exact ⟨h, by cases hn : s.names <;> simp [Scopes.declareFormals, formalBindings, hn]⟩
  | cons p parameters ih =>
    -- a parameter has a value or, without its slot, stands for nothing yet
    have hp : (Entity.parameter p.1 p.2 ordinal (slot ordinal)).binding.Valued := by
      cases hslot : slot ordinal with
      | none => trivial
      | some slot => exact hvalued p List.mem_cons_self
    obtain ⟨hsound, hnames⟩ := ih (h.declare hp) (ordinal + 1) fun q hq =>
      hvalued q (List.mem_cons_of_mem _ hq)
    refine ⟨hsound, ?_⟩
    rw [Scopes.declareFormals, hnames, names_declare h, List.modifyHead_modifyHead]
    rfl

/-- The scopes with another entity under a number, and the same names. -/
def put (id : EntityId) (entity : Entity) (s : Scopes) : Scopes :=
  { s with entities := s.entities.setIfInBounds id entity }

/-- A change of an entity does not matter to later declarations, so it can be made before or after
them. -/
theorem declareFormals_put {slot : Nat → Option ParameterSlot} {id : EntityId} {entity : Entity}
    {parameters : List (String × Ty)} {ordinal : Nat} {s : Scopes} (h : id < s.entities.size) :
    declareFormals slot ordinal parameters (s.put id entity) =
      (declareFormals slot ordinal parameters s).put id entity := by
  induction parameters generalizing ordinal s with
  | nil => rfl
  | cons p parameters ih =>
    -- the entity that is changed is not the last one, so the two changes do not meet
    have hdeclare (new : Entity) :
        ((s.put id entity).declare new).2 = (s.declare new).2.put id entity := by
      have hset : (s.entities.push new).setIfInBounds id entity =
          (s.entities.setIfInBounds id entity).push new := by
        simp [Array.setIfInBounds, h, Nat.lt_succ_of_lt h, Array.set_push]
      obtain ⟨entities, outermost, program, nested⟩ := s
      cases nested <;> simpa [declare, put] using hset.symm
    have hlt (new : Entity) : id < (s.declare new).2.entities.size := by
      rw [entities_declare, Array.size_push]
      exact Nat.lt_succ_of_lt h
    rw [declareFormals, hdeclare, ih (hlt _)]
    rfl

/-- The first parameter gets its slot, after all of them have been declared.  It is as if it had
been declared with it. -/
theorem attachParameter_declareFormals (s : Scopes) (x : String) (ty : Ty) (ordinal : Nat)
    (parameters : List (String × Ty)) (slot : ParameterSlot) :
    attachParameter s.entities.size slot
        (declareFormals (fun _ => none) ordinal ((x, ty) :: parameters) s) =
      .ok () (declareFormals (fun _ => none) (ordinal + 1) parameters
        (s.declare (.parameter x ty ordinal (some slot))).2) := by
  have hput : (s.declare (.parameter x ty ordinal (some slot))).2 =
      (s.declare (.parameter x ty ordinal none)).2.put s.entities.size
        (.parameter x ty ordinal (some slot)) := by
    obtain ⟨entities, outermost, program, nested⟩ := s
    cases nested <;> simp [declare, put, Entity.name, Array.setIfInBounds, Array.set_push]
  have hlt : s.entities.size < (s.declare (.parameter x ty ordinal none)).2.entities.size := by
    simp
  have hnew : (s.declare (.parameter x ty ordinal none)).2.entities[s.entities.size]? =
      some (.parameter x ty ordinal none) := by simp
  have hget := getElem?_declareFormals (fun _ => none) (ordinal + 1) parameters hnew
  -- declaring the parameter with its slot is changing it afterwards
  rw [hput, declareFormals_put hlt, declareFormals]
  simp only [attachParameter, hget]
  rfl

end Scopes

end OnePass
