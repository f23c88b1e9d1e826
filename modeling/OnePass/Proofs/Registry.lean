import OnePass.Proofs.Consumption
import OnePass.Proofs.Patching
import OnePass.Proofs.Unbroken

/-!
# Entities and the methods of the program

The scopes keep entities, and the program being built keeps methods with parameters and
locals.  The two are written apart, but they tell the same: the methods among the
entities are those of the program behind the entry method, in the same order, each with
its parameters; and the locals among the entities are the locals of all methods.  This
holds after every pass that comes to its end, errors or not.

## Main definitions

* `Heading`, `Method.heading` — what a method declares.
* `Registered` — some entities and some methods tell the same.
* `Production.Registers` — a production that keeps them telling the same.

## Main results

* `Registered.addLocal`, `Registered.addMethod` — what a declaration adds on both sides.
* `Assembler.Call.headings_of_quiet` — no other request changes what methods declare.
* `Production.registers_declarationForm` — declarations keep both sides telling the same.
* `entities_match_program` — **scopes and program agree after every pass**.
-/

namespace OnePass

/-! ### What both sides declare -/

/-- What a method declares: all of a method that is not code. -/
structure Heading where
  name : String
  returnType : Ty
  parameters : List Parameter := []
  locals : List Variable := []
  deriving DecidableEq, Repr

/-- What a method of the program declares. -/
def Method.heading (m : Method) : Heading :=
  ⟨m.name, m.returnType, m.parameters.toList, m.locals.toList⟩

/-- Whether an entity is a method. -/
def Entity.isMethod : Entity → Bool
  | .method _ _ _ _ => true
  | _ => false

/-- The entities with the given numbers are the parameters of a method, in order, with their
ordinals and slots, and none of them is without a name. -/
structure Lists (entities : List Entity) (method : MethodId) (ids : List EntityId)
    (parameters : List Parameter) : Prop where
  length_eq : ids.length = parameters.length
  parameter : ∀ (j : Nat) (id : EntityId), ids[j]? = some id →
    ∃ name ty, parameters[j]? = some ⟨ty, some name⟩ ∧
      entities[id]? = some (.parameter name ty (j + 1) (some ⟨method, j + 1⟩))

/-- The methods among the entities are those of a program behind its first one, in order, each
with its number, its types and its parameters.  The locals among the entities are all locals of
these methods, each of them once. -/
structure Registered (entities : List Entity) (headings : List Heading) : Prop where
  length_methods : (entities.filter Entity.isMethod).length + 1 = headings.length
  methods : ∀ (k : Nat) (entity : Entity), (entities.filter Entity.isMethod)[k]? = some entity →
    ∃ heading ids, headings[k + 1]? = some heading ∧
      entity = .method heading.name heading.returnType ids (some (k + 1)) ∧
      Lists entities (k + 1) ids heading.parameters
  locals : ∀ (id : EntityId) (name : String) (ty : Ty) (slot : LocalSlot),
    entities[id]? = some (.local name ty slot) →
    ∃ heading, headings[slot.method]? = some heading ∧ heading.locals[slot.index]? = some ⟨name, ty⟩
  distinct : ∀ (id id' : EntityId) (name name' : String) (ty ty' : Ty) (slot : LocalSlot),
    entities[id]? = some (.local name ty slot) → entities[id']? = some (.local name' ty' slot) →
    id = id'
  covered : ∀ (method : MethodId) (heading : Heading) (index : Nat) (v : Variable),
    headings[method]? = some heading → heading.locals[index]? = some v →
    ∃ id : EntityId, entities[id]? = some (.local v.name v.type ⟨method, index⟩)

/-- What is found in a list is found in a longer one, at the same place. -/
theorem getElem?_append_of_eq_some {α : Type} {l : List α} {i : Nat} {a : α} (h : l[i]? = some a)
    (l' : List α) : (l ++ l')[i]? = some a := by
  rw [List.getElem?_append_left (List.getElem?_eq_some_iff.mp h).1, h]

/-- What is found in a list with one more element is found before it, or is that element. -/
theorem getElem?_concat_eq_some {α : Type} {l : List α} {x a : α} {i : Nat}
    (h : (l ++ [x])[i]? = some a) : l[i]? = some a ∨ i = l.length ∧ x = a := by
  rcases Nat.lt_or_ge i l.length with hlt | hge
  · rw [List.getElem?_append_left hlt] at h
    exact .inl h
  · obtain rfl : i = l.length := by
      have hlt := (List.getElem?_eq_some_iff.mp h).1
      rw [List.length_append, List.length_singleton] at hlt
      omega
    rw [List.getElem?_concat_length] at h
    exact .inr ⟨rfl, Option.some.inj h⟩

section

variable {entities : List Entity} {headings : List Heading}

/-- More entities do not change what is listed. -/
theorem Lists.append {method : MethodId} {ids : List EntityId} {parameters : List Parameter}
    (h : Lists entities method ids parameters) (more : List Entity) :
    Lists (entities ++ more) method ids parameters where
  length_eq := h.length_eq
  parameter j id hid := by
    obtain ⟨name, ty, hparameter, hentity⟩ := h.parameter j id hid
    exact ⟨name, ty, hparameter, getElem?_append_of_eq_some hentity more⟩

namespace Registered

/-- Before anything is declared there are types only, and the entry method, which is not among the
entities. -/
theorem begun (name : String) (returnType : Ty)
    (h : ∀ entity ∈ entities, ∃ x ty, entity = .type x ty) :
    Registered entities [⟨name, returnType, [], []⟩] := by
  have hnone : entities.filter Entity.isMethod = [] := by
    refine List.filter_eq_nil_iff.mpr fun entity hentity => ?_
    obtain ⟨x, ty, rfl⟩ := h entity hentity
    simp [Entity.isMethod]
  have hlocal (id : EntityId) (x : String) (ty : Ty) (slot : LocalSlot) :
      entities[id]? ≠ some (.local x ty slot) := by
    intro hid
    obtain ⟨_, _, heq⟩ := h _ (List.mem_of_getElem? hid)
    cases heq
  refine ⟨by rw [hnone]; rfl, ?_, ?_, ?_, ?_⟩
  · intro k entity hentity
    rw [hnone] at hentity
    cases hentity
  · exact fun id x ty slot hid => absurd hid (hlocal id x ty slot)
  · exact fun id _ x _ ty _ slot hid _ => absurd hid (hlocal id x ty slot)
  · intro method heading index v hheading hv
    obtain rfl := List.mem_singleton.mp (List.mem_of_getElem? hheading)
    simp at hv

/-- The slot behind the last local of a method is not taken, so a new local can have it. -/
theorem slot_free (h : Registered entities headings) {method : MethodId} {heading : Heading}
    (hheading : headings[method]? = some heading) (id : EntityId) (name : String) (ty : Ty) :
    entities[id]? ≠ some (.local name ty ⟨method, heading.locals.length⟩) := by
  intro hid
  obtain ⟨heading', hheading', hlocal⟩ := h.locals id name ty _ hid
  obtain rfl := Option.some.inj (hheading.symm.trans hheading')
  simp at hlocal

/-- One more local changes the locals of its method only, and of those it changes none. -/
theorem getElem?_set_locals {method : MethodId} {heading : Heading}
    (hheading : headings[method]? = some heading) (v : Variable) {k : Nat} {heading' : Heading}
    (hk : headings[k]? = some heading') : ∃ more,
    (headings.set method { heading with locals := heading.locals ++ [v] })[k]? =
      some { heading' with locals := heading'.locals ++ more } := by
  by_cases hmethod : method = k
  · subst hmethod
    obtain rfl := Option.some.inj (hheading.symm.trans hk)
    exact ⟨[v], List.getElem?_set_self (List.getElem?_eq_some_iff.mp hheading).1⟩
  · refine ⟨[], ?_⟩
    rw [List.getElem?_set_ne hmethod, hk, List.append_nil]

/-- A local among the entities is an old one, or the new one. -/
theorem getElem?_concat_local {v : Variable} {slot slot' : LocalSlot} {id : EntityId}
    {name : String} {ty : Ty} (hid : (entities ++ [Entity.local v.name v.type slot])[id]? =
      some (.local name ty slot')) :
    entities[id]? = some (.local name ty slot') ∨
      id = entities.length ∧ v = ⟨name, ty⟩ ∧ slot' = slot := by
  rcases getElem?_concat_eq_some hid with hid | ⟨hlast, heq⟩
  · exact .inl hid
  · cases heq
    exact .inr ⟨hlast, rfl, rfl⟩

/-- One more local on both sides: behind the locals of its method, and behind all entities. -/
theorem addLocal (h : Registered entities headings) {method : MethodId} {heading : Heading}
    (hheading : headings[method]? = some heading) (v : Variable) :
    Registered (entities ++ [Entity.local v.name v.type ⟨method, heading.locals.length⟩])
      (headings.set method { heading with locals := heading.locals ++ [v] }) := by
  have hlt := (List.getElem?_eq_some_iff.mp hheading).1
  have hfilter : (entities ++ [Entity.local v.name v.type ⟨method, heading.locals.length⟩]).filter
      Entity.isMethod = entities.filter Entity.isMethod := by simp [Entity.isMethod]
  refine ⟨?_, ?_, ?_, ?_, ?_⟩
  · rw [hfilter, List.length_set]
    exact h.length_methods
  · -- the methods have what they had, but for the locals
    intro k entity hentity
    rw [hfilter] at hentity
    obtain ⟨heading', ids, hheading', rfl, hlists⟩ := h.methods k entity hentity
    obtain ⟨more, hk⟩ := getElem?_set_locals hheading v hheading'
    exact ⟨_, ids, hk, rfl, hlists.append _⟩
  · intro id name ty slot hid
    rcases getElem?_concat_local hid with hid | ⟨-, rfl, rfl⟩
    · obtain ⟨heading', hheading', hlocal⟩ := h.locals id name ty slot hid
      obtain ⟨more, hk⟩ := getElem?_set_locals hheading v hheading'
      exact ⟨_, hk, getElem?_append_of_eq_some hlocal more⟩
    · exact ⟨_, List.getElem?_set_self hlt, List.getElem?_concat_length⟩
  · -- an old local and the new one cannot share a slot
    intro id id' name name' ty ty' slot hid hid'
    rcases getElem?_concat_local hid with hid | ⟨rfl, -, rfl⟩
    · rcases getElem?_concat_local hid' with hid' | ⟨rfl, -, rfl⟩
      · exact h.distinct _ _ _ _ _ _ _ hid hid'
      · exact absurd hid (h.slot_free hheading _ _ _)
    · rcases getElem?_concat_local hid' with hid' | ⟨rfl, -, -⟩
      · exact absurd hid' (h.slot_free hheading _ _ _)
      · rfl
  · -- a local of the program is an old one, or the new one, whose entity is the last
    intro k heading' index w hheading' hw
    by_cases hmethod : method = k
    · subst hmethod
      rw [List.getElem?_set_self hlt] at hheading'
      cases hheading'
      rcases getElem?_concat_eq_some hw with hw | ⟨rfl, rfl⟩
      · obtain ⟨id, hid⟩ := h.covered method heading index w hheading hw
        exact ⟨id, getElem?_append_of_eq_some hid _⟩
      · exact ⟨entities.length, List.getElem?_concat_length⟩
    · rw [List.getElem?_set_ne hmethod] at hheading'
      obtain ⟨id, hid⟩ := h.covered k heading' index w hheading' hw
      exact ⟨id, getElem?_append_of_eq_some hid _⟩

/-- One more method on both sides, with its parameters behind it among the entities.  It has the
next number, and declares no locals yet. -/
theorem addMethod (h : Registered entities headings) {name : String} {returnType : Ty}
    {ids : List EntityId} {parameters : List Parameter} {more : List Entity}
    (hmore : ∀ entity ∈ more, ∃ x ty ordinal slot, entity = .parameter x ty ordinal slot)
    (hlists : Lists (entities ++ .method name returnType ids (some headings.length) :: more)
      headings.length ids parameters) :
    Registered (entities ++ .method name returnType ids (some headings.length) :: more)
      (headings ++ [⟨name, returnType, parameters, []⟩]) := by
  have hnone : more.filter Entity.isMethod = [] := by
    refine List.filter_eq_nil_iff.mpr fun entity hentity => ?_
    obtain ⟨x, ty, ordinal, slot, rfl⟩ := hmore entity hentity
    simp [Entity.isMethod]
  have hfilter : (entities ++ .method name returnType ids (some headings.length) :: more).filter
      Entity.isMethod = entities.filter Entity.isMethod ++
        [.method name returnType ids (some headings.length)] := by
    rw [List.filter_append, List.filter_cons_of_pos rfl, hnone]
  -- no local is new
  have hlocal (id : EntityId) (x : String) (ty : Ty) (slot : LocalSlot)
      (hid : (entities ++ .method name returnType ids (some headings.length) :: more)[id]? =
        some (.local x ty slot)) : entities[id]? = some (.local x ty slot) := by
    rcases Nat.lt_or_ge id entities.length with hlt | hge
    · rwa [List.getElem?_append_left hlt] at hid
    · rw [List.getElem?_append_right hge] at hid
      rcases List.mem_cons.mp (List.mem_of_getElem? hid) with heq | hmem
      · cases heq
      · obtain ⟨_, _, _, _, heq⟩ := hmore _ hmem
        cases heq
  refine ⟨?_, ?_, ?_, ?_, ?_⟩
  · rw [hfilter, List.length_append, List.length_append, ← h.length_methods]
    rfl
  · intro k entity hentity
    rw [hfilter] at hentity
    rcases getElem?_concat_eq_some hentity with hentity | ⟨rfl, rfl⟩
    · obtain ⟨heading, ids', hheading, rfl, hlists'⟩ := h.methods k entity hentity
      exact ⟨heading, ids', getElem?_append_of_eq_some hheading _, rfl, hlists'.append _⟩
    · rw [h.length_methods]
      exact ⟨_, ids, List.getElem?_concat_length, rfl, hlists⟩
  · intro id x ty slot hid
    obtain ⟨heading, hheading, hv⟩ := h.locals id x ty slot (hlocal id x ty slot hid)
    exact ⟨heading, getElem?_append_of_eq_some hheading _, hv⟩
  · intro id id' x x' ty ty' slot hid hid'
    exact h.distinct _ _ _ _ _ _ _ (hlocal _ _ _ _ hid) (hlocal _ _ _ _ hid')
  · intro method heading index v hheading hv
    rcases getElem?_concat_eq_some hheading with hheading | ⟨-, rfl⟩
    · obtain ⟨id, hid⟩ := h.covered method heading index v hheading hv
      exact ⟨id, getElem?_append_of_eq_some hid _⟩
    · simp at hv

end Registered

end

/-! ### Requests to the assembler -/

namespace Assembler

variable {a a' : Assembler} {α : Type} {x : α}

/-- What the methods written so far declare. -/
def headings (a : Assembler) : List Heading := a.methods.toList.map Method.heading

/-- Changing one method changes what it declares, and nothing else. -/
theorem headings_put (a : Assembler) (id : MethodId) (m : Method) :
    (a.put id m).headings = a.headings.set id m.heading := by
  rw [headings, methods_put, Array.toList_setIfInBounds, List.map_set]
  rfl

theorem getElem?_headings {id : MethodId} {m : Method} (h : a.methods[id]? = some m) :
    a.headings[id]? = some m.heading := by
  rw [headings, List.getElem?_map, Array.getElem?_toList, h]
  rfl

/-- A step on a method that is granted has changed that method, and no other. -/
theorem onMethod_ok {id : MethodId} {step : Coding α} (h : onMethod id step a = .ok x a') :
    ∃ m m', a.methods[id]? = some m ∧ step m = .ok x m' ∧ a' = a.put id m' := by
  obtain ⟨_ | ⟨title, methods⟩, opened⟩ := a
  · cases h
  by_cases hlt : id < methods.size
  · rw [onMethod_of_lt hlt] at h
    cases hstep : step methods[id] with
    | error f m' => simp [hstep] at h
    | ok y m' =>
      rw [hstep] at h
      cases h
      refine ⟨methods[id], m', Array.getElem?_eq_getElem hlt, hstep, ?_⟩
      simp [put, Array.setIfInBounds, hlt]
  · rw [onMethod, dif_neg hlt] at h
    cases h

/-- A step that is granted has changed the innermost open method. -/
theorem onCurrent_ok {step : MethodId → Coding α} (h : onCurrent step a = .ok x a') :
    ∃ id m m', a.opened.head? = some id ∧ a.methods[id]? = some m ∧ step id m = .ok x m' ∧
      a' = a.put id m' := by
  cases hopened : a.opened with
  | nil => simp [onCurrent, hopened] at h
  | cons id rest =>
    have heq : onCurrent step a = onMethod id (step id) a := by simp only [onCurrent, hopened]
    exact ⟨id, (onMethod_ok (heq.symm.trans h)).imp fun _ => Exists.imp fun _ hm => ⟨rfl, hm⟩⟩

/-- A step that leaves what its method declares leaves what all methods declare. -/
theorem headings_of_onCurrent {step : MethodId → Coding α}
    (hstep : ∀ id m x m', step id m = .ok x m' → m'.heading = m.heading)
    (h : onCurrent step a = .ok x a') : a'.headings = a.headings := by
  obtain ⟨id, m, m', -, hm, hrun, rfl⟩ := onCurrent_ok h
  rw [headings_put, hstep id m x m' hrun]
  exact set_of_getElem? (getElem?_headings hm)

end Assembler

namespace Method

variable {m m' : Method}

/-- Code is not part of what a method declares. -/
theorem heading_of_add {i : Instruction} {x : Unit} (h : add i m = .ok x m') :
    m'.heading = m.heading := by
  cases h
  rfl

theorem heading_of_jump {branch : Target → Instruction} {l : Nat} {x : Unit}
    (h : jump branch l m = .ok x m') : m'.heading = m.heading := by
  unfold jump at h
  split at h
  · cases h
  · cases h
    rfl
  · cases h
    rfl

theorem heading_of_retarget {offset : Nat} {branches : List Nat} {x : Unit}
    (h : retarget offset branches m = .ok x m') : m'.heading = m.heading := by
  induction branches generalizing m with
  | nil =>
    cases h
    rfl
  | cons i rest ih =>
    unfold retarget at h
    split at h
    · exact (ih h :)
    · cases h

/-- A label that gets its offset was waited for, and the branches that waited are sent there. -/
theorem retarget_of_bindLabel {l offset : Nat} (h : bindLabel l m = .ok offset m') :
    ∃ branches x, retarget offset branches
      { m with labels := m.labels.setIfInBounds l (.bound offset) } = .ok x m' := by
  unfold bindLabel at h
  dsimp only at h
  split at h
  · cases h
  · cases h
  · next branches _ =>
    split at h
    · next x _ hretarget =>
      cases h
      exact ⟨branches.toList, x, hretarget⟩
    · cases h

theorem heading_of_bindLabel {l offset : Nat} (h : bindLabel l m = .ok offset m') :
    m'.heading = m.heading := by
  obtain ⟨branches, x, hretarget⟩ := retarget_of_bindLabel h
  exact (heading_of_retarget hretarget :)

theorem heading_of_close {closed : Closed} (h : close m = .ok closed m') :
    m'.heading = m.heading := by
  unfold close at h
  split at h
  · cases h
  · dsimp only at h
    cases h
    split <;> rfl

end Method

namespace Assembler.Call

variable {a a' : Assembler}

/-- Only declarations change what methods declare.  All other requests are steps on the code and the
labels of the current method. -/
theorem headings_of_quiet {c : Call} (hc : c.Quiet) {x : c.Answer} (h : c.run a = .ok x a') :
    a'.headings = a.headings := by
  cases c with
  | beginProgram name => exact hc.elim
  | declareMethod name type parameters => exact hc.elim
  | declareParameter method name ordinal type => exact hc.elim
  | declareLocal name type => exact hc.elim
  | endMethod =>
    -- the one request that is more than a step on the current method
    replace h : Assembler.endMethod a = .ok x a' := h
    cases hclose : onCurrent (fun _ => Method.close) a with
    | error f a₁ => simp [Assembler.endMethod, bind, EStateM.bind, hclose] at h
    | ok closed a₁ =>
      have hheadings := headings_of_onCurrent (fun _ _ _ _ h => Method.heading_of_close h) hclose
      simp only [Assembler.endMethod, bind, EStateM.bind, hclose] at h
      cases h
      exact hheadings
  | returnType =>
    refine headings_of_onCurrent (fun id m x m' h => ?_) h
    cases h
    rfl
  | newLabel =>
    refine headings_of_onCurrent (fun id m x m' h => ?_) h
    cases h
    rfl
  | bindLabel label =>
    refine headings_of_onCurrent (fun id m x m' h => ?_) h
    split at h
    · exact Method.heading_of_bindLabel h
    · cases h
  | branch label =>
    refine headings_of_onCurrent (fun id m x m' h => ?_) h
    split at h
    · exact Method.heading_of_jump h
    · cases h
  | branchIfFalse label =>
    refine headings_of_onCurrent (fun id m x m' h => ?_) h
    split at h
    · exact Method.heading_of_jump h
    · cases h
  | loadParameter slot =>
    refine headings_of_onCurrent (fun id m x m' h => ?_) h
    split at h
    · exact Method.heading_of_add h
    · cases h
  | emit operation => exact headings_of_onCurrent (fun _ _ _ _ h => Method.heading_of_add h) h

/-- A new local is the last one of its method, and its slot says so. -/
theorem headings_of_declareLocal {name : String} {ty : Ty} {slot : LocalSlot}
    (h : (declareLocal name ty).run a = .ok slot a') :
    ∃ method heading, a.headings[method]? = some heading ∧ slot = ⟨method, heading.locals.length⟩ ∧
      a'.headings = a.headings.set method
        { heading with locals := heading.locals ++ [⟨name, ty⟩] } := by
  obtain ⟨id, m, m', -, hm, hrun, rfl⟩ := onCurrent_ok h
  cases hrun
  refine ⟨id, m.heading, getElem?_headings hm, rfl, ?_⟩
  rw [headings_put]
  simp [Method.heading]

/-- A new method is the last one, and its parameters have no names yet. -/
theorem headings_of_declareMethod {name : String} {type : Ty} {types : List Ty} {id : MethodId}
    (h : (declareMethod name type types).run a = .ok id a') :
    id = a.headings.length ∧
      a'.headings = a.headings ++ [⟨name, type, types.map fun ty => ⟨ty, none⟩, []⟩] := by
  obtain ⟨_ | p, opened⟩ := a
  · cases h
    exact ⟨rfl, rfl⟩
  · cases h
    simp [headings, methods, Method.heading]

/-- A parameter gets its name, and keeps its place. -/
theorem headings_of_declareParameter {method : MethodId} {name : String} {index : Nat} {type : Ty}
    {slot : ParameterSlot}
    (h : (declareParameter method name (index + 1) type).run a = .ok slot a') :
    slot = ⟨method, index + 1⟩ ∧ ∃ heading, a.headings[method]? = some heading ∧
      a'.headings = a.headings.set method
        { heading with parameters := heading.parameters.set index ⟨type, some name⟩ } := by
  replace h : Assembler.declareParameter method name (index + 1) type a = .ok slot a' := h
  cases hname : onMethod method (Method.nameParameter name (index + 1) type) a with
  | error f a₁ => simp [Assembler.declareParameter, bind, EStateM.bind, hname] at h
  | ok y a₁ =>
    simp only [Assembler.declareParameter, bind, EStateM.bind, hname] at h
    cases h
    obtain ⟨m, m', hm, hrun, rfl⟩ := onMethod_ok hname
    refine ⟨rfl, m.heading, getElem?_headings hm, ?_⟩
    unfold Method.nameParameter at hrun
    simp only at hrun
    split at hrun
    · cases hrun
      rw [headings_put]
      simp [Method.heading]
    · cases hrun

end Assembler.Call

/-! ### Changes of the scopes -/

/-- The parameters of a method, as entities with their ordinals.  Before the method is opened they
have no slots. -/
def formalEntities (slot : Nat → Option ParameterSlot) (ordinal : Nat)
    (parameters : List (String × Ty)) : List Entity :=
  parameters.mapIdx fun j p => .parameter p.1 p.2 (ordinal + j) (slot (ordinal + j))

/-- The parameters of a method are added behind all entities, in order. -/
theorem Scopes.toList_entities_declareFormals (slot : Nat → Option ParameterSlot) (ordinal : Nat)
    (parameters : List (String × Ty)) (s : Scopes) :
    (declareFormals slot ordinal parameters s).entities.toList =
      s.entities.toList ++ formalEntities slot ordinal parameters := by
  induction parameters generalizing ordinal s with
  | nil => simp [declareFormals, formalEntities]
  | cons p parameters ih =>
    rw [declareFormals, ih, entities_declare, Array.toList_push, List.append_assoc]
    simp only [formalEntities, List.mapIdx_cons, Nat.add_zero, List.singleton_append]
    simp only [Nat.add_comm, Nat.add_left_comm]

theorem Production.Formal.map_id_list (id : EntityId) (ordinal : Nat)
    (parameters : List (String × Ty)) :
    (Formal.list id ordinal parameters).map Formal.id = List.range' id parameters.length := by
  induction parameters generalizing id ordinal with
  | nil => rfl
  | cons p parameters ih => simp [Formal.list, ih, List.range'_succ]

/-- The parameters of a method stand behind it among the entities, one after the other. -/
theorem lists_formalEntities (entities : List Entity) (entity : Entity) (method : MethodId)
    (parameters : List (String × Ty)) :
    Lists (entities ++ entity :: formalEntities (fun k => some ⟨method, k⟩) 1 parameters) method
      (List.range' (entities.length + 1) parameters.length)
      (parameters.map fun p => ⟨p.2, some p.1⟩) where
  length_eq := by simp
  parameter j id hid := by
    obtain ⟨hlt, rfl⟩ := List.getElem?_eq_some_iff.mp hid
    rw [List.length_range'] at hlt
    refine ⟨parameters[j].1, parameters[j].2, by simp [hlt], ?_⟩
    rw [List.getElem_range', List.getElem?_append_right (by omega)]
    have hindex : entities.length + 1 + 1 * j - entities.length = j + 1 := by omega
    rw [hindex, List.getElem?_cons_succ]
    simp [formalEntities, hlt, Nat.add_comm]

/-- Every program starts with the predefined types as its entities, and no other ones. -/
theorem Scopes.toList_entities_initial :
    Scopes.initial.entities.toList = Ty.predefined.map fun t => .type t.1 t.2 := rfl

/-! ### Productions -/

/-- The entities of the scopes and the methods of the program tell the same. -/
def State.Registered (s : State) : Prop :=
  OnePass.Registered s.scopes.entities.toList s.assembler.headings

namespace Production

variable {α : Type}

/-- What is known after a request to the assembler that was granted.  Nothing is claimed of one that
was refused. -/
theorem ends_assemble_run {c : Assembler.Call} {s : State} {Q : c.Answer → State → Prop}
    (h : ∀ x assembler log, c.run s.assembler = .ok x assembler → Q x { s with assembler, log }) :
    Ends (assemble c) s Q fun _ _ => True := by
  cases hrun : c.run s.assembler with
  | ok x a =>
    obtain ⟨log, hok⟩ := assemble_ok hrun
    exact ends_of_ok hok (h x a log hrun)
  | error f a =>
    unfold Ends
    rw [assemble_apply]
    simp only [Assembler.Call.perform, bind, EStateM.bind, Logged.record, Logged.silently, hrun]

/-- What is known after a change of the scopes that was made. -/
theorem ends_scope_run {c : Scopes.Call} {s : State} {Q : c.Answer → State → Prop}
    (h : ∀ x scopes log, c.run s.scopes = .ok x scopes → Q x { s with scopes, log }) :
    Ends (scope c) s Q fun _ _ => True := by
  cases hrun : c.run s.scopes with
  | ok x scopes =>
    obtain ⟨log, hok⟩ := scope_ok hrun
    exact ends_of_ok hok (h x scopes log hrun)
  | error f scopes =>
    unfold Ends
    rw [scope_apply]
    simp only [Scopes.Call.perform, bind, EStateM.bind, Logged.silently, hrun]

/-- A production that goes forward, and after which scopes and program still tell the same.  That it
goes forward is needed to know that the end of input is still ahead. -/
structure Registers (p : Production α) : Prop where
  onward : Onward p
  keeps : ∀ s : State, s.Ending → s.Registered →
    Ends p s (fun _ s' => s'.Registered) fun _ _ => True

/-- A step that leaves scopes and program alone. -/
theorem registers_of_same {p : Production α} (ho : Onward p)
    (hp : ∀ s, Ends p s (fun _ s' => s.Same s') fun _ _ => True) : Registers p := by
  refine ⟨ho, fun s _ hs => (hp s).imp fun _ s' hsame => ?_⟩
  unfold State.Registered
  rwa [hsame.scopes, hsame.assembler]

/-- A request that declares nothing leaves both sides as they are. -/
theorem registers_quiet (c : Assembler.Call) (hc : c.Quiet) : Registers (assemble c) := by
  refine ⟨onward_fine.assemble c, fun s _ hs => ends_assemble_run fun x a log hrun => ?_⟩
  show OnePass.Registered s.scopes.entities.toList a.headings
  rwa [Assembler.Call.headings_of_quiet hc hrun]

/-- All steps but declarations leave both sides as they are. -/
theorem registers_calm : Calm fun _ p => Registers p where
  pure a := ⟨onward_fine.pure a, fun _ _ hs => hs⟩
  bind {α β p f} hp hf := by
    refine ⟨onward_fine.bind hp.onward fun a => (hf a).onward, fun s hend hs => ?_⟩
    refine (hp.onward.ends_and (hp.keeps s hend hs)).bind ?_
    rintro a s₁ ⟨hleads₁, hs₁⟩
    exact (hf a).keeps s₁ (hend.of_leads hleads₁) hs₁
  view g := ⟨onward_fine.view g, fun _ _ hs => hs⟩
  accept? select := registers_of_same (onward_fine.accept? select) fun s =>
    ends_accept? (fun _ _ => .advance s) fun _ => .refl s
  accept kind := registers_of_same (onward_fine.accept kind) fun s =>
    ends_accept (fun _ => .advance s) fun _ => .refl s
  errorAt p e := registers_of_same (onward_fine.errorAt p e) fun s => .errorAt s p e
  error e := registers_of_same (onward_fine.error e) fun s => .errorAt s _ e
  warn p w := registers_of_same (onward_fine.warn p w) fun s => .report s _
  emit {operation} _ := registers_quiet (.emit operation) trivial
  returnType := registers_quiet .returnType trivial
  quiet := registers_quiet
  halt h := ⟨onward_fine.halt h, fun _ _ _ => trivial⟩
  ensuring {α p last} hp hl := by
    refine ⟨onward_fine.ensuring hp.onward hl.onward, fun s hend hs => ?_⟩
    refine Ends.ensuring ((hp.onward.ends_and (hp.keeps s hend hs)).mono ?_ ?_)
    · rintro a s₁ ⟨hleads₁, hs₁⟩
      exact hl.keeps s₁ (hend.of_leads hleads₁) hs₁
    · exact fun _ _ _ => ends_of_forall (fun _ _ => trivial) fun _ _ => trivial
  adjust {g} hg := by
    refine ⟨onward_fine.adjust hg, fun s _ hs => ?_⟩
    obtain ⟨loops, methods, recovering, log, h⟩ := hg s
    show (g s).Registered
    rw [h]
    exact hs
  skipUnexpected := registers_of_same onward_fine.skipUnexpected fun s => .skipUnexpected s

/-! ### Declarations -/

/-- A local is declared in the program and in the innermost scope, with the slot that the program
gave. -/
theorem registers_declareLocal (name : String) (ty : Ty) : Registers (declareLocal name ty) := by
  refine ⟨onward_fine.bind (onward_fine.assemble (.declareLocal name ty)) fun _ =>
    onward_fine.bind (onward_fine.scope _) fun _ => onward_fine.pure _, fun s _ hs => ?_⟩
  refine ends_bind.mpr (ends_assemble_run fun slot a log hrun => ?_)
  obtain ⟨method, heading, hheading, rfl, hheadings⟩ := Assembler.Call.headings_of_declareLocal hrun
  obtain ⟨log', hscope⟩ := scope_ok (s := { s with assembler := a, log })
    (c := .declareLocal name ty ⟨method, heading.locals.length⟩)
    (run_modifyGet_declare s.scopes (.local name ty ⟨method, heading.locals.length⟩))
  refine ends_bind.mpr (ends_of_ok hscope ?_)
  show OnePass.Registered (s.scopes.declare _).2.entities.toList a.headings
  rw [hheadings, Scopes.entities_declare, Array.toList_push]
  exact hs.addLocal hheading ⟨name, ty⟩

/-- A field is a local, unless its type is refused; both sides know of it or none. -/
theorem registers_field (ty : Ty) (name : String) (p : Position) : Registers (field ty name p) := by
  have hC := registers_calm
  refine hC.bind (hC.checkFresh _ _ _) fun _ =>
    mem_ite (C := fun _ p => Registers p) (hC.errorAt _ _) ?_
  exact hC.bind (registers_declareLocal name ty) fun _ => hC.expect _

/-- The parameters of a method get their names in the program and their slots in the scopes.  The
two are done in turn, so the parameters that are done have both and the others neither. -/
theorem attachFormals_ends {method : MethodId} (parameters : List (String × Ty))
    (done : List Parameter) (scopes : Scopes) (s : State) {heading : Heading}
    (hheading : s.assembler.headings[method]? = some heading)
    (hparameters : heading.parameters = done ++ parameters.map fun p => ⟨p.2, none⟩)
    (hscopes : s.scopes = scopes.declareFormals (fun _ => none) (done.length + 1) parameters) :
    Ends (attachFormals method (Formal.list scopes.entities.size (done.length + 1) parameters)) s
      (fun _ s' => s'.assembler.headings = s.assembler.headings.set method
          { heading with parameters := done ++ parameters.map fun p => ⟨p.2, some p.1⟩ } ∧
        s'.scopes = scopes.declareFormals (fun k => some ⟨method, k⟩) (done.length + 1) parameters)
      fun _ _ => True := by
  induction parameters generalizing done scopes s heading with
  | nil =>
    refine ⟨?_, hscopes⟩
    have hsame :
        { heading with parameters := done ++ [].map fun p : String × Ty => ⟨p.2, some p.1⟩ } =
        heading := by
      rw [List.map_nil] at hparameters ⊢
      rw [← hparameters]
    rw [hsame, set_of_getElem? hheading]
  | cons p parameters ih =>
    -- the next ordinal is that of the first parameter that is not done
    refine ends_bind.mpr (ends_bind.mpr (ends_assemble_run fun slot a log hrun => ?_))
    obtain ⟨rfl, heading', hheading', hheadings⟩ :=
      Assembler.Call.headings_of_declareParameter hrun
    obtain rfl := Option.some.inj (hheading.symm.trans hheading')
    have hattach := scopes.attachParameter_declareFormals p.1 p.2 (done.length + 1) parameters
      ⟨method, done.length + 1⟩
    obtain ⟨log', hscope⟩ := scope_ok (s := { s with assembler := a, log })
      (c := .attachParameter scopes.entities.size ⟨method, done.length + 1⟩)
      ((congrArg _ hscopes).trans hattach)
    refine ends_of_ok hscope ?_
    -- the first parameter is done; the rest follow it
    have hlt := (List.getElem?_eq_some_iff.mp hheading).1
    let heading₁ : Heading :=
      { heading with parameters := heading.parameters.set done.length ⟨p.2, some p.1⟩ }
    have hheading₁ : a.headings[method]? = some heading₁ := by simp [hheadings, hlt, heading₁]
    have hparameters₁ : heading₁.parameters =
        (done ++ [⟨p.2, some p.1⟩]) ++ parameters.map fun p => ⟨p.2, none⟩ := by
      simp [heading₁, hparameters]
    have hrest := ih (done ++ [⟨p.2, some p.1⟩])
      (scopes.declare (.parameter p.1 p.2 (done.length + 1) (some ⟨method, done.length + 1⟩))).2
      { s with assembler := a, scopes := _, log := log' } hheading₁ hparameters₁
      (by rw [List.length_append])
    simp only [Scopes.entities_declare, Array.size_push, List.length_append,
      List.length_singleton] at hrest
    refine hrest.imp ?_
    rintro _ s' ⟨hheadings', hscopes'⟩
    refine ⟨?_, hscopes'⟩
    rw [hheadings', hheadings, List.set_set]
    simp [heading₁]

/-- A method and its parameters are told to both sides.  Until then the scopes know a method that
the program does not have. -/
theorem openMethod_ends {entities : List Entity} {scopes : Scopes} {s : State}
    {parameters : List (String × Ty)} {name : String} {returnType : Ty}
    (h : OnePass.Registered entities s.assembler.headings)
    (hentities : scopes.entities.toList = entities ++ [.method name returnType [] none])
    (hscopes : s.scopes = scopes.declareFormals (fun _ => none) 1 parameters) :
    Ends (openMethod entities.length returnType name
        (Formal.list scopes.entities.size 1 parameters)) s
      (fun _ s' => s'.Registered) fun _ _ => True := by
  have hsize : scopes.entities.size = entities.length + 1 := by
    rw [← Array.length_toList, hentities, List.length_append]
    rfl
  refine ends_bind.mpr (ends_assemble_run fun id a log hrun => ?_)
  obtain ⟨rfl, hheadings⟩ := Assembler.Call.headings_of_declareMethod hrun
  rw [Formal.map_ty_list] at hheadings
  have hheading : a.headings[s.assembler.headings.length]? =
      some ⟨name, returnType, (parameters.map Prod.snd).map fun ty => ⟨ty, none⟩, []⟩ := by
    rw [hheadings, List.getElem?_concat_length]
  refine (attachFormals_ends parameters [] scopes { s with assembler := a, log } hheading (by simp)
    hscopes).bind ?_
  rintro _ s₁ ⟨hheadings₁, hscopes₁⟩
  refine ends_bind.mpr (ends_scope_run fun _ scopes₂ log₂ hattach => ?_)
  -- the method is found where it was declared
  have hold : scopes.entities[entities.length]? = some (.method name returnType [] none) := by
    rw [← Array.getElem?_toList, hentities, List.getElem?_concat_length]
  have hfound := Scopes.getElem?_declareFormals
    (fun k => some ⟨s.assembler.headings.length, k⟩) 1 parameters hold
  replace hattach : Scopes.attachMethod entities.length s.assembler.headings.length
    ((Formal.list scopes.entities.size 1 parameters).map Formal.id) s₁.scopes =
      .ok () scopes₂ := hattach
  simp only [Scopes.attachMethod, hscopes₁, List.length_nil, Nat.zero_add, hfound] at hattach
  cases hattach
  show OnePass.Registered _ s₁.assembler.headings
  -- with all of its parameters named, the heading is what the entities say
  have hheadings₂ : s₁.assembler.headings = s.assembler.headings ++
      [⟨name, returnType, parameters.map fun p => ⟨p.2, some p.1⟩, []⟩] := by
    rw [hheadings₁]
    show a.headings.set _ _ = _
    simp [hheadings]
  rw [hheadings₂, Array.toList_setIfInBounds, Scopes.toList_entities_declareFormals, hentities,
    List.append_assoc, Formal.map_id_list, hsize]
  simp only [List.singleton_append, List.set_append_right _ _ (Nat.le_refl _), Nat.sub_self,
    List.set_cons_zero]
  refine h.addMethod (fun entity hentity => ?_) (lists_formalEntities _ _ _ _)
  obtain ⟨j, hj, rfl⟩ := List.mem_mapIdx.mp hentity
  exact ⟨_, _, _, _, rfl⟩

section

variable {item : Production Bool} (hi : Registers item) (budget : Nat)
include hi

/-- While the header of a method is read, the method is known to the scopes only, so both sides
agree without it. -/
theorem methodRest_registers {entities : List Entity} {s : State} {name : String} {returnType : Ty}
    (hend : s.Ending) (h : OnePass.Registered entities s.assembler.headings)
    (hentities : s.scopes.entities.toList = entities ++ [.method name returnType [] none]) :
    Ends (methodRest budget item entities.length returnType name) s (fun _ s' => s'.Registered)
      fun _ _ => True := by
  have hC := registers_calm
  refine ((onward_fine.formals budget #[]).ends_and (formals_ends hend (by simp))).bind ?_
  rintro parameters s₁ ⟨hleads₁, ps, -, hlist, hsame₁, hscopes₁⟩
  refine (expect_ends .rightParen s₁).bind ?_
  rintro _ s₂ ⟨hsame₂, hleads₂⟩
  have hassembler₂ : s₂.assembler = s.assembler := hsame₂.assembler.trans hsame₁.assembler
  have hopen := openMethod_ends (s := s₂) (hassembler₂ ▸ h) hentities (hsame₂.scopes.trans hscopes₁)
  have hlist : parameters.toList = Formal.list s.scopes.entities.size 1 ps := by simpa using hlist
  rw [hlist]
  refine ((onward_fine.openMethod _ _ _ _).ends_and hopen).bind ?_
  rintro id s₃ ⟨hleads₃, hs₃⟩
  -- from here on the method is known to both sides
  have hbody : Registers (body budget item) :=
    hC.bind (hC.block hi budget) fun _ =>
      mem_ite (C := fun _ p => Registers p) (hC.pure ()) (hC.error _)
  have hmethod : Registers (inMethod id (body budget item)) :=
    hC.bind (hC.adjust fun _ => ⟨_, _, _, _, rfl⟩) fun _ =>
      hC.ensuring hbody (hC.adjust fun _ => ⟨_, _, _, _, rfl⟩)
  have hrest := hC.bind hmethod fun _ =>
    hC.bind (hC.quiet .endMethod trivial) fun _ => hC.pure ()
  exact hrest.keeps s₃ (hend.of_leads ((hleads₁.trans hleads₂).trans hleads₃)) hs₃

omit hi in
/-- Leaving a scope takes no entity away.  What is out of scope is still listed. -/
theorem registers_exit : Registers (scope .exit) := by
  refine ⟨onward_fine.scope .exit, fun s _ hs => ends_scope_run fun _ scopes log hexit => ?_⟩
  have hentities : scopes.entities = s.scopes.entities := by
    generalize s.scopes = old at hexit
    obtain ⟨entities, outermost, program, nested⟩ := old
    cases nested with
    | nil => cases hexit
    | cons scope rest =>
      cases hexit
      rfl
  show OnePass.Registered scopes.entities.toList s.assembler.headings
  rwa [hentities]

/-- A method is declared in the scopes, and from its scope on it is read as above. -/
theorem registers_method (returnType : Ty) (name : String) (p : Position) :
    Registers (method budget item returnType name p) := by
  have hC := registers_calm
  refine hC.bind (hC.checkFresh _ _ _) fun _ => ?_
  refine ⟨onward_fine.bind (onward_fine.scope _) fun _ =>
    onward_fine.inScope hi.onward budget _ _ _, fun s hend hs => ?_⟩
  let scopes₁ := (s.scopes.declare (.method name returnType [] none)).2
  obtain ⟨log₁, hdeclare⟩ := scope_ok (c := .declareMethod name returnType)
    (run_modifyGet_declare s.scopes (.method name returnType [] none))
  have hrun : Scopes.Call.enter.run scopes₁ = .ok () scopes₁.enter := rfl
  obtain ⟨log₂, henter⟩ :=
    scope_ok (c := .enter) (s := { s with scopes := scopes₁, log := log₁ }) hrun
  refine ends_bind.mpr (ends_of_ok hdeclare (ends_bind.mpr (ends_of_ok henter ?_)))
  refine ends_bind.mpr (ends_view.mpr (ends_bind.mpr (ends_modify.mpr (Ends.ensuring ?_))))
  let s₂ : State := { s with scopes := scopes₁.enter, loops := [], log := log₂ }
  have hentities : s₂.scopes.entities.toList =
      s.scopes.entities.toList ++ [.method name returnType [] none] := by
    show scopes₁.entities.toList = _
    rw [Scopes.entities_declare, Array.toList_push]
  have hrest := (onward_fine.methodRest hi.onward budget _ returnType name).ends_and
    (methodRest_registers hi budget (s := s₂) hend hs hentities)
  have hleave := hC.bind (hC.adjust (g := fun t => { t with loops := s.loops })
    fun _ => ⟨_, _, _, _, rfl⟩) fun _ => registers_exit
  -- if the pass ends inside of the method, nothing is claimed
  refine hrest.mono ?_ fun _ _ _ => ends_of_forall (fun _ _ => trivial) fun _ _ => trivial
  rintro _ s₃ ⟨hleads₃, hs₃⟩
  exact hleave.keeps s₃ (State.Ending.of_leads (s := s₂) hend hleads₃) hs₃

/-- Declarations keep both sides telling the same.  They are all that changes what is told. -/
theorem registers_declarationForm : Registers (declarationForm budget item) := by
  have hC := registers_calm
  refine hC.bind (hC.accept? _) fun ty => ?_
  cases ty with
  | none => exact hC.pure false
  | some ty =>
    refine hC.bind ?_ fun _ => hC.pure true
    refine hC.bind (hC.view _) fun p => hC.bind (hC.accept? _) fun name => ?_
    cases name with
    | none => exact hC.error _
    | some name =>
      exact hC.bind (hC.accept _) fun _ => mem_ite (C := fun _ p => Registers p)
        (registers_method hi budget ty name p) (registers_field ty name p)

end

/-- Every production keeps both sides telling the same. -/
theorem registers_grammar (options : Options) : Grammar options fun _ p => Registers p :=
  registers_calm.grammar options registers_declarationForm

end Production

/-! ### Whole sources -/

open Production

/-- When the program has been begun, there are no methods and no locals among the entities.  The
program has its entry method, which the scopes do not list. -/
theorem begunState_registered {options : Options} {source : String} {assembler : Assembler}
    (h : assembler.Shows (begunOutline options)) (log : Array Event) :
    (begunState source assembler log).Registered := by
  have hscopes : (begunState source assembler log).scopes = .initial :=
    (State.Same.advance (.start (lexemes source))).scopes
  have hheadings : assembler.headings = [⟨"main", .void, [], []⟩] := by
    obtain ⟨methods, rfl, -, hdrafts⟩ := h
    have hheading (m : Method) : m.heading =
        ⟨m.draft.name, m.draft.returnType, m.draft.parameters, m.draft.locals⟩ := rfl
    show methods.toList.map Method.heading = _
    obtain ⟨m, hm, hdraft⟩ := List.map_eq_singleton_iff.mp hdrafts
    rw [hm, List.map_singleton, hheading, hdraft]
    rfl
  show OnePass.Registered (begunState source assembler log).scopes.entities.toList
      assembler.headings
  rw [hscopes, hheadings, Scopes.toList_entities_initial]
  refine .begun "main" .void fun entity hentity => ?_
  obtain ⟨t, -, rfl⟩ := List.mem_map.mp hentity
  exact ⟨t.1, t.2, rfl⟩

/-- **Scopes and program agree after every pass that comes to its end**, errors or not.  The
methods among the entities are those of the program behind the entry method, in order, each with
its number, its types and its parameters; the locals among the entities are the locals of all
methods, each of them once. -/
theorem entities_match_program (options : Options) (source : String) (matched : Bool)
    (h : (parse options source).outcome = .ok matched) :
    ∃ program, (parse options source).state.assembler.program = some program ∧
      Registered (parse options source).state.scopes.entities.toList
        (program.methods.toList.map Method.heading) := by
  obtain ⟨assembler, log, hshows, hparse⟩ := parse_of_items options source
  have hend : (begunState source assembler log).Ending := by
    rw [State.Ending, show (begunState source assembler log).kinds = sourceKinds source from
      State.kinds_advance_start source]
    exact getLast?_sourceKinds source
  have hitems := ((registers_grammar options).items (lexemes source).length
    (lexemes source).length).keeps _ hend (begunState_registered hshows log)
  have hs : (parse options source).state.Registered := (hparse hitems).1 matched h
  generalize (parse options source).state = s at hs
  cases hbegun : s.assembler.program with
  | none =>
    -- there is an entry method at least, hence a program
    have hlength := hs.length_methods
    simp [Assembler.headings, Assembler.methods, hbegun] at hlength
  | some program =>
    have hheadings : s.assembler.headings = program.methods.toList.map Method.heading := by
      rw [Assembler.headings, Assembler.methods, hbegun]
      rfl
    exact ⟨program, rfl, hheadings ▸ hs⟩

/-- A pass that reports an error between two methods inside of each other, with locals in both
of them and in the entry method. -/
theorem entities_match_program_nested :
    let parsed := parse {}
      "int x; void f(int a) \x7b int y; x = b; int g(bool b) \x7b int y; \x7d \x7d"
    parsed.outcome = .ok false ∧ ∃ program, parsed.state.assembler.program = some program ∧
      Registered parsed.state.scopes.entities.toList
        (program.methods.toList.map Method.heading) :=
  have houtcome := eq_ok_of_toOption (by decide +kernel)
  ⟨houtcome, entities_match_program {} _ false houtcome⟩

end OnePass
