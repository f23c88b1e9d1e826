import OnePass.Proofs.LexicalScoping

/-!
# The numbers of entities

Scopes come and go, but the entities declared in them stay.  An entity is known by its number, in
the scopes and in the lists of parameters; a number is given out once, and what it stands for can
be asked for at any time, also after its scope has been left or its name declared again.  Only what
becomes known of a method or a parameter later on is added to it.

## Main definitions

* `Entity.core` — what is known of an entity from its declaration on.
* `Scopes.Call.target?`, `Scopes.Call.amend` — the entity that a call attaches something to, and
  what it makes of it.
* `Scopes.numbers` — the numbers that a list of calls is answered with.
* `Scopes.Filed` — the numbers of a scope are those of entities with the names there.
* `Scopes.Stable` — what can be relied on about numbers.

## Main results

* `Scopes.entity?_after` — **what a call does to the entities that are there**.
* `Scopes.range_append_numbers` — numbers are given out one after the other.
* `Scopes.numbers_are_stable` — **a number once given out always stands for the same entity**.
-/

namespace OnePass

/-! ### Entities apart from what is attached -/

namespace Entity

/-- What is known of an entity from its declaration on: all but the number and the parameters of a
method, and the slot of a parameter, which are attached when the assembler has made them. -/
def core : Entity → Entity
  | .type name ty => .type name ty
  | .local name ty slot => .local name ty slot
  | .parameter name ty ordinal _ => .parameter name ty ordinal none
  | .method name returnType _ _ => .method name returnType [] none

@[simp] theorem name_core (e : Entity) : e.core.name = e.name := by cases e <;> rfl

theorem name_eq_of_core {e e' : Entity} (h : e'.core = e.core) : e'.name = e.name := by
  rw [← name_core e', h, name_core]

end Entity

namespace Scopes

namespace Call

/-- The entity that a call attaches something to.  All other calls declare something or only open
and close scopes. -/
def target? : Call → Option EntityId
  | .attachMethod id _ _ => some id
  | .attachParameter id _ => some id
  | _ => none

/-- What a call makes of the entity it attaches something to.  Only methods and parameters take what
is attached to them. -/
def amend : Call → Entity → Entity
  | .attachMethod _ method parameters, .method name returnType _ _ =>
    .method name returnType parameters (some method)
  | .attachParameter _ slot, .parameter name ty ordinal _ => .parameter name ty ordinal (some slot)
  | _, entity => entity

@[simp] theorem core_amend (c : Call) (e : Entity) : (c.amend e).core = e.core := by
  cases c <;> cases e <;> rfl

end Call

variable {s s' : Scopes} {id : EntityId} {entity : Entity}

/-! ### One call -/

/-- Something is attached to the entity it fits, and nothing else changes; or the call is refused
and changes nothing.  It is refused if the number is that of no entity, or of one of another
kind. -/
theorem run_of_target? {c : Call} (hc : c.target? = some id) (s : Scopes) :
    (∃ entity answer, s.entity? id = some entity ∧ c.run s = .ok answer
      { s with entities := s.entities.setIfInBounds id (c.amend entity) }) ∨
    ∃ f, c.run s = .error f s := by
  cases c with
  | attachMethod id' method parameters =>
    obtain rfl : id' = id := Option.some.inj hc
    -- only a method takes the number and the parameters of a method
    rcases h : s.entities[id']? with _ | (_ | _ | _ | ⟨name, returnType, ps, m⟩)
    case some.method =>
      exact .inl ⟨_, (), h, by simp only [Call.run, Scopes.attachMethod, h, Call.amend]⟩
    all_goals exact .inr ⟨_, by simp only [Call.run, Scopes.attachMethod, h]; rfl⟩
  | attachParameter id' slot =>
    obtain rfl : id' = id := Option.some.inj hc
    -- only a parameter takes a slot
    rcases h : s.entities[id']? with _ | (_ | _ | ⟨name, ty, ordinal, slot'⟩ | _)
    case some.parameter =>
      exact .inl ⟨_, (), h, by simp only [Call.run, Scopes.attachParameter, h, Call.amend]⟩
    all_goals exact .inr ⟨_, by simp only [Call.run, Scopes.attachParameter, h]; rfl⟩
  | _ => cases hc

/-- What a call can do to the entities: it adds the one it declares, changes the one it attaches
something to, or leaves them alone.  No call removes one. -/
theorem entities_after (s : Scopes) (c : Call) :
    (∃ entity, c.entity? = some entity ∧ (s.after c).entities = s.entities.push entity) ∨
    (c.entity? = none ∧ ∃ id entity answer, c.target? = some id ∧ s.entity? id = some entity ∧
      c.run s = .ok answer (s.after c) ∧
      (s.after c).entities = s.entities.setIfInBounds id (c.amend entity)) ∨
    c.entity? = none ∧ (s.after c).entities = s.entities := by
  cases htarget : c.target? with
  | some id =>
    have hnone : c.entity? = none := by cases c <;> first | rfl | cases htarget
    rcases s.run_of_target? htarget with ⟨entity, answer, hentity, hrun⟩ | ⟨f, hrun⟩
    · have hafter : s.after c =
          { s with entities := s.entities.setIfInBounds id (c.amend entity) } := by
        rw [after, hrun]
      rw [hafter]
      exact .inr (.inl ⟨hnone, id, entity, answer, rfl, hentity, hrun, rfl⟩)
    · have hafter : s.after c = s := by rw [after, hrun]
      exact .inr (.inr ⟨hnone, congrArg Scopes.entities hafter⟩)
  | none =>
    -- the calls that attach nothing either declare an entity or leave all of them alone
    obtain ⟨entities, outermost, program, nested⟩ := s
    cases c with
    | declareGlobal entity => exact .inl ⟨entity, rfl, rfl⟩
    | enter => exact .inr (.inr ⟨rfl, rfl⟩)
    | exit => cases nested <;> exact .inr (.inr ⟨rfl, rfl⟩)
    | attachMethod _ _ _ => cases htarget
    | attachParameter _ _ => cases htarget
    | _ => cases nested <;> exact .inl ⟨_, rfl, rfl⟩

/-- **What a call does to the entities that are there.**  It changes none but the one it attaches
something to, and that only if it is answered. -/
theorem entity?_after (h : s.entity? id = some entity) (c : Call) :
    (s.after c).entity? id = some entity ∨
    c.target? = some id ∧ (∃ answer, c.run s = .ok answer (s.after c)) ∧
      (s.after c).entity? id = some (c.amend entity) := by
  have hlt : id < s.entities.size := (Array.getElem?_eq_some_iff.mp h).1
  unfold entity? at h ⊢
  rcases s.entities_after c with ⟨new, -, hpush⟩ |
    ⟨-, id', old, answer, htarget, hold, hrun, hset⟩ | ⟨-, hsame⟩
  · -- a new entity is put behind the old ones
    left
    rw [hpush, Array.getElem?_push_lt hlt, ← h, Array.getElem?_eq_getElem hlt]
  · -- something is attached to an entity: to this one or to another
    by_cases heq : id' = id
    · subst heq
      obtain rfl : old = entity := Option.some.inj (hold.symm.trans h)
      right
      refine ⟨htarget, ⟨answer, hrun⟩, ?_⟩
      rw [hset, Array.getElem?_setIfInBounds_self_of_lt hlt]
    · left
      rw [hset, Array.getElem?_setIfInBounds_ne heq, h]
  · left
    rw [hsame, h]

/-- So it stays what it was declared as, whatever is attached to it. -/
theorem exists_entity?_after (h : s.entity? id = some entity) (c : Call) :
    ∃ entity', (s.after c).entity? id = some entity' ∧ entity'.core = entity.core := by
  rcases entity?_after h c with hsame | ⟨-, -, hamend⟩
  · exact ⟨entity, hsame, rfl⟩
  · exact ⟨c.amend entity, hamend, c.core_amend entity⟩

theorem exists_entity?_afterAll (h : s.entity? id = some entity) (calls : List Call) :
    ∃ entity', (s.afterAll calls).entity? id = some entity' ∧ entity'.core = entity.core := by
  induction calls generalizing s entity with
  | nil => exact ⟨entity, h, rfl⟩
  | cons c calls ih =>
    obtain ⟨next, hnext, hcore⟩ := exists_entity?_after h c
    obtain ⟨last, hlast, hcore'⟩ := ih hnext
    exact ⟨last, hlast, hcore'.trans hcore⟩

/-- What is declared gets the next number, which is the number of entities there are. -/
theorem entity?_declared {c : Call} (hc : c.entity? = some entity) (s : Scopes) :
    (s.after c).entity? s.entities.size = some entity := by
  rcases s.entities_after c with ⟨entity', hentity', hpush⟩ | ⟨hnone, -⟩ | ⟨hnone, -⟩
  · obtain rfl : entity = entity' := Option.some.inj (hc.symm.trans hentity')
    rw [entity?, hpush, Array.getElem?_push_size]
  · cases hc.symm.trans hnone
  · cases hc.symm.trans hnone

/-- A call that is refused changes nothing, so that it might as well not have been made. -/
theorem eq_of_run_eq_error {c : Call} {f : Fault} (h : c.run s = .error f s') : s' = s := by
  cases htarget : c.target? with
  | some id =>
    rcases s.run_of_target? htarget with ⟨entity, answer, -, hrun⟩ | ⟨f', hrun⟩
    · cases h.symm.trans hrun
    · exact (EStateM.Result.error.inj (h.symm.trans hrun)).2
  | none =>
    obtain ⟨entities, outermost, program, nested⟩ := s
    cases c with
    -- leaving is refused if only the scope of the program is open
    | exit =>
      cases nested with
      | nil => exact (EStateM.Result.error.inj h).2.symm
      | cons scope rest => cases h
    | attachMethod _ _ _ => cases htarget
    | attachParameter _ _ => cases htarget
    | _ => cases h

/-! ### Numbers that are given out -/

/-- The numbers that calls are answered with, the first one first.  Calls that declare nothing are
answered with none. -/
def numbers (s : Scopes) : List Call → List EntityId
  | [] => []
  | c :: calls => (c.number? s).toList ++ (s.after c).numbers calls

/-- A call that declares nothing is answered with no number. -/
theorem number?_eq_none {c : Call} (h : c.entity? = none) : c.number? s = none := by
  cases c <;> first | rfl | cases h

/-- **Numbers are given out one after the other**, and none twice.  With those of the entities that
are there already they make up all numbers so far. -/
theorem range_append_numbers (s : Scopes) (calls : List Call) :
    List.range s.entities.size ++ s.numbers calls =
      List.range (s.afterAll calls).entities.size := by
  induction calls generalizing s with
  | nil => exact List.append_nil _
  | cons c calls ih =>
    -- one call either adds the next number and an entity, or neither
    have hstep : List.range s.entities.size ++ (c.number? s).toList =
        List.range (s.after c).entities.size := by
      rcases s.entities_after c with ⟨entity, hentity, hpush⟩ |
        ⟨hnone, id, old, -, -, -, -, hset⟩ | ⟨hnone, hsame⟩
      · rw [Call.number?_eq hentity, hpush, Array.size_push, List.range_succ]
        rfl
      · rw [number?_eq_none hnone, hset, Array.size_setIfInBounds]
        exact List.append_nil _
      · rw [number?_eq_none hnone, hsame]
        exact List.append_nil _
    show List.range s.entities.size ++ ((c.number? s).toList ++ (s.after c).numbers calls) =
      List.range ((s.after c).afterAll calls).entities.size
    rw [← List.append_assoc, hstep]
    exact ih (s.after c)

/-! ### Names and their numbers -/

/-- Every number of a scope is that of an entity with the name it is filed under.  So a lookup
always finds something, and something of the right name. -/
def Filed (s : Scopes) (scope : Scope) : Prop :=
  ∀ (name : String) (id : EntityId), scope[name]? = some id →
    ∃ entity, s.entity? id = some entity ∧ entity.name = name

namespace Filed

theorem empty (s : Scopes) : s.Filed ∅ := by
  intro name id hid
  simp at hid

/-- A scope that is left alone, since an entity keeps its name. -/
theorem after {scope : Scope} (h : s.Filed scope) (c : Call) : (s.after c).Filed scope := by
  intro name id hid
  obtain ⟨entity, hentity, hname⟩ := h name id hid
  obtain ⟨entity', hentity', hcore⟩ := exists_entity?_after hentity c
  exact ⟨entity', hentity', (Entity.name_eq_of_core hcore).trans hname⟩

/-- A scope that something is declared in: the new number stands for the new entity, and the others
for what they stood for. -/
theorem insert {scope : Scope} (h : s.Filed scope) {c : Call} (hc : c.entity? = some entity) :
    (s.after c).Filed (scope.insert entity.name s.entities.size) := by
  intro name id hid
  rw [Std.TreeMap.getElem?_insert] at hid
  split at hid
  · next heq =>
    obtain rfl : s.entities.size = id := Option.some.inj hid
    exact ⟨entity, entity?_declared hc s, Std.LawfulEqCmp.eq_of_compare heq⟩
  · exact h.after c name id hid

end Filed

/-- Every open scope is filed, whatever call is made.  A call opens a scope, closes one, files a
number in one of them, or leaves all alone. -/
theorem filed_after (h : ∀ scope ∈ s.chain, s.Filed scope) (c : Call) :
    ∀ scope ∈ (s.after c).chain, (s.after c).Filed scope := by
  intro scope hscope
  rcases s.after_cases c with ⟨-, hafter⟩ | ⟨-, hafter⟩ | ⟨-, entity, hentity, -, hafter⟩ |
    ⟨-, -, ⟨entity, rfl, hafter⟩ | ⟨-, entities, -, hafter⟩⟩
  · -- a new scope has no numbers yet
    rw [hafter] at hscope
    rcases List.mem_cons.mp hscope with rfl | hscope
    · exact Filed.empty _
    · exact (h scope hscope).after c
  · -- the scopes that stay open are among those that were
    rw [hafter] at hscope
    apply (h scope ?_).after c
    rcases List.mem_append.mp hscope with hnested | houter
    · exact List.mem_append_left _ (List.mem_of_mem_tail hnested)
    · exact List.mem_append_right _ houter
  · -- what is declared is filed in the innermost scope, be it that of a method or of the program
    have hchain : ∃ innermost rest, s.chain = innermost :: rest ∧
        (s.after c).chain = innermost.insert entity.name s.entities.size :: rest := by
      rw [hafter]
      obtain ⟨entities, outermost, program, nested⟩ := s
      cases nested <;> exact ⟨_, _, rfl, rfl⟩
    obtain ⟨innermost, rest, hbefore, hnow⟩ := hchain
    rw [hbefore] at h
    rw [hnow] at hscope
    rcases List.mem_cons.mp hscope with rfl | hrest
    · exact (h innermost List.mem_cons_self).insert hentity
    · exact (h scope (List.mem_cons_of_mem _ hrest)).after c
  · -- what is declared for all programs is filed in the outermost scope
    have hchain : (s.after (.declareGlobal entity)).chain =
        s.nested ++ [s.program, s.outermost.insert entity.name s.entities.size] := by
      rw [hafter]
      rfl
    rw [hchain] at hscope
    simp only [chain, List.mem_append, List.mem_cons, List.not_mem_nil, or_false] at h hscope
    rcases hscope with hnested | rfl | rfl
    · exact (h scope (.inl hnested)).after _
    · exact (h s.program (.inr (.inl rfl))).after _
    · exact (h s.outermost (.inr (.inr rfl))).insert rfl
  · rw [hafter] at hscope
    exact (h scope hscope).after c

/-- So all are after any calls. -/
theorem filed_afterAll (h : ∀ scope ∈ s.chain, s.Filed scope) (calls : List Call) :
    ∀ scope ∈ (s.afterAll calls).chain, (s.afterAll calls).Filed scope := by
  induction calls generalizing s with
  | nil => exact h
  | cons c calls ih => exact ih (filed_after h c)

/-! ### Every program's numbers -/

/-- What can be relied on about numbers, at any time while a program is compiled. -/
structure Stable (s : Scopes) : Prop where
  /-- The numbers of an open scope are those of entities with the names there. -/
  filed : ∀ scope ∈ s.chain, s.Filed scope
  /-- A declaration is answered with the next number, which then stands for what is declared. -/
  declared : ∀ c entity, c.entity? = some entity →
    c.number? s = some s.entities.size ∧ (s.after c).entity? s.entities.size = some entity
  /-- What a number stands for stays what it was declared as, whatever is done later on. -/
  lasting : ∀ id entity, s.entity? id = some entity → ∀ calls, ∃ entity',
    (s.afterAll calls).entity? id = some entity' ∧ entity'.core = entity.core
  /-- An entity is changed only by attaching something to this very entity, and then by no more
  than that. -/
  changed : ∀ id entity, s.entity? id = some entity → ∀ c : Call,
    (s.after c).entity? id ≠ some entity →
      c.target? = some id ∧ (∃ answer, c.run s = .ok answer (s.after c)) ∧
        (s.after c).entity? id = some (c.amend entity)
  /-- A call that is refused changes nothing. -/
  refused : ∀ (c : Call) f s', c.run s = .error f s' → s' = s

/-- **A number once given out always stands for the same entity.**  The numbers are 0, 1, 2 and so
on, and each of them is given out once. -/
theorem numbers_are_stable (calls : List Call) :
    ({} : Scopes).numbers (opening ++ calls) = List.range (initial.afterAll calls).entities.size ∧
    Stable (initial.afterAll calls) := by
  constructor
  · have h := range_append_numbers {} (opening ++ calls)
    rwa [afterAll_append, afterAll_opening] at h
  · refine ⟨?_, ?_, ?_, ?_, ?_⟩
    · -- the calls that set up the predefined types are calls like any other, made from nothing
      rw [← afterAll_opening, ← afterAll_append]
      apply filed_afterAll
      intro scope hscope
      rcases List.mem_pair.mp hscope with rfl | rfl <;> exact Filed.empty _
    · intro c entity hc
      exact ⟨Call.number?_eq hc _, entity?_declared hc _⟩
    · intro id entity hentity later
      exact exists_entity?_afterAll hentity later
    · intro id entity hentity c hchanged
      exact (entity?_after hentity c).resolve_left hchanged
    · intro c f s' hrun
      exact eq_of_run_eq_error hrun

/-- A parameter whose name is declared again, in a method whose scope is left before the parameter
gets its slot.  Its number is the only way left to find it. -/
def outlived : List Call :=
  [.enter, .declareParameter "x" .int 1, .declareLocal "x" .bool ⟨1, 0⟩, .exit]

theorem numbers_are_stable_outlived :
    (initial.afterAll outlived).resolve? "x" = none ∧
    (initial.afterAll outlived).entity? 7 = some (.parameter "x" .int 1 none) ∧
    ∀ calls, ∃ entity, ((initial.afterAll outlived).afterAll calls).entity? 7 = some entity ∧
      entity.core = .parameter "x" .int 1 none := by
  have hentity : (initial.afterAll outlived).entity? 7 = some (.parameter "x" .int 1 none) := by
    decide +kernel
  refine ⟨by decide +kernel, hentity, ?_⟩
  exact (numbers_are_stable outlived).2.lasting 7 _ hentity

end Scopes

end OnePass
